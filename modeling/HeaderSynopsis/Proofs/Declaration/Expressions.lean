import HeaderSynopsis.Declaration.Entity

namespace HeaderSynopsis.Declaration

/-- A truth value is spelled as one. -/
def Expression.Spelled : Expression → Prop
  | .literal .bool text => text = "true" ∨ text = "false"
  | _ => True

instance (value : Expression) : Decidable value.Spelled := by
  unfold Expression.Spelled
  split <;> infer_instance

mutual

def CppType.expressions : CppType → List Expression
  | .builtin _ | .named _ | .verbatim _ => []
  | .const inner | .volatile inner | .pointer inner | .lvalueRef inner | .rvalueRef inner =>
      inner.expressions
  | .array element size => element.expressions ++ size.toList
  | .instantiation _ arguments => TemplateArgument.allExpressions arguments

def TemplateArgument.allExpressions : List TemplateArgument → List Expression
  | [] => []
  | argument :: rest => argument.expressions ++ TemplateArgument.allExpressions rest

def TemplateArgument.expressions : TemplateArgument → List Expression
  | .type type => type.expressions
  | .value value => [value]
  | .template _ => []

end

mutual

def TemplateParameter.expressions : TemplateParameter → List Expression
  | .type _ _ _ default => default.toList.flatMap CppType.expressions
  | .value _ holds _ default => holds.expressions ++ default.toList
  | .template _ parameters _ _ => TemplateParameter.allExpressions parameters

def TemplateParameter.allExpressions : List TemplateParameter → List Expression
  | [] => []
  | parameter :: rest => parameter.expressions ++ TemplateParameter.allExpressions rest

end

def TemplateHead.expressions : TemplateHead → List Expression
  | .primary parameters => TemplateParameter.allExpressions parameters
  | .specialization special => TemplateArgument.allExpressions special.arguments

def Parameter.expressions (parameter : Parameter) : List Expression :=
  parameter.type.expressions ++ parameter.default.toList

def FunctionDecl.expressions (function : FunctionDecl) : List Expression :=
  function.parameters.flatMap Parameter.expressions ++
    function.result.toList.flatMap CppType.expressions

def EntityKind.expressions : EntityKind → List Expression
  | .typeAlias aliased => aliased.expressions
  | .enumeration _ underlying _ => underlying.toList.flatMap CppType.expressions
  | .enumerator value => value.toList
  | .classType _ _ bases _ => bases.flatMap (·.type.expressions)
  | .variableDecl type default _ _ | .fieldDecl type default _ _ =>
      type.expressions ++ default.toList
  | .functionDecl function => function.expressions
  | _ => []

def Entity.expressions (entity : Entity) : List Expression :=
  entity.template.toList.flatMap TemplateHead.expressions ++ entity.kind.expressions

theorem allExpressions_arguments_eq (arguments : List TemplateArgument) :
    TemplateArgument.allExpressions arguments =
      arguments.flatMap TemplateArgument.expressions := by
  induction arguments with
  | nil => rfl
  | cons argument rest ih => rw [TemplateArgument.allExpressions, ih, List.flatMap_cons]

theorem allExpressions_parameters_eq (parameters : List TemplateParameter) :
    TemplateParameter.allExpressions parameters =
      parameters.flatMap TemplateParameter.expressions := by
  induction parameters with
  | nil => rfl
  | cons parameter rest ih => rw [TemplateParameter.allExpressions, ih, List.flatMap_cons]

def AllSpelled (values : List Expression) : Prop := ∀ value ∈ values, value.Spelled

namespace AllSpelled

variable {α : Type} {values others : List Expression}

@[simp]
theorem append_iff : AllSpelled (values ++ others) ↔ AllSpelled values ∧ AllSpelled others :=
  List.forall_mem_append

@[simp]
theorem flatMap_iff {items : List α} {expressions : α → List Expression} :
    AllSpelled (items.flatMap expressions) ↔ ∀ item ∈ items, AllSpelled (expressions item) :=
  List.forall_mem_flatMap

@[simp]
theorem nil : AllSpelled [] := List.forall_mem_nil _

end AllSpelled

def Entity.Spelled (entity : Entity) : Prop := ∀ e ∈ entity.walk, AllSpelled e.expressions

end HeaderSynopsis.Declaration
