import HeaderSynopsis.Proofs.Writing.References

namespace HeaderSynopsis.Declaration

mutual

inductive CppType.Mentions (r : Reference) : CppType → Prop
  | named : CppType.Mentions r (.named r)
  | const {inner : CppType} (h : CppType.Mentions r inner) :
      CppType.Mentions r (.const inner)
  | volatile {inner : CppType} (h : CppType.Mentions r inner) :
      CppType.Mentions r (.volatile inner)
  | pointer {inner : CppType} (h : CppType.Mentions r inner) :
      CppType.Mentions r (.pointer inner)
  | lvalueRef {inner : CppType} (h : CppType.Mentions r inner) :
      CppType.Mentions r (.lvalueRef inner)
  | rvalueRef {inner : CppType} (h : CppType.Mentions r inner) :
      CppType.Mentions r (.rvalueRef inner)
  | element {element : CppType} {size : Option Expression} (h : CppType.Mentions r element) :
      CppType.Mentions r (.array element size)
  | template {arguments : List TemplateArgument} : CppType.Mentions r (.instantiation r arguments)
  | argument {template : Reference} {arguments : List TemplateArgument}
      {argument : TemplateArgument} (hm : argument ∈ arguments)
      (h : TemplateArgument.Mentions r argument) :
      CppType.Mentions r (.instantiation template arguments)

inductive TemplateArgument.Mentions (r : Reference) : TemplateArgument → Prop
  | type {type : CppType} (h : CppType.Mentions r type) : TemplateArgument.Mentions r (.type type)
  | template : TemplateArgument.Mentions r (.template r)

end

inductive TemplateParameter.Mentions (r : Reference) : TemplateParameter → Prop
  | type {name : String} {keyword : TypeKeyword} {variadic : Bool} {default : CppType}
      (h : default.Mentions r) :
      TemplateParameter.Mentions r (.type name keyword variadic (some default))
  | value {name : String} {holds : CppType} {variadic : Bool} {default : Option Expression}
      (h : holds.Mentions r) : TemplateParameter.Mentions r (.value name holds variadic default)
  | parameter {name : String} {parameters : List TemplateParameter} {variadic : Bool}
      {default : Option Reference} {parameter : TemplateParameter} (hm : parameter ∈ parameters)
      (h : TemplateParameter.Mentions r parameter) :
      TemplateParameter.Mentions r (.template name parameters variadic default)
  | default {name : String} {parameters : List TemplateParameter} {variadic : Bool} :
      TemplateParameter.Mentions r (.template name parameters variadic (some r))

/-- A reference stands in a template head. That of a specialization refers to the template, though
it is not written. -/
inductive TemplateHead.Mentions (r : Reference) : TemplateHead → Prop
  | parameter {parameters : List TemplateParameter} {parameter : TemplateParameter}
      (hm : parameter ∈ parameters) (h : parameter.Mentions r) :
      TemplateHead.Mentions r (.primary parameters)
  | template {arguments : List TemplateArgument} :
      TemplateHead.Mentions r (.specialization ⟨r, arguments⟩)
  | argument {special : Specialization} {argument : TemplateArgument}
      (hm : argument ∈ special.arguments) (h : argument.Mentions r) :
      TemplateHead.Mentions r (.specialization special)

inductive EntityKind.Mentions (r : Reference) : EntityKind → Prop
  | namespaceAlias : EntityKind.Mentions r (.namespaceAlias r)
  | usingDirective : EntityKind.Mentions r (.usingDirective r)
  | usingDeclaration : EntityKind.Mentions r (.usingDeclaration r)
  | typeAlias {aliased : CppType} (h : aliased.Mentions r) :
      EntityKind.Mentions r (.typeAlias aliased)
  | enumeration {isScoped : Bool} {underlying : CppType} {forward : Bool}
      (h : underlying.Mentions r) :
      EntityKind.Mentions r (.enumeration isScoped (some underlying) forward)
  | base {keyword : ClassKey} {isFinal : Bool} {bases : List BaseClass} {forward : Bool}
      {base : BaseClass} (hm : base ∈ bases) (h : base.type.Mentions r) :
      EntityKind.Mentions r (.classType keyword isFinal bases forward)
  | variableDecl {type : CppType} {default : Option Expression} {storage : Storage}
      {isConstexpr : Bool} (h : type.Mentions r) :
      EntityKind.Mentions r (.variableDecl type default storage isConstexpr)
  | fieldDecl {type : CppType} {default : Option Expression} {isMutable : Bool}
      {bits : Option UInt32} (h : type.Mentions r) :
      EntityKind.Mentions r (.fieldDecl type default isMutable bits)
  | result {function : FunctionDecl} {result : CppType} (hr : function.result = some result)
      (h : result.Mentions r) : EntityKind.Mentions r (.functionDecl function)
  | parameter {function : FunctionDecl} {parameter : Parameter}
      (hm : parameter ∈ function.parameters) (h : parameter.type.Mentions r) :
      EntityKind.Mentions r (.functionDecl function)

def Entity.Mentions (entity : Entity) (r : Reference) : Prop :=
  (∃ head, entity.template = some head ∧ head.Mentions r) ∨ entity.kind.Mentions r

variable {r : Reference}

/-- In each of several arguments the references are those that stand in it if this is so for the
types among them. -/
theorem TemplateArgument.mem_references_iff_of {argument : TemplateArgument}
    (ht : ∀ type, argument = .type type → (r ∈ type.references ↔ type.Mentions r)) :
    r ∈ argument.references ↔ argument.Mentions r := by
  cases argument with
  | type type =>
    rw [references, ht type rfl]
    exact ⟨.type, fun h => by cases h with | type h => exact h⟩
  | value value => exact ⟨fun h => absurd h List.not_mem_nil, fun h => by cases h⟩
  | template template =>
    rw [references, List.mem_singleton]
    constructor
    · rintro rfl
      exact .template
    · rintro ⟨⟩
      rfl

theorem CppType.mem_references_iff (type : CppType) :
    r ∈ type.references ↔ type.Mentions r := by
  induction type using type_induction with
  | builtin spelling => exact ⟨fun h => absurd h List.not_mem_nil, fun h => by cases h⟩
  | verbatim spelling => exact ⟨fun h => absurd h List.not_mem_nil, fun h => by cases h⟩
  | named target =>
    rw [references, List.mem_singleton]
    constructor
    · rintro rfl
      exact .named
    · rintro ⟨⟩
      rfl
  | const inner ih =>
    rw [references, ih]
    exact ⟨.const, fun h => by cases h with | const h => exact h⟩
  | volatile inner ih =>
    rw [references, ih]
    exact ⟨.volatile, fun h => by cases h with | volatile h => exact h⟩
  | pointer inner ih =>
    rw [references, ih]
    exact ⟨.pointer, fun h => by cases h with | pointer h => exact h⟩
  | lvalueRef inner ih =>
    rw [references, ih]
    exact ⟨.lvalueRef, fun h => by cases h with | lvalueRef h => exact h⟩
  | rvalueRef inner ih =>
    rw [references, ih]
    exact ⟨.rvalueRef, fun h => by cases h with | rvalueRef h => exact h⟩
  | array element size ih =>
    rw [references, ih]
    exact ⟨.element, fun h => by cases h with | element h => exact h⟩
  | instantiation template arguments ih =>
    -- The induction is on types, and an argument is one or has none in it.
    have hargument : ∀ argument ∈ arguments,
        (r ∈ argument.references ↔ argument.Mentions r) := fun argument hm =>
      TemplateArgument.mem_references_iff_of fun type ht => ih type (ht ▸ hm)
    rw [references, List.mem_cons, TemplateArgument.allReferences_eq, List.mem_flatMap]
    constructor
    · rintro (rfl | ⟨argument, hm, hr⟩)
      · exact .template
      · exact .argument hm ((hargument argument hm).mp hr)
    · intro h
      cases h with
      | template => exact Or.inl rfl
      | argument hm h => exact Or.inr ⟨_, hm, (hargument _ hm).mpr h⟩

theorem TemplateArgument.mem_references_iff (argument : TemplateArgument) :
    r ∈ argument.references ↔ argument.Mentions r :=
  mem_references_iff_of fun type _ => type.mem_references_iff

theorem TemplateParameter.mem_references_iff (parameter : TemplateParameter) :
    r ∈ parameter.references ↔ parameter.Mentions r := by
  induction parameter using parameter_induction with
  | type name keyword variadic default =>
    cases default with
    | none => exact ⟨fun h => absurd h List.not_mem_nil, fun h => by cases h⟩
    | some default =>
      rw [references, Option.map_some, Option.getD_some, default.mem_references_iff]
      exact ⟨.type, fun h => by cases h with | type h => exact h⟩
  | value name holds variadic default =>
    rw [references, holds.mem_references_iff]
    exact ⟨.value, fun h => by cases h with | value h => exact h⟩
  | template name parameters variadic default ih =>
    rw [references, List.mem_append, allReferences_eq, List.mem_flatMap, Option.mem_toList]
    constructor
    · rintro (⟨parameter, hm, hr⟩ | hd)
      · exact .parameter hm ((ih parameter hm).mp hr)
      · obtain rfl := Option.mem_def.mp hd
        exact .default
    · intro h
      cases h with
      | parameter hm h => exact Or.inl ⟨_, hm, (ih _ hm).mpr h⟩
      | default => exact Or.inr rfl

theorem TemplateHead.mem_references_iff (head : TemplateHead) :
    r ∈ head.references ↔ head.Mentions r := by
  cases head with
  | primary parameters =>
    rw [references, TemplateParameter.allReferences_eq, List.mem_flatMap]
    constructor
    · rintro ⟨parameter, hm, hr⟩
      exact .parameter hm (parameter.mem_references_iff.mp hr)
    · rintro (⟨hm, h⟩)
      exact ⟨_, hm, (TemplateParameter.mem_references_iff _).mpr h⟩
  | specialization special =>
    rw [references, List.mem_cons, TemplateArgument.allReferences_eq, List.mem_flatMap]
    constructor
    · rintro (rfl | ⟨argument, hm, hr⟩)
      · exact .template
      · exact .argument hm (argument.mem_references_iff.mp hr)
    · intro h
      cases h with
      | template => exact Or.inl rfl
      | argument hm h => exact Or.inr ⟨_, hm, (TemplateArgument.mem_references_iff _).mpr h⟩

theorem FunctionDecl.mem_references_iff (function : FunctionDecl) :
    r ∈ (EntityKind.functionDecl function).references ↔
      (EntityKind.functionDecl function).Mentions r := by
  have hresult : r ∈ (function.result.map CppType.references).getD [] ↔
      ∃ result, function.result = some result ∧ result.Mentions r := by
    cases function.result with
    | none => simp
    | some result => simp [result.mem_references_iff]
  rw [EntityKind.references, List.mem_append, hresult, List.mem_flatMap]
  constructor
  · rintro (⟨result, hr, h⟩ | ⟨parameter, hm, h⟩)
    · exact .result hr h
    · exact .parameter hm (parameter.type.mem_references_iff.mp h)
  · intro h
    cases h with
    | result hr h => exact Or.inl ⟨_, hr, h⟩
    | parameter hm h => exact Or.inr ⟨_, hm, (CppType.mem_references_iff _).mpr h⟩

theorem EntityKind.mem_references_iff (kind : EntityKind) :
    r ∈ kind.references ↔ kind.Mentions r := by
  have hself (target : Reference) : r ∈ [target] ↔ r = target := List.mem_singleton
  cases kind with
  | namespaceAlias target =>
    rw [references, hself]
    exact ⟨fun h => h ▸ .namespaceAlias, fun h => by cases h with | namespaceAlias => rfl⟩
  | usingDirective target =>
    rw [references, hself]
    exact ⟨fun h => h ▸ .usingDirective, fun h => by cases h with | usingDirective => rfl⟩
  | usingDeclaration target =>
    rw [references, hself]
    exact ⟨fun h => h ▸ .usingDeclaration, fun h => by cases h with | usingDeclaration => rfl⟩
  | typeAlias aliased =>
    rw [references, aliased.mem_references_iff]
    exact ⟨.typeAlias, fun h => by cases h with | typeAlias h => exact h⟩
  | enumeration isScoped underlying forward =>
    cases underlying with
    | none => exact ⟨fun h => absurd h List.not_mem_nil, fun h => by cases h⟩
    | some underlying =>
      rw [references, Option.map_some, Option.getD_some, underlying.mem_references_iff]
      exact ⟨.enumeration, fun h => by cases h with | enumeration h => exact h⟩
  | classType keyword isFinal bases forward =>
    rw [references, List.mem_flatMap]
    constructor
    · rintro ⟨base, hm, h⟩
      exact .base hm (base.type.mem_references_iff.mp h)
    · intro h
      cases h with
      | base hm h => exact ⟨_, hm, (CppType.mem_references_iff _).mpr h⟩
  | variableDecl type default storage isConstexpr =>
    rw [references, type.mem_references_iff]
    exact ⟨.variableDecl, fun h => by cases h with | variableDecl h => exact h⟩
  | fieldDecl type default isMutable bits =>
    rw [references, type.mem_references_iff]
    exact ⟨.fieldDecl, fun h => by cases h with | fieldDecl h => exact h⟩
  | functionDecl function => exact function.mem_references_iff
  | _ => exact ⟨fun h => absurd h List.not_mem_nil, fun h => by cases h⟩

/-- The references that are collected from an entity are those that stand in it. -/
theorem Entity.mem_references_iff (entity : Entity) :
    r ∈ entity.references ↔ entity.Mentions r := by
  have htemplate : r ∈ (entity.template.map TemplateHead.references).getD [] ↔
      ∃ head, entity.template = some head ∧ head.Mentions r := by
    cases entity.template with
    | none => simp
    | some head => simp [head.mem_references_iff]
  rw [references, List.mem_append, htemplate, entity.kind.mem_references_iff]
  rfl

end HeaderSynopsis.Declaration
