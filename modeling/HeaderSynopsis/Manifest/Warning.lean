import HeaderSynopsis.Declaration.Entity
import HeaderSynopsis.Manifest.Options

namespace HeaderSynopsis.Declaration

mutual

/-- The references in a type. Those in expressions are not taken apart. -/
def CppType.references : CppType → List Reference
  | .builtin _ | .verbatim _ => []
  | .named target => [target]
  | .const inner | .volatile inner | .pointer inner | .lvalueRef inner | .rvalueRef inner =>
      inner.references
  | .array element _ => element.references
  | .instantiation template arguments => template :: TemplateArgument.allReferences arguments

def TemplateArgument.allReferences : List TemplateArgument → List Reference
  | [] => []
  | argument :: rest => argument.references ++ TemplateArgument.allReferences rest

def TemplateArgument.references : TemplateArgument → List Reference
  | .type type => type.references
  | .value _ => []
  | .template template => [template]

end

mutual

def TemplateParameter.references : TemplateParameter → List Reference
  | .type _ _ _ default => (default.map CppType.references).getD []
  | .value _ holds _ _ => holds.references
  | .template _ parameters _ default =>
      TemplateParameter.allReferences parameters ++ default.toList

def TemplateParameter.allReferences : List TemplateParameter → List Reference
  | [] => []
  | parameter :: rest => parameter.references ++ TemplateParameter.allReferences rest

end

def TemplateHead.references : TemplateHead → List Reference
  | .primary parameters => TemplateParameter.allReferences parameters
  | .specialization special =>
      special.template :: TemplateArgument.allReferences special.arguments

def EntityKind.references : EntityKind → List Reference
  | .namespaceAlias target | .usingDirective target | .usingDeclaration target => [target]
  | .typeAlias aliased => aliased.references
  | .enumeration _ underlying _ => (underlying.map CppType.references).getD []
  | .classType _ _ bases _ => bases.flatMap (·.type.references)
  | .variableDecl type .. | .fieldDecl type .. => type.references
  | .functionDecl function =>
      (function.result.map CppType.references).getD [] ++
        function.parameters.flatMap (·.type.references)
  | _ => []

def Entity.references (entity : Entity) : List Reference :=
  (entity.template.map TemplateHead.references).getD [] ++ entity.kind.references

end HeaderSynopsis.Declaration

namespace HeaderSynopsis.Manifest

open Declaration

inductive IdOption where
  | omitted
  | declarations
deriving DecidableEq, Repr

def IdOption.word : IdOption → String
  | .omitted => "exclude"
  | .declarations => "declarations"

inductive Warning where
  -- A reference none of whose targets is declared, about one of them.
  | unresolvedReference (source target : Id)
  -- An option about an entity that is not declared.
  | unknownId (option : IdOption) (id : Id)
deriving DecidableEq, Repr

def Warning.text : Warning → String
  | .unresolvedReference source target =>
      "'" ++ source.text ++ "' references unknown entity '" ++ target.text ++ "'"
  | .unknownId option id =>
      "render." ++ option.word ++ " names unknown entity '" ++ id.text ++ "'"

def unresolvedReferences (declared : List Id) (file : Entity) : List Warning :=
  file.walk.flatMap fun entity =>
    entity.references.flatMap fun reference =>
      if reference.targets.any (· ∈ declared) then []
      else reference.targets.map (.unresolvedReference entity.id)

def unknownIds (declared : List Id) (options : Options) : List Warning :=
  (options.omitted.filter (· ∉ declared)).map (.unknownId .omitted) ++
    (options.declarations.filter (· ∉ declared)).map (.unknownId .declarations)

end HeaderSynopsis.Manifest
