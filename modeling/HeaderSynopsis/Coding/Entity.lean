import HeaderSynopsis.Coding.Types
import HeaderSynopsis.Declaration.Entity

namespace HeaderSynopsis.Declaration

open Data

def Parameter.fieldNames : List String := ["name", "type", "default", "pack"]

def Parameter.ofFields (fields : Fields) : Option Parameter := do
  let name ← fields.optional "name" Datum.text?
  let type ← fields.required "type" CppType.read
  let default ← fields.optional "default" Expression.decode
  let pack ← fields.defaulted "pack" false Datum.bool?
  return { name, type, default, pack }

def Parameter.decode (datum : Datum) : Option Parameter :=
  (datum.record? fieldNames).bind ofFields

def Parameter.encode (parameter : Parameter) : Datum :=
  .table (optionalField "name" .text parameter.name ++ [("type", parameter.type.encode)] ++
    optionalField "default" Expression.encode parameter.default ++
    if parameter.pack then [("pack", .bool true)] else [])

def Body.words : List (String × Body) :=
  [("declaration", .declaration), ("default", .defaulted), ("delete", .deleted), ("pure", .pure)]

/-- A body: one of the words, or the list of its statements. -/
def Body.decode : Datum → Option Body
  | .list items => (items.mapM Datum.text?).map .statements
  | datum => datum.word? words .null

def Body.encode : Body → Datum
  | .declaration => .text "declaration"
  | .defaulted => .text "default"
  | .deleted => .text "delete"
  | .pure => .text "pure"
  | .statements lines => .list (lines.map .text)

def FunctionDecl.fieldNames : List String :=
  ["params", "returns", "body", "variadic", "static", "constexpr", "virtual", "explicit", "const",
    "noexcept", "override", "final"]

def FunctionDecl.ofFields (fields : Fields) : Option FunctionDecl := do
  let flag := fun name => fields.defaulted name false Datum.bool?
  let parameters ← fields.defaulted "params" [] (Datum.list? Parameter.decode)
  let result ← fields.optional "returns" CppType.read
  let body ← fields.defaulted "body" .declaration Body.decode
  let variadic ← flag "variadic"
  let isStatic ← flag "static"
  let isConstexpr ← flag "constexpr"
  let isVirtual ← flag "virtual"
  let isExplicit ← flag "explicit"
  let isConst ← flag "const"
  let isNoexcept ← flag "noexcept"
  let isOverride ← flag "override"
  let isFinal ← flag "final"
  return { parameters, result, body, variadic, isStatic, isConstexpr, isVirtual, isExplicit,
           isConst, isNoexcept, isOverride, isFinal }

def FunctionDecl.decode (datum : Datum) : Option FunctionDecl :=
  (datum.record? fieldNames).bind ofFields

def FunctionDecl.toFields (function : FunctionDecl) : Fields :=
  [("params", .list (function.parameters.map Parameter.encode))] ++
    optionalField "returns" CppType.encode function.result ++
    [("body", function.body.encode), ("variadic", .bool function.variadic),
      ("static", .bool function.isStatic), ("constexpr", .bool function.isConstexpr),
      ("virtual", .bool function.isVirtual), ("explicit", .bool function.isExplicit),
      ("const", .bool function.isConst), ("noexcept", .bool function.isNoexcept),
      ("override", .bool function.isOverride), ("final", .bool function.isFinal)]

def ClassKey.words : List (String × ClassKey) :=
  [("class", .classKey), ("struct", .structKey), ("union", .unionKey)]

def ClassKey.decode (blank : Blank) (datum : Datum) : Option ClassKey := datum.word? words blank

def Access.words : List (String × Access) :=
  [("public", .publicAccess), ("protected", .protectedAccess), ("private", .privateAccess)]

def Access.decode (blank : Blank) (datum : Datum) : Option Access := datum.word? words blank

def Storage.words : List (String × Storage) :=
  [("none", .automatic), ("static", .static), ("extern", .external),
    ("thread_local", .threadLocal)]

def Storage.decode (blank : Blank) (datum : Datum) : Option Storage := datum.word? words blank

def Storage.encode (storage : Storage) : Datum := .text (storage.word?.getD "none")

def BaseClass.fieldNames : List String := ["type", "access", "virtual"]

def BaseClass.ofFields (blank : Blank) (fields : Fields) : Option BaseClass := do
  let type ← fields.required "type" CppType.read
  let access ← fields.optional "access" (Access.decode blank)
  let isVirtual ← fields.defaulted "virtual" false Datum.bool?
  return { type, access, isVirtual }

def BaseClass.decode (blank : Blank) (datum : Datum) : Option BaseClass :=
  (datum.record? fieldNames).bind (ofFields blank)

def BaseClass.encode (base : BaseClass) : Datum :=
  .table ([("type", base.type.encode)] ++
    optionalField "access" (fun access => .text access.word) base.access ++
    [("virtual", .bool base.isVirtual)])

namespace EntityKind

def fieldNames (word : String) : List String :=
  match word with
  | "include" => ["target", "system"]
  | "macro" => ["parameters", "replacement"]
  | "namespace" => ["inline"]
  | "namespace_alias" | "using_directive" | "using_declaration" => ["target"]
  | "alias" => ["type"]
  | "enum" => ["scoped", "underlying", "forward"]
  | "enumerator" => ["value"]
  | "class" => ["keyword", "final", "bases", "forward"]
  | "access" => ["access"]
  | "variable" => ["type", "default", "storage", "constexpr"]
  | "field" => ["type", "default", "mutable", "bits"]
  | "function" => FunctionDecl.fieldNames
  | _ => []

def ofFields (word : String) (fields : Fields) : Option EntityKind :=
  let flag := fun name => fields.defaulted name false Datum.bool?
  match word with
  | "file" => some .file
  | "include" => do
      let target ← fields.required "target" Datum.text?
      let system ← flag "system"
      return .inclusion target system
  | "macro" => do
      let parameters ← fields.optional "parameters" (Datum.list? Datum.text?)
      let replacement ← fields.defaulted "replacement" "" Datum.text?
      return .macroDefinition parameters replacement
  | "namespace" => do
      let isInline ← flag "inline"
      return .namespaceScope isInline
  | "namespace_alias" => (fields.required "target" Reference.decode).map .namespaceAlias
  | "using_directive" => (fields.required "target" Reference.decode).map .usingDirective
  | "using_declaration" => (fields.required "target" Reference.decode).map .usingDeclaration
  | "alias" => (fields.required "type" CppType.read).map .typeAlias
  | "enum" => do
      let isScoped ← flag "scoped"
      let underlying ← fields.optional "underlying" CppType.read
      let forward ← flag "forward"
      return .enumeration isScoped underlying forward
  | "enumerator" => (fields.optional "value" Expression.decode).map .enumerator
  | "class" => do
      let keyword ← fields.defaulted "keyword" .classKey (ClassKey.decode .nullOrEmptyTable)
      let isFinal ← flag "final"
      let bases ← fields.defaulted "bases" [] (Datum.list? (BaseClass.decode .nullOrEmptyTable))
      let forward ← flag "forward"
      return .classType keyword isFinal bases forward
  | "access" => (fields.required "access" (Access.decode .nullOrEmptyTable)).map .accessLabel
  | "variable" => do
      let type ← fields.required "type" CppType.read
      let default ← fields.optional "default" Expression.decode
      let storage ← fields.defaulted "storage" .automatic (Storage.decode .nullOrEmptyTable)
      let isConstexpr ← flag "constexpr"
      return .variableDecl type default storage isConstexpr
  | "field" => do
      let type ← fields.required "type" CppType.read
      let default ← fields.optional "default" Expression.decode
      let isMutable ← flag "mutable"
      let bits ← fields.optional "bits" Datum.word32?
      return .fieldDecl type default isMutable bits
  | "function" => (FunctionDecl.ofFields fields).map .functionDecl
  | _ => none

def tagWords : List (String × String) := words.map fun word => (word, word)

def ofTable (form : TagForm) (fields : Fields) : Option EntityKind := do
  let word ← fields.required "kind" (Datum.tag? tagWords form)
  ofFields word fields

def decode : Datum → Option EntityKind
  | .table fields => ofTable .word fields
  | .list (tag :: items) => do
      let word ← Datum.tag? tagWords .word tag
      let fields ← (Datum.list items).record? (fieldNames word)
      ofFields word fields
  | _ => none

/-- A kind on its own. All integers in it have to fit into 64 bits. -/
def read (datum : Datum) : Option EntityKind := if datum.fitsWords then decode datum else none

def ownFields : EntityKind → Fields
  | file => []
  | inclusion target system => [("target", .text target), ("system", .bool system)]
  | macroDefinition parameters replacement =>
      optionalField "parameters" (fun names => .list (names.map .text)) parameters ++
        [("replacement", .text replacement)]
  | namespaceScope isInline => [("inline", .bool isInline)]
  | namespaceAlias target | usingDirective target | usingDeclaration target =>
      [("target", target.encode)]
  | typeAlias aliased => [("type", aliased.encode)]
  | enumeration isScoped underlying forward =>
      [("scoped", .bool isScoped)] ++ optionalField "underlying" CppType.encode underlying ++
        [("forward", .bool forward)]
  | enumerator value => optionalField "value" Expression.encode value
  | classType keyword isFinal bases forward =>
      [("keyword", .text keyword.word), ("final", .bool isFinal),
        ("bases", .list (bases.map BaseClass.encode)), ("forward", .bool forward)]
  | accessLabel access => [("access", .text access.word)]
  | variableDecl type default storage isConstexpr =>
      [("type", type.encode)] ++ optionalField "default" Expression.encode default ++
        [("storage", storage.encode), ("constexpr", .bool isConstexpr)]
  | fieldDecl type default isMutable bits =>
      [("type", type.encode)] ++ optionalField "default" Expression.encode default ++
        [("mutable", .bool isMutable)] ++ optionalField "bits" (fun n : UInt32 => .int n.toNat) bits
  | functionDecl function => function.toFields

def toFields (kind : EntityKind) : Fields := ("kind", .text kind.word) :: kind.ownFields

def encode (kind : EntityKind) : Datum := .table kind.toFields

end EntityKind

def otherFieldsFit (names : List String) (fields : Fields) : Bool :=
  fields.all fun field => field.1 ∈ names || field.2.fitsWords

def Entity.fieldNames : List String := ["id", "name", "template", "comment", "children"]

mutual

/-- A tree of entities; `form` is the form of tags inside it. -/
def Entity.decode (form : TagForm) : Datum → Option Entity
  | .table fields => do
      let id ← Fields.required fields "id" Id.decode
      let name ← Fields.required fields "name" Datum.text?
      let kind ← EntityKind.ofTable form fields
      let template ← Fields.optional fields "template" (TemplateHead.decode form)
      let comment ← Fields.optional fields "comment" Datum.text?
      let children ← Entity.decodeField form fields
      if otherFieldsFit Entity.fieldNames fields then
        return ⟨id, name, kind, template, comment, children⟩
      else none
  | _ => none

def Entity.decodeField (form : TagForm) : List (String × Datum) → Option (List Entity)
  | [] => some []
  | (word, .list items) :: rest =>
      if word = "children" then Entity.decodeAll form items else Entity.decodeField form rest
  | (word, _) :: rest =>
      if word = "children" then none else Entity.decodeField form rest

def Entity.decodeAll (form : TagForm) : List Datum → Option (List Entity)
  | [] => some []
  | item :: rest => do
      let entity ← Entity.decode form item
      let entities ← Entity.decodeAll form rest
      return entity :: entities

end

mutual

/-- The tree as data. Children are left out when there are none. -/
def Entity.encode : Entity → Datum
  | ⟨id, name, kind, template, comment, children⟩ =>
      .table ([("id", .text id.text), ("name", .text name)] ++ kind.toFields ++
        optionalField "template" TemplateHead.encode template ++
        optionalField "comment" .text comment ++
        match children with
        | [] => []
        | child :: rest => [("children", .list (Entity.encodeAll (child :: rest)))])

def Entity.encodeAll : List Entity → List Datum
  | [] => []
  | entity :: rest => entity.encode :: Entity.encodeAll rest

end

end HeaderSynopsis.Declaration
