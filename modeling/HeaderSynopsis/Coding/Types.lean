import HeaderSynopsis.Coding.Expression

namespace HeaderSynopsis.Declaration

open Data

mutual

/-- A type. The reading as a reference comes before the one as a node. -/
def CppType.decode : Datum → Option CppType
  | .text spelling => some (.verbatim spelling)
  | .table [(word, value)] =>
      match Reference.ofFields [(word, value)] with
      | some reference => some (.named reference)
      | none =>
          match word with
          | "builtin" => value.text?.map .builtin
          | "const" => (CppType.decode value).map .const
          | "volatile" => (CppType.decode value).map .volatile
          | "pointer" => (CppType.decode value).map .pointer
          | "lvalue_ref" => (CppType.decode value).map .lvalueRef
          | "rvalue_ref" => (CppType.decode value).map .rvalueRef
          | "array" => CppType.decodeArray value
          | "instantiation" => CppType.decodeInstantiation value
          | _ => none
  | datum => (Reference.decode datum).map .named

def CppType.decodeArray : Datum → Option CppType
  | .table fields => do
      let element ← CppType.decodeField "of" fields
      let size ← Fields.optional fields "size" Expression.decode
      return .array element size
  | .list [element] => (CppType.decode element).map (.array · none)
  | .list [element, size] => do
      let element ← CppType.decode element
      let size ← Fields.optional [("size", size)] "size" Expression.decode
      return .array element size
  | _ => none

def CppType.decodeInstantiation : Datum → Option CppType
  | .table fields => do
      let template ← Fields.required fields "template" Reference.decode
      let arguments ← TemplateArgument.decodeField "args" fields
      return .instantiation template arguments
  | .list [template] => (Reference.decode template).map (.instantiation · [])
  | .list [template, .list arguments] => do
      let template ← Reference.decode template
      let arguments ← TemplateArgument.decodeAll arguments
      return .instantiation template arguments
  | _ => none

def CppType.decodeField (name : String) : List (String × Datum) → Option CppType
  | [] => none
  | (word, value) :: rest =>
      if word = name then CppType.decode value else CppType.decodeField name rest

def TemplateArgument.decodeField (name : String) :
    List (String × Datum) → Option (List TemplateArgument)
  | [] => some []
  | (word, .list arguments) :: rest =>
      if word = name then TemplateArgument.decodeAll arguments
      else TemplateArgument.decodeField name rest
  | (word, _) :: rest => if word = name then none else TemplateArgument.decodeField name rest

def TemplateArgument.decodeAll : List Datum → Option (List TemplateArgument)
  | [] => some []
  | item :: rest => do
      let argument ← TemplateArgument.decode item
      let arguments ← TemplateArgument.decodeAll rest
      return argument :: arguments

/-- A template argument: a table with one field that says what kind it is. -/
def TemplateArgument.decode : Datum → Option TemplateArgument
  | .table [(word, value)] =>
      match word with
      | "type" => if value.fitsWords then (CppType.decode value).map .type else none
      | "expr" => (Expression.decode value).map .value
      | "template" => (Reference.decode value).map .template
      | _ => none
  | _ => none

end

/-- A type as a part of a record. Fields of no meaning are let through as long as the integers in
them fit into 64 bits. -/
def CppType.read (datum : Datum) : Option CppType :=
  if datum.fitsWords then CppType.decode datum else none

def optionalField {α : Type} (name : String) (encode : α → Datum) : Option α → Fields
  | none => []
  | some value => [(name, encode value)]

mutual

def CppType.encode : CppType → Datum
  | .builtin spelling => .table [("builtin", .text spelling)]
  | .named target => target.encode
  | .verbatim spelling => .text spelling
  | .const inner => .table [("const", inner.encode)]
  | .volatile inner => .table [("volatile", inner.encode)]
  | .pointer inner => .table [("pointer", inner.encode)]
  | .lvalueRef inner => .table [("lvalue_ref", inner.encode)]
  | .rvalueRef inner => .table [("rvalue_ref", inner.encode)]
  | .array element size =>
      .table [("array", .table (("of", element.encode) ::
        optionalField "size" Expression.encode size))]
  | .instantiation template arguments =>
      .table [("instantiation",
        .table [("template", template.encode),
          ("args", .list (TemplateArgument.encodeAll arguments))])]

def TemplateArgument.encodeAll : List TemplateArgument → List Datum
  | [] => []
  | argument :: rest => argument.encode :: TemplateArgument.encodeAll rest

def TemplateArgument.encode : TemplateArgument → Datum
  | .type type => .table [("type", type.encode)]
  | .value value => .table [("expr", value.encode)]
  | .template template => .table [("template", template.encode)]

end

def TypeKeyword.words : List (String × TypeKeyword) :=
  [("typename", .typename), ("class", .classKey)]

def TypeKeyword.decode (blank : Blank) (datum : Datum) : Option TypeKeyword :=
  datum.word? words blank

inductive ParameterKind where
  | type
  | value
  | template
deriving DecidableEq, Repr

def ParameterKind.words : List (String × ParameterKind) :=
  [("type", .type), ("non_type", .value), ("template", .template)]

def ParameterKind.fieldNames : ParameterKind → List String
  | .type => ["name", "keyword", "variadic", "default"]
  | .value => ["name", "type", "variadic", "default"]
  | .template => ["name", "params", "variadic", "default"]

def TemplateParameter.ofFields (kind : ParameterKind) (inner : Option (List TemplateParameter))
    (fields : Fields) : Option TemplateParameter := do
  let name ← fields.required "name" Datum.text?
  let variadic ← fields.defaulted "variadic" false Datum.bool?
  match kind with
  | .type => do
      let keyword ← fields.defaulted "keyword" .typename (TypeKeyword.decode .nullOrEmptyTable)
      let default ← fields.optional "default" CppType.decode
      return .type name keyword variadic default
  | .value => do
      let type ← fields.required "type" CppType.decode
      let default ← fields.optional "default" Expression.decode
      return .value name type variadic default
  | .template => do
      let parameters ← inner
      let default ← fields.optional "default" Reference.decode
      return .template name parameters variadic default

mutual

/-- A template parameter; `nested` is the form of tags below it. -/
def TemplateParameter.decode (form nested : TagForm) : Datum → Option TemplateParameter
  | .table fields => do
      let kind ← Fields.required fields "kind" (Datum.tag? ParameterKind.words form)
      TemplateParameter.ofFields kind (TemplateParameter.decodeField nested fields) fields
  | .list (tag :: items) => do
      let kind ← Datum.tag? ParameterKind.words form tag
      let fields ← (Datum.list items).record? kind.fieldNames
      TemplateParameter.ofFields kind (TemplateParameter.decodeSecond nested items) fields
  | _ => none

def TemplateParameter.decodeField (nested : TagForm) :
    List (String × Datum) → Option (List TemplateParameter)
  | [] => some []
  | (word, .list items) :: rest =>
      if word = "params" then TemplateParameter.decodeAll nested items
      else TemplateParameter.decodeField nested rest
  | (word, _) :: rest =>
      if word = "params" then none else TemplateParameter.decodeField nested rest

def TemplateParameter.decodeSecond (nested : TagForm) :
    List Datum → Option (List TemplateParameter)
  | _ :: .list items :: _ => TemplateParameter.decodeAll nested items
  | _ :: _ :: _ => none
  | _ => some []

def TemplateParameter.decodeAll (nested : TagForm) :
    List Datum → Option (List TemplateParameter)
  | [] => some []
  | item :: rest => do
      let parameter ← TemplateParameter.decode nested nested item
      let parameters ← TemplateParameter.decodeAll nested rest
      return parameter :: parameters

end

/-- A template parameter as a part of a record. All integers in it have to fit into 64 bits. -/
def TemplateParameter.read (form nested : TagForm) (datum : Datum) : Option TemplateParameter :=
  if datum.fitsWords then TemplateParameter.decode form nested datum else none

mutual

def TemplateParameter.encode : TemplateParameter → Datum
  | .type name keyword variadic default =>
      .table ([("kind", .text "type"), ("name", .text name), ("keyword", .text keyword.word),
        ("variadic", .bool variadic)] ++ optionalField "default" CppType.encode default)
  | .value name holds variadic default =>
      .table ([("kind", .text "non_type"), ("name", .text name), ("type", holds.encode),
        ("variadic", .bool variadic)] ++ optionalField "default" Expression.encode default)
  | .template name parameters variadic default =>
      .table ([("kind", .text "template"), ("name", .text name),
        ("params", .list (TemplateParameter.encodeAll parameters)),
        ("variadic", .bool variadic)] ++ optionalField "default" Reference.encode default)

def TemplateParameter.encodeAll : List TemplateParameter → List Datum
  | [] => []
  | parameter :: rest => parameter.encode :: TemplateParameter.encodeAll rest

end

def Specialization.ofFields (fields : Fields) : Option Specialization := do
  let template ← fields.required "template" Reference.decode
  let arguments ← TemplateArgument.decodeField "args" fields
  return ⟨template, arguments⟩

def Specialization.decode (datum : Datum) : Option Specialization :=
  (datum.record? ["template", "args"]).bind ofFields

def Specialization.encode (specialization : Specialization) : Datum :=
  .table [("template", specialization.template.encode),
    ("args", .list (TemplateArgument.encodeAll specialization.arguments))]

def TemplateHead.decodeParameters (nested : TagForm) :
    Datum → Option (List TemplateParameter)
  | .list items => items.mapM (TemplateParameter.read .word nested)
  | _ => none

def TemplateHead.decode (nested : TagForm) : Datum → Option TemplateHead
  | .table [("primary", value)] => (decodeParameters nested value).map .primary
  | .table [("specialization", value)] => (Specialization.decode value).map .specialization
  | _ => none

def TemplateHead.encode : TemplateHead → Datum
  | .primary parameters => .table [("primary", .list (TemplateParameter.encodeAll parameters))]
  | .specialization special => .table [("specialization", special.encode)]

end HeaderSynopsis.Declaration
