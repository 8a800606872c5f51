import HeaderSynopsis.Data.Datum
import HeaderSynopsis.Decimal.Shortest
import HeaderSynopsis.Declaration.Types

namespace HeaderSynopsis.Declaration

open Data Decimal

def Id.decode (datum : Datum) : Option Id := datum.text?.map Id.mk

def Reference.decodeTargets (datum : Datum) : Option (List Id) :=
  match datum with
  | .text text => some [⟨text⟩]
  | datum => datum.list? Id.decode

/-- A reference from its fields. Without a name it is shown as its first target. -/
def Reference.ofFields (fields : Fields) : Option Reference := do
  let targets ← fields.required "ref" decodeTargets
  let name ← fields.optional "name" Datum.text?
  match name with
  | some name => return ⟨targets, name⟩
  | none => return toTargets targets

def Reference.decode (datum : Datum) : Option Reference :=
  (datum.record? ["ref", "name"]).bind ofFields

def Reference.encode (reference : Reference) : Datum :=
  let target :=
    match reference.targets with
    | [target] => .text target.text
    | targets => .list (targets.map fun target => .text target.text)
  .table [("ref", target), ("name", .text reference.name)]

def LiteralKind.words : List (String × LiteralKind) :=
  [("int", .int), ("float", .float), ("string", .string), ("char", .char), ("bool", .bool)]

def LiteralKind.word : LiteralKind → String
  | .int => "int"
  | .float => "float"
  | .string => "string"
  | .char => "char"
  | .bool => "bool"

def Expression.floatStyle : NumberStyle :=
  { least := -4, limit := 16, exponentMark := "e", wholeSuffix := ".0"
    infinity := "inf", nan := "NaN" }

/-- A number as a literal. Integers beyond the signed 64-bit range become floating point literals as
long as they fit the unsigned one, and others are refused. -/
def Expression.ofInt? (n : Int) : Option Expression :=
  if -(twoTo 63 : Int) ≤ n ∧ n < twoTo 63 then some (.int n)
  else if 0 ≤ n ∧ n < twoTo 64 then
    some (.literal .float ((Binary64.ofNat n.toNat).render floatStyle))
  else none

/-- An expression: a bare value, the spelling of one that is not taken apart, or a literal of a
named kind. -/
def Expression.decode : Datum → Option Expression
  | .bool value => some (.literal .bool (toString value))
  | .int n => ofInt? n
  | .float x => some (.literal .float (x.render floatStyle))
  | .text spelling => some (.verbatim spelling)
  | .table [("int", .text text)] => some (.literal .int text)
  | .table [("float", .text text)] => some (.literal .float text)
  | .table [("string", .text text)] => some (.literal .string text)
  | .table [("char", .text text)] => some (.literal .char text)
  | _ => none

def Expression.encode : Expression → Datum
  | .verbatim spelling => .text spelling
  | .literal .bool text => .bool (text = "true")
  | .literal kind text => .table [(kind.word, .text text)]

end HeaderSynopsis.Declaration
