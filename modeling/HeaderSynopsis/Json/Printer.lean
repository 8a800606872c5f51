import HeaderSynopsis.Data.Datum
import HeaderSynopsis.Decimal.Shortest

namespace HeaderSynopsis.Json

open Data Decimal

def hexDigit (n : Nat) : Char := Nat.digitChar (n % 16)

def unitEscape (n : Nat) : List Char :=
  ['\\', 'u', hexDigit (n / 4096), hexDigit (n / 256), hexDigit (n / 16), hexDigit n]

/-- A character inside a string. Quotes, backslashes and control characters are escaped. -/
def escapeChar (c : Char) : List Char :=
  if c = '"' then ['\\', '"']
  else if c = '\\' then ['\\', '\\']
  else if c = '\n' then ['\\', 'n']
  else if c = '\r' then ['\\', 'r']
  else if c = '\t' then ['\\', 't']
  else if c = '\x08' then ['\\', 'b']
  else if c = '\x0c' then ['\\', 'f']
  else if c.toNat < 32 then unitEscape c.toNat
  else [c]

def quote (text : String) : String :=
  String.ofList ('"' :: text.toList.flatMap escapeChar ++ ['"'])

/-- Numbers keep their shortest digits; the ones JSON cannot write are null. -/
def numberStyle : NumberStyle :=
  { least := -5, limit := 16, exponentMark := "e", wholeSuffix := ".0"
    infinity := "null", nan := "null" }

def number : Binary64 → String
  | .finite negative mantissa exponent =>
      (Binary64.finite negative mantissa exponent).render numberStyle
  | _ => "null"

mutual

def compact : Datum → String
  | .null => "null"
  | .bool value => toString value
  | .int value => toString value
  | .float value => number value
  | .text value => quote value
  | .moment spelling => quote spelling
  | .list items => "[" ++ compactItems items ++ "]"
  | .table fields => "\x7b" ++ compactFields fields ++ "\x7d"

def compactItems : List Datum → String
  | [] => ""
  | [item] => compact item
  | item :: rest => compact item ++ "," ++ compactItems rest

def compactFields : List (String × Datum) → String
  | [] => ""
  | [(name, value)] => quote name ++ ":" ++ compact value
  | (name, value) :: rest => quote name ++ ":" ++ compact value ++ "," ++ compactFields rest

end

def lineBreak (level : Nat) : String :=
  String.ofList ('\n' :: List.replicate (2 * level) ' ')

mutual

def pretty (level : Nat) : Datum → String
  | .list (item :: rest) =>
      "[" ++ prettyItems (level + 1) (item :: rest) ++ lineBreak level ++ "]"
  | .table (field :: rest) =>
      "\x7b" ++ prettyFields (level + 1) (field :: rest) ++ lineBreak level ++ "\x7d"
  | .list [] => "[]"
  | .table [] => "\x7b\x7d"
  | .null => "null"
  | .bool value => toString value
  | .int value => toString value
  | .float value => number value
  | .text value => quote value
  | .moment spelling => quote spelling

def prettyItems (level : Nat) : List Datum → String
  | [] => ""
  | [item] => lineBreak level ++ pretty level item
  | item :: rest => lineBreak level ++ pretty level item ++ "," ++ prettyItems level rest

def prettyFields (level : Nat) : List (String × Datum) → String
  | [] => ""
  | [(name, value)] => lineBreak level ++ quote name ++ ": " ++ pretty level value
  | (name, value) :: rest =>
      lineBreak level ++ quote name ++ ": " ++ pretty level value ++ "," ++ prettyFields level rest

end

end HeaderSynopsis.Json
