import HeaderSynopsis.Data.Datum
import HeaderSynopsis.Text.Reader

/-!
Reading JSON text as structured data. Every loop goes on only with a shorter rest of the text, and
values nest at most `nestingLimit` deep, so reading ends.
-/

namespace HeaderSynopsis.Json

open Data Decimal Text

def isBlank (c : Char) : Bool := c = ' ' || c = '\t' || c = '\n' || c = '\r'

def skipBlanks (cs : List Char) : List Char := cs.dropWhile isBlank

/-- An escaped 16-bit unit, or two that form one character. A half without its partner is
refused. -/
def escapedUnits (cs : List Char) : Option (Char × List Char) := do
  let (unit, rest) ← hexNumber 0 4 cs
  if unit < 0xD800 || 0xDFFF < unit then return (Char.ofNat unit, rest)
  else if 0xDBFF < unit then none
  else
    match rest with
    | '\\' :: 'u' :: rest => do
        let (second, rest) ← hexNumber 0 4 rest
        if 0xDC00 ≤ second && second ≤ 0xDFFF then
          return (Char.ofNat (0x10000 + (unit - 0xD800) * 0x400 + (second - 0xDC00)), rest)
        else none
    | _ => none

def character : Reader Char
  | '\\' :: c :: rest =>
      match c with
      | '"' | '\\' | '/' => some (c, rest)
      | 'b' => some ('\x08', rest)
      | 'f' => some ('\x0c', rest)
      | 'n' => some ('\n', rest)
      | 'r' => some ('\r', rest)
      | 't' => some ('\t', rest)
      | 'u' => escapedUnits rest
      | _ => none
  | c :: rest => if c.toNat < 32 || c = '"' || c = '\\' then none else some (c, rest)
  | [] => none

/-- The rest of a string after its opening quote; `before` holds what was read, last first. -/
def stringRest (before : List Char) (cs : List Char) : Option (String × List Char) :=
  match cs with
  | '"' :: rest => some (String.ofList before.reverse, rest)
  | cs =>
      match character cs with
      | none => none
      | some (c, rest) =>
          if _ : rest.length < cs.length then stringRest (c :: before) rest else none
termination_by cs.length

def digitRun (cs : List Char) : List Nat × List Char :=
  ((cs.takeWhile Char.isDigit).map fun c => c.toNat - '0'.toNat, cs.dropWhile Char.isDigit)

def digitsValue (digits : List Nat) : Nat := digits.foldl (fun n digit => n * 10 + digit) 0

def fractionPart (cs : List Char) : Option (Option (List Nat) × List Char) :=
  match cs with
  | '.' :: rest =>
      match digitRun rest with
      | ([], _) => none
      | (digits, rest) => some (some digits, rest)
  | cs => some (none, cs)

def exponentPart (cs : List Char) : Option (Option Int × List Char) :=
  match cs with
  | c :: rest =>
      if c = 'e' || c = 'E' then
        let (negative, rest) :=
          match rest with
          | '+' :: rest => (false, rest)
          | '-' :: rest => (true, rest)
          | _ => (false, rest)
        match digitRun rest with
        | ([], _) => none
        | (digits, rest) =>
            let size : Int := digitsValue digits
            some (some (if negative then -size else size), rest)
      else some (none, cs)
  | [] => some (none, cs)

/-- The integer that a whole number stands for if it fits into 64 bits. Zero below zero is none. -/
def word? (negative : Bool) (n : Nat) : Option Int :=
  if negative then if 0 < n && n ≤ twoTo 63 then some (-(n : Int)) else none
  else if n < twoTo 64 then some n else none

/-- How numbers become floating point numbers: by their sign, their digits before and behind the
point, and their exponent. Some may be refused. -/
abbrev Approximation := Bool → List Nat → List Nat → Int → Option Binary64

def nearest : Approximation := fun negative whole fraction exponent =>
  let x := Binary64.ofDecimal negative (digitsValue (whole ++ fraction))
    (exponent - fraction.length)
  if x.isInfinite then none else some x

section

variable (approximate : Approximation)

/-- The value of a number from its parts: an integer if it is whole and fits, and else a floating
point number. -/
def numberOfParts (negative : Bool) (whole : List Nat) (fraction : Option (List Nat))
    (exponent : Option Int) : Option Datum :=
  match fraction, exponent, word? negative (digitsValue whole) with
  | none, none, some n => some (.int n)
  | _, _, _ =>
      (approximate negative whole (fraction.getD []) (exponent.getD 0)).map .float

/-- The number that follows a sign. Only zero itself begins with a zero. -/
def numberAfterSign (negative : Bool) (cs : List Char) : Option (Datum × List Char) :=
  match digitRun cs with
  | ([], _) => none
  | (0 :: _ :: _, _) => none
  | (whole, rest) => do
      let (fraction, rest) ← fractionPart rest
      let (exponent, rest) ← exponentPart rest
      return (← numberOfParts approximate negative whole fraction exponent, rest)

end

def listItems (value : Reader Datum) (before : List Datum) (cs : List Char) :
    Option (List Datum × List Char) :=
  match value (skipBlanks cs) with
  | none => none
  | some (item, rest) =>
      match skipBlanks rest with
      | ']' :: after => some ((item :: before).reverse, after)
      | ',' :: after =>
          if _ : after.length < cs.length then listItems value (item :: before) after else none
      | _ => none
termination_by cs.length

def namedValue (value : Reader Datum) (cs : List Char) : Option ((String × Datum) × List Char) :=
  match skipBlanks cs with
  | '"' :: rest => do
      let (name, rest) ← stringRest [] rest
      match skipBlanks rest with
      | ':' :: rest => do
          let (item, rest) ← value (skipBlanks rest)
          return ((name, item), rest)
      | _ => none
  | _ => none

/-- The fields of a table after its brace. Of a repeated name the last value counts. -/
def tableFields (value : Reader Datum) (before : Fields) (cs : List Char) :
    Option (Fields × List Char) :=
  match namedValue value cs with
  | none => none
  | some ((name, item), rest) =>
      match skipBlanks rest with
      | '}' :: after => some (before.set name item, after)
      | ',' :: after =>
          if _ : after.length < cs.length then tableFields value (before.set name item) after
          else none
      | _ => none
termination_by cs.length

def nestingLimit : Nat := 127

def value (approximate : Approximation) : Nat → Reader Datum
  | 0, cs => scalar cs
  | depth + 1, cs =>
      match cs with
      | '[' :: rest =>
          match skipBlanks rest with
          | ']' :: after => some (.list [], after)
          | _ => (listItems (value approximate depth) [] rest).map fun (items, after) =>
              (.list items, after)
      | '{' :: rest =>
          match skipBlanks rest with
          | '}' :: after => some (.table [], after)
          | _ => (tableFields (value approximate depth) [] rest).map fun (fields, after) =>
              (.table fields, after)
      | _ => scalar cs
where
  -- A value that holds no others.
  scalar (cs : List Char) : Option (Datum × List Char) :=
    match cs with
    | '"' :: rest => (stringRest [] rest).map fun (text, after) => (.text text, after)
    | '-' :: rest => numberAfterSign approximate true rest
    | 'n' :: 'u' :: 'l' :: 'l' :: rest => some (.null, rest)
    | 't' :: 'r' :: 'u' :: 'e' :: rest => some (.bool true, rest)
    | 'f' :: 'a' :: 'l' :: 's' :: 'e' :: rest => some (.bool false, rest)
    | _ => numberAfterSign approximate false cs

def read (text : String) : Option Datum := do
  let (datum, rest) ← value nearest nestingLimit (skipBlanks text.toList)
  if (skipBlanks rest).isEmpty then return datum else none

end HeaderSynopsis.Json
