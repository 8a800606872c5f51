import HeaderSynopsis.Data.Datum

namespace HeaderSynopsis.Toml

open Data Decimal

def spacedDigits (isDigit : Char → Bool) : List Char → Option (List Char)
  | [] => none
  | [c] => if isDigit c then some [c] else none
  | c :: '_' :: rest =>
      if isDigit c then (spacedDigits isDigit rest).map (c :: ·) else none
  | c :: rest => if isDigit c then (spacedDigits isDigit rest).map (c :: ·) else none

def digitsValue (base : Nat) (digits : List Char) : Nat :=
  digits.foldl
    (fun n c =>
      n * base + (if c.isDigit then c.toNat - '0'.toNat else c.toLower.toNat - 'a'.toNat + 10)) 0

/-- Decimal digits; only zero itself begins with a zero. -/
def wholeDigits (cs : List Char) : Option (List Char) := do
  let digits ← spacedDigits Char.isDigit cs
  match digits with
  | '0' :: _ :: _ => none
  | _ => return digits

def isHexDigit (c : Char) : Bool :=
  c.isDigit || ('a' ≤ c && c ≤ 'f') || ('A' ≤ c && c ≤ 'F')

def signed : List Char → Bool × List Char
  | '+' :: rest => (false, rest)
  | '-' :: rest => (true, rest)
  | cs => (false, cs)

/-- An integer in any of its bases. Only a decimal one has a sign. -/
def integer? : List Char → Option Int
  | '0' :: 'x' :: rest => (spacedDigits isHexDigit rest).map fun ds => (digitsValue 16 ds : Int)
  | '0' :: 'o' :: rest =>
      (spacedDigits (fun c => '0' ≤ c && c ≤ '7') rest).map fun ds => (digitsValue 8 ds : Int)
  | '0' :: 'b' :: rest =>
      (spacedDigits (fun c => c = '0' || c = '1') rest).map fun ds => (digitsValue 2 ds : Int)
  | cs =>
      let (negative, cs) := signed cs
      (wholeDigits cs).map fun ds =>
        if negative then -(digitsValue 10 ds : Int) else (digitsValue 10 ds : Int)

def exponent? : List Char → Option Int
  | [] => some 0
  | c :: rest =>
      if c = 'e' || c = 'E' then
        let (negative, cs) := signed rest
        (spacedDigits Char.isDigit cs).map fun ds =>
          if negative then -(digitsValue 10 ds : Int) else (digitsValue 10 ds : Int)
      else none

def isExponentMark (c : Char) : Bool := c = 'e' || c = 'E'

/-- A floating point number: a fraction, an exponent or both follow the whole part. -/
def decimal? (negative : Bool) (cs : List Char) : Option Binary64 := do
  let isEnd := fun c => c = '.' || isExponentMark c
  let whole ← wholeDigits (cs.takeWhile (!isEnd ·))
  match cs.dropWhile (!isEnd ·) with
  | [] => none
  | '.' :: rest => do
      let fraction ← spacedDigits Char.isDigit (rest.takeWhile (!isExponentMark ·))
      let exponent ← exponent? (rest.dropWhile (!isExponentMark ·))
      return Binary64.ofDecimal negative (digitsValue 10 (whole ++ fraction))
        (exponent - fraction.length)
  | rest => do
      let exponent ← exponent? rest
      return Binary64.ofDecimal negative (digitsValue 10 whole) exponent

/-- A floating point number, also one of the special ones. A finite number too large to be
represented is refused. -/
def float? (cs : List Char) : Option Binary64 :=
  let (negative, cs) := signed cs
  match cs with
  | ['i', 'n', 'f'] => some (.infinite negative)
  | ['n', 'a', 'n'] => some .nan
  | cs => (decimal? negative cs).filter (!·.isInfinite)

/-- A number of exactly so many decimal digits; `before` is the value of those already read. -/
def fixedNumber (before : Nat) : Nat → List Char → Option (Nat × List Char)
  | 0, cs => some (before, cs)
  | _ + 1, [] => none
  | count + 1, c :: rest =>
      if c.isDigit then fixedNumber (before * 10 + (c.toNat - '0'.toNat)) count rest else none

def expect (expected : Char) : List Char → Option (List Char)
  | [] => none
  | c :: rest => if c = expected then some rest else none

def isLeap (year : Nat) : Bool := year % 4 = 0 && (year % 100 ≠ 0 || year % 400 = 0)

def daysIn (year month : Nat) : Nat :=
  if month = 2 then if isLeap year then 29 else 28
  else if month = 4 || month = 6 || month = 9 || month = 11 then 30
  else 31

def date? (cs : List Char) : Option (List Char) := do
  let (year, cs) ← fixedNumber 0 4 cs
  let cs ← expect '-' cs
  let (month, cs) ← fixedNumber 0 2 cs
  let cs ← expect '-' cs
  let (day, cs) ← fixedNumber 0 2 cs
  if 1 ≤ month && month ≤ 12 && 1 ≤ day && day ≤ daysIn year month then return cs else none

def secondFraction? : List Char → Option (List Char)
  | '.' :: rest => if (rest.takeWhile Char.isDigit).isEmpty then none
      else some (rest.dropWhile Char.isDigit)
  | cs => some cs

/-- Skips a time of day; its seconds may be left out. -/
def time? (cs : List Char) : Option (List Char) := do
  let (hour, cs) ← fixedNumber 0 2 cs
  let cs ← expect ':' cs
  let (minute, cs) ← fixedNumber 0 2 cs
  if 23 < hour || 59 < minute then none
  else
    match cs with
    | ':' :: cs => do
        let (second, cs) ← fixedNumber 0 2 cs
        if 60 < second then none else secondFraction? cs
    | cs => some cs

def offset? : List Char → Option (List Char)
  | [] => some []
  | c :: rest =>
      if c = 'Z' || c = 'z' then some rest
      else if c = '+' || c = '-' then do
        let (hour, cs) ← fixedNumber 0 2 rest
        let cs ← expect ':' cs
        let (minute, cs) ← fixedNumber 0 2 cs
        if 23 < hour || 59 < minute then none else some cs
      else none

def isMoment (cs : List Char) : Bool :=
  match date? cs with
  | some [] => true
  | some (c :: rest) =>
      (c = 'T' || c = 't' || c = ' ') && ((time? rest).bind offset?) = some []
  | none => time? cs = some []

def isReadable (n : Int) : Bool := -(twoTo 127 : Int) ≤ n && n < twoTo 128

def scalar? (cs : List Char) : Option Datum :=
  if cs = ['t', 'r', 'u', 'e'] then some (.bool true)
  else if cs = ['f', 'a', 'l', 's', 'e'] then some (.bool false)
  else if isMoment cs then some (.moment (String.ofList cs))
  else
    match integer? cs with
    | some n => if isReadable n then some (.int n) else none
    | none => (float? cs).map .float

end HeaderSynopsis.Toml
