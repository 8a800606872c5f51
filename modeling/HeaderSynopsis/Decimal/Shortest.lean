import HeaderSynopsis.Decimal.Binary64

namespace HeaderSynopsis.Decimal

structure Interval where
  low : Nat
  value : Nat
  high : Nat
  den : Nat
  -- Whether the bounds themselves belong to it.
  closed : Bool
deriving Repr

/-- Half the distance to the neighbours on either side. Below a power of two the neighbours lie
half as far apart. -/
def Interval.around (mantissa : Nat) (exponent : Int) : Interval :=
  let narrow := mantissa = twoTo 52 ∧ Binary64.leastExponent < exponent
  let (unit, den) := Binary64.scaled 1 1 (exponent - 2)
  { low := (4 * mantissa - if narrow then 1 else 2) * unit
    value := 4 * mantissa * unit
    high := (4 * mantissa + 2) * unit
    den := den
    closed := mantissa % 2 = 0 }

def Interval.holds (i : Interval) (num scale : Nat) : Bool :=
  let x := num * i.den
  if i.closed then i.low * scale ≤ x && x ≤ i.high * scale
  else i.low * scale < x && x < i.high * scale

structure Digits where
  digits : Nat
  exponent : Int
deriving DecidableEq, Repr

/-- The point of the grid `10 ^ exponent` nearest to the value, of its two neighbours there that
lie in the interval. A tie goes up. -/
def Interval.onGrid? (i : Interval) (exponent : Int) : Option Digits :=
  let (up, down) :=
    if 0 ≤ exponent then (tenTo exponent.toNat, 1) else (1, tenTo (-exponent).toNat)
  let below := i.value * down / (i.den * up)
  let above := below + 1
  let belowFits := i.holds (below * up) down
  let aboveFits := i.holds (above * up) down
  let nearerAbove := (below + above) * up * i.den ≤ 2 * i.value * down
  if aboveFits && (!belowFits || nearerAbove) then some ⟨above, exponent⟩
  else if belowFits then some ⟨below, exponent⟩
  else none

def leadingExponent (num den : Nat) : Int :=
  let guess : Int := (Binary64.digitCount num : Int) - (Binary64.digitCount den : Int)
  let reached :=
    if 0 ≤ guess then den * tenTo guess.toNat ≤ num else den ≤ num * tenTo (-guess).toNat
  if reached then guess else guess - 1

def Interval.coarsest (i : Interval) (exponent : Int) : Nat → Digits
  | 0 => ⟨0, 0⟩
  | count + 1 =>
      match i.onGrid? exponent with
      | some found => found
      | none => i.coarsest (exponent - 1) count

/-- The fewest digits that read back as `mantissa * 2 ^ exponent`; seventeen always do. -/
def shortest (mantissa : Nat) (exponent : Int) : Digits :=
  let i := Interval.around mantissa exponent
  i.coarsest (leadingExponent i.value i.den) 18

structure NumberStyle where
  -- Numbers of at least ten to this power are in positional notation.
  least : Int
  -- Numbers of at least ten to this power are in scientific notation again.
  limit : Int
  -- What stands between digits and exponent.
  exponentMark : String
  -- What follows a whole number in positional notation.
  wholeSuffix : String
  infinity : String
  nan : String

def significant (n : Nat) : List Char × Nat :=
  let digits := Nat.toDigits 10 n
  let kept := (digits.reverse.dropWhile (· = '0')).reverse
  (kept, digits.length - kept.length)

def scientific (mark : String) (digits : List Char) (point : Int) : String :=
  let mantissa :=
    match digits with
    | [] => ['0']
    | [d] => [d]
    | d :: rest => d :: '.' :: rest
  String.ofList mantissa ++ mark ++ toString point

/-- Digits with the point where it belongs; `point` is the place of the leading digit. -/
def positional (wholeSuffix : String) (digits : List Char) (point : Int) : String :=
  let zeros (n : Nat) := List.replicate n '0'
  if point < 0 then
    String.ofList ('0' :: '.' :: zeros ((-point).toNat - 1) ++ digits)
  else
    let whole := point.toNat + 1
    if digits.length ≤ whole then
      String.ofList (digits ++ zeros (whole - digits.length)) ++ wholeSuffix
    else
      String.ofList (digits.take whole ++ '.' :: digits.drop whole)

/-- The text of a number. A sign stands before all but the one that is not a number. -/
def Binary64.render (style : NumberStyle) : Binary64 → String
  | .nan => style.nan
  | .infinite negative => (if negative then "-" else "") ++ style.infinity
  | .finite negative mantissa exponent =>
      let sign := if negative then "-" else ""
      if mantissa = 0 then sign ++ "0" ++ style.wholeSuffix
      else
        let found := shortest mantissa exponent
        let (digits, zeros) := significant found.digits
        let point : Int := found.exponent + zeros + digits.length - 1
        if style.least ≤ point ∧ point < style.limit then
          sign ++ positional style.wholeSuffix digits point
        else
          sign ++ scientific style.exponentMark digits point

end HeaderSynopsis.Decimal
