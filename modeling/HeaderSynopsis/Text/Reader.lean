namespace HeaderSynopsis.Text

abbrev Reader (α : Type) := List Char → Option (α × List Char)

def hexValue? (c : Char) : Option Nat :=
  if c.isDigit then some (c.toNat - '0'.toNat)
  else if 'a' ≤ c ∧ c ≤ 'f' then some (c.toNat - 'a'.toNat + 10)
  else if 'A' ≤ c ∧ c ≤ 'F' then some (c.toNat - 'A'.toNat + 10)
  else none

/-- A number of so many hexadecimal digits; `before` is the value of those already read. -/
def hexNumber (before : Nat) : Nat → Reader Nat
  | 0, cs => some (before, cs)
  | _ + 1, [] => none
  | count + 1, c :: rest => do
      let digit ← hexValue? c
      hexNumber (before * 16 + digit) count rest

end HeaderSynopsis.Text
