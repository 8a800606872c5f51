import HeaderSynopsis.Json.Reader
import HeaderSynopsis.Proofs.Text.Digits
import Mathlib.Algebra.Ring.Int.Defs

namespace HeaderSynopsis.Json

open Data Decimal Text

/-- An integer as JSON has it: decimal digits, behind a minus sign if it is negative. -/
def integerText (negative : Bool) (n : Nat) : List Char :=
  (if negative then ['-'] else []) ++ Nat.toDigits 10 n

def signedValue (negative : Bool) (n : Nat) : Int := if negative then -n else n

/-- What may follow a number without becoming a part of it. -/
def EndsNumber (rest : List Char) : Prop :=
  ∀ c ∈ rest.head?, c.isDigit = false ∧ c ≠ '.' ∧ c ≠ 'e' ∧ c ≠ 'E'

def digitsOf (n : Nat) : List Nat := (Nat.toDigits 10 n).map fun c => c.toNat - '0'.toNat

theorem digitsValue_digitsOf (n : Nat) : digitsValue (digitsOf n) = n := by
  have hvalue : digitsValue (digitsOf n) = Nat.ofDigitChars 10 (Nat.toDigits 10 n) 0 := by
    simp only [digitsValue, digitsOf, List.foldl_map, Nat.ofDigitChars_eq_foldl, Nat.mul_comm]
  rw [hvalue, Nat.ofDigitChars_ten_toDigits]

theorem isDigit_of_mem_toDigits {n : Nat} {c : Char} (h : c ∈ Nat.toDigits 10 n) :
    c.isDigit = true :=
  Nat.isDigit_of_mem_toDigits (by decide) (by decide) h

theorem isDigit_of_toDigits_eq {n : Nat} {c : Char} {rest : List Char}
    (h : Nat.toDigits 10 n = c :: rest) : c.isDigit = true := by
  apply isDigit_of_mem_toDigits (n := n)
  rw [h]
  exact List.mem_cons_self

/-- The first digit of a positive number is not zero. -/
theorem head?_toDigits_ne_zero {n : Nat} (h : 0 < n) : (Nat.toDigits 10 n).head? ≠ some '0' := by
  induction n using Nat.strongRecOn with
  | ind n ih =>
    rw [Nat.toDigits_eq_if (by decide)]
    split
    · intro hzero
      have hn : n = 0 := Nat.digitChar_eq_zero.mp (Option.some.inj hzero)
      omega
    · have hfewer := ih (n / 10) (by omega) (by omega)
      obtain ⟨c, rest, hc⟩ := List.exists_cons_of_ne_nil (@Nat.toDigits_ne_nil (n / 10) 10)
      rw [hc] at hfewer ⊢
      exact hfewer

/-- Only zero itself begins with a zero. -/
theorem digitsOf_cases (n : Nat) :
    digitsOf n = [0] ∨ ∃ d rest, digitsOf n = (d + 1) :: rest := by
  by_cases hn : n = 0
  · exact Or.inl (by rw [hn]; rfl)
  · refine Or.inr ?_
    have hhead := head?_toDigits_ne_zero (Nat.pos_of_ne_zero hn)
    unfold digitsOf
    cases hdigits : Nat.toDigits 10 n with
    | nil => exact absurd hdigits Nat.toDigits_ne_nil
    | cons c rest =>
      rw [hdigits] at hhead
      have hdigit : c.isDigit = true := isDigit_of_toDigits_eq hdigits
      have hbounds : 48 ≤ c.toNat ∧ c.toNat ≤ 57 := (isDigit_iff c).mp hdigit
      have hzero : c.toNat ≠ 48 := by
        intro h
        have hc : c = '0' := Char.toNat_inj.mp h
        exact hhead (congrArg some hc)
      refine ⟨c.toNat - 49, rest.map fun c => c.toNat - '0'.toNat, ?_⟩
      rw [List.map_cons]
      congr 1
      change c.toNat - 48 = _
      omega

/-- There is a digit, and no other stands behind a zero. -/
theorem digitsOf_ne (n : Nat) : digitsOf n ≠ [] ∧ ∀ d rest, digitsOf n ≠ 0 :: d :: rest := by
  rcases digitsOf_cases n with hdigits | ⟨d, others, hdigits⟩
  all_goals
    rw [hdigits]
    constructor
    · exact List.cons_ne_nil _ _
    · intro e rest h
      cases h

variable {rest : List Char}

theorem digitRun_toDigits (n : Nat) (h : EndsNumber rest) :
    digitRun (Nat.toDigits 10 n ++ rest) = (digitsOf n, rest) := by
  have hall : ∀ c ∈ Nat.toDigits 10 n, c.isDigit = true := fun c hc => isDigit_of_mem_toDigits hc
  obtain ⟨hdigits, hbehind⟩ := takeWhile_dropWhile_append hall fun c hc => (h c hc).1
  rw [digitRun, hdigits, hbehind, digitsOf]

/-- No fraction and no exponent follow. -/
theorem fractionPart_of_endsNumber (h : EndsNumber rest) : fractionPart rest = some (none, rest) := by
  cases rest with
  | nil => rfl
  | cons c rest =>
    unfold fractionPart
    split
    case h_1 heq =>
      obtain ⟨rfl, -⟩ := List.cons.inj heq
      exact absurd rfl (h '.' rfl).2.1
    case h_2 => rfl

theorem exponentPart_of_endsNumber (h : EndsNumber rest) : exponentPart rest = some (none, rest) := by
  cases rest with
  | nil => rfl
  | cons c rest =>
    obtain ⟨-, -, hlower, hupper⟩ := h c rfl
    unfold exponentPart
    dsimp only
    rw [if_neg (by simp [hlower, hupper])]

variable {approximate : Approximation}

theorem numberAfterSign_toDigits (negative : Bool) (n : Nat) (h : EndsNumber rest) :
    numberAfterSign approximate negative (Nat.toDigits 10 n ++ rest) =
      (numberOfParts approximate negative (digitsOf n) none none).map (·, rest) := by
  unfold numberAfterSign
  rw [digitRun_toDigits n h]
  obtain ⟨hne, hzero⟩ := digitsOf_ne n
  split
  case h_1 heq => exact absurd (Prod.mk.inj heq).1 hne
  case h_2 heq => exact absurd (Prod.mk.inj heq).1 (hzero _ _)
  case h_3 heq =>
    obtain ⟨rfl, rfl⟩ := Prod.mk.inj heq
    rw [fractionPart_of_endsNumber h]
    change (exponentPart rest >>= _) = _
    rw [exponentPart_of_endsNumber h]
    change (numberOfParts approximate negative (digitsOf n) none none >>= _) = _
    cases numberOfParts approximate negative (digitsOf n) none none with
    | none => rfl
    | some number => rfl

/-- A text that begins neither a list nor a table has no others in it. -/
theorem value_eq_scalar (depth : Nat) {c : Char} {rest : List Char} (hlist : c ≠ '[')
    (htable : c ≠ '\x7b') :
    value approximate depth (c :: rest) = value.scalar approximate (c :: rest) := by
  cases depth with
  | zero => rfl
  | succ depth =>
    unfold value
    split
    case h_1 heq => exact absurd (List.cons.inj heq).1 hlist
    case h_2 heq => exact absurd (List.cons.inj heq).1 htable
    case h_3 => rfl

/-- At any depth and before any text that does not go on with the number, an integer is read as the
number that it is. -/
theorem value_integerText (depth : Nat) (negative : Bool) (n : Nat) (h : EndsNumber rest) :
    value approximate depth (integerText negative n ++ rest) =
      (numberOfParts approximate negative (digitsOf n) none none).map (·, rest) := by
  cases negative with
  | true =>
    have htext : integerText true n ++ rest = '-' :: (Nat.toDigits 10 n ++ rest) := rfl
    rw [htext, value_eq_scalar depth (by decide) (by decide)]
    exact numberAfterSign_toDigits true n h
  | false =>
    have htext : integerText false n ++ rest = Nat.toDigits 10 n ++ rest := rfl
    rw [htext, ← numberAfterSign_toDigits false n h]
    cases hdigits : Nat.toDigits 10 n with
    | nil => exact absurd hdigits Nat.toDigits_ne_nil
    | cons c others =>
      have hdigit : c.isDigit = true := isDigit_of_toDigits_eq hdigits
      have hne (d : Char) (hd : d.isDigit = false) : c ≠ d := by
        rintro rfl
        exact absurd (hdigit.symm.trans hd) (by decide)
      rw [List.cons_append, value_eq_scalar depth (hne '[' rfl) (hne '\x7b' rfl)]
      unfold value.scalar
      split
      case h_1 heq => exact absurd (List.cons.inj heq).1 (hne '"' rfl)
      case h_2 heq => exact absurd (List.cons.inj heq).1 (hne '-' rfl)
      case h_3 heq => exact absurd (List.cons.inj heq).1 (hne 'n' rfl)
      case h_4 heq => exact absurd (List.cons.inj heq).1 (hne 't' rfl)
      case h_5 heq => exact absurd (List.cons.inj heq).1 (hne 'f' rfl)
      case h_6 => rfl

/-- Whether an integer fits into a word of 64 bits, with a sign or without one. -/
theorem word?_eq (negative : Bool) (n : Nat) :
    word? negative n =
      if -(2 : Int) ^ 63 ≤ signedValue negative n ∧ signedValue negative n < 2 ^ 64 ∧
          ¬(negative = true ∧ n = 0) then
        some (signedValue negative n)
      else none := by
  have h63 : twoTo 63 = 9223372036854775808 := rfl
  have h64 : twoTo 64 = 18446744073709551616 := rfl
  unfold word? signedValue
  rw [h63, h64]
  cases negative with
  | true =>
    rw [if_pos rfl]
    refine ite_congr (propext ?_) (fun _ => rfl) (fun _ => rfl)
    simp only [Bool.and_eq_true, decide_eq_true_eq, if_true, true_and]
    omega
  | false =>
    rw [if_neg Bool.false_ne_true]
    refine ite_congr (propext ?_) (fun _ => rfl) (fun _ => rfl)
    simp only [Bool.false_eq_true, if_false, false_and, not_false_eq_true, and_true]
    omega

/-- An integer that fits into a word is read as itself, and any other goes through the
approximation. -/
theorem numberOfParts_integer (approximate : Approximation) (negative : Bool) (n : Nat) :
    numberOfParts approximate negative (digitsOf n) none none =
      if -(2 : Int) ^ 63 ≤ signedValue negative n ∧ signedValue negative n < 2 ^ 64 ∧
          ¬(negative = true ∧ n = 0) then
        some (.int (signedValue negative n))
      else (approximate negative (digitsOf n) [] 0).map .float := by
  unfold numberOfParts
  rw [digitsValue_digitsOf, word?_eq]
  by_cases hfits : -(2 : Int) ^ 63 ≤ signedValue negative n ∧ signedValue negative n < 2 ^ 64 ∧
      ¬(negative = true ∧ n = 0)
  · rw [if_pos hfits, if_pos hfits]
  · rw [if_neg hfits, if_neg hfits]
    rfl

end HeaderSynopsis.Json
