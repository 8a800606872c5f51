import HeaderSynopsis.Proofs.Json.Integers
import HeaderSynopsis.Proofs.Toml.Integers
import HeaderSynopsis.Coding.Expression
import HeaderSynopsis.Writing.Types

/-!
Integers as expressions. An integer that fits into a signed word of 64 bits is an integer literal
with its digits, whichever way it is spelled. Beyond that range the same number becomes a literal of
a floating point number or is refused, and the two formats do not refuse the same ones.
-/

namespace HeaderSynopsis.Declaration

open Data Decimal Text Writing

def Expression.takenBy (read : Reader Datum) (cs : List Char) :
    Option (Expression × List Char) :=
  (read cs).bind fun (datum, rest) => (decode datum).map (·, rest)

def Expression.float (x : Binary64) : Expression := .literal .float (x.render floatStyle)

namespace Expression

/-- The range of a signed word. -/
theorem ofInt?_eq (n : Int) :
    ofInt? n =
      if -(2 : Int) ^ 63 ≤ n ∧ n < 2 ^ 63 then some (.int n)
      else if 0 ≤ n ∧ n < 2 ^ 64 then some (float (Binary64.round false n.toNat 1))
      else none := rfl

variable {rest : List Char}

/-- In JSON, zero with a sign is no integer, and integers that do not fit into any word go through
the approximation. -/
theorem takenBy_json (approximate : Json.Approximation) (depth : Nat) (negative : Bool) (n : Nat)
    (h : Json.EndsNumber rest) :
    takenBy (Json.value approximate depth) (Json.integerText negative n ++ rest) =
      if -(2 : Int) ^ 63 ≤ Json.signedValue negative n ∧ Json.signedValue negative n < 2 ^ 63 ∧
          ¬(negative = true ∧ n = 0) then
        some (.int (Json.signedValue negative n), rest)
      else if negative = false ∧ n < 2 ^ 64 then some (float (Binary64.round false n 1), rest)
      else ((approximate negative (Json.digitsOf n) [] 0).map float).map (·, rest) := by
  unfold takenBy
  rw [Json.value_integerText depth negative n h, Json.numberOfParts_integer]
  by_cases hword : -(2 : Int) ^ 63 ≤ Json.signedValue negative n ∧
      Json.signedValue negative n < 2 ^ 64 ∧ ¬(negative = true ∧ n = 0)
  · rw [if_pos hword]
    change (ofInt? (Json.signedValue negative n)).map (·, rest) = _
    rw [ofInt?_eq]
    by_cases hsigned : Json.signedValue negative n < 2 ^ 63
    · rw [if_pos ⟨hword.1, hsigned⟩, if_pos ⟨hword.1, hsigned, hword.2.2⟩]
      rfl
    · -- Only a number without a sign lies between the two limits.
      cases negative with
      | true =>
        change ¬(-(n : Int) < 2 ^ 63) at hsigned
        omega
      | false =>
        have hpositive : 0 ≤ Json.signedValue false n := Int.natCast_nonneg n
        have hunsigned : n < 2 ^ 64 := Int.ofNat_lt.mp hword.2.1
        rw [if_neg (fun h => hsigned h.2), if_pos ⟨hpositive, hword.2.1⟩,
          if_neg (fun h => hsigned h.2.1), if_pos ⟨rfl, hunsigned⟩]
        rfl
  · have hbeyond : ¬(-(2 : Int) ^ 63 ≤ Json.signedValue negative n ∧
        Json.signedValue negative n < 2 ^ 63 ∧ ¬(negative = true ∧ n = 0)) := by
      intro h
      exact hword ⟨h.1, by omega, h.2.2⟩
    have hwide : ¬(negative = false ∧ n < 2 ^ 64) := by
      rintro ⟨rfl, hn⟩
      have hleast : -(2 : Int) ^ 63 ≤ Json.signedValue false n := by
        change -(2 : Int) ^ 63 ≤ (n : Int)
        omega
      exact hword ⟨hleast, Int.ofNat_lt.mpr hn, fun h => Bool.false_ne_true h.1⟩
    rw [if_neg hword, if_neg hbeyond, if_neg hwide]
    cases approximate negative (Json.digitsOf n) [] 0 <;> rfl

/-- In TOML, only whole numbers that fit into an unsigned word are rounded. -/
theorem takenBy_toml (depth : Nat) {cs : List Char} {n : Int} (hspells : Toml.SpellsInteger cs n)
    (hrest : Toml.EndsScalar rest) :
    takenBy (Toml.value depth) (cs ++ rest) =
      if -(2 : Int) ^ 63 ≤ n ∧ n < 2 ^ 63 then some (.int n, rest)
      else if 0 ≤ n ∧ n < 2 ^ 64 then some (float (Binary64.round false n.toNat 1), rest)
      else none := by
  unfold takenBy
  rw [Toml.value_spelledInteger depth hspells hrest]
  have hreadable : Toml.isReadable n = true ↔ -(2 : Int) ^ 127 ≤ n ∧ n < 2 ^ 128 := by
    rw [Toml.isReadable, Bool.and_eq_true, decide_eq_true_eq, decide_eq_true_eq]
    rfl
  by_cases hread : Toml.isReadable n = true
  · rw [if_pos hread]
    change (ofInt? n).map (·, rest) = _
    rw [ofInt?_eq, apply_ite (Option.map (·, rest)), apply_ite (Option.map (·, rest))]
    rfl
  · rw [if_neg hread]
    rw [hreadable] at hread
    rw [if_neg (by omega), if_neg (by omega)]
    rfl

end Expression

inductive WrittenInteger where
  | json (negative : Bool) (n : Nat)
  | toml (cs : List Char) (n : Int) (spelled : Toml.SpellsInteger cs n)

namespace WrittenInteger

def value : WrittenInteger → Int
  | .json negative n => Json.signedValue negative n
  | .toml _ n _ => n

def chars : WrittenInteger → List Char
  | .json negative n => Json.integerText negative n
  | .toml cs _ _ => cs

def reader (approximate : Json.Approximation) (depth : Nat) : WrittenInteger → Reader Datum
  | .json _ _ => Json.value approximate depth
  | .toml _ _ _ => Toml.value depth

def EndsBefore (rest : List Char) : WrittenInteger → Prop
  | .json _ _ => Json.EndsNumber rest
  | .toml _ _ _ => Toml.EndsScalar rest

/-- Whether it fits into a signed word. JSON has a zero below zero, which does not. -/
def Fits (i : WrittenInteger) : Prop :=
  -(2 : Int) ^ 63 ≤ i.value ∧ i.value < 2 ^ 63 ∧ ∀ n, i = .json true n → n ≠ 0

/-- What becomes of an integer that does not fit. One that fits into an unsigned word is rounded to
the nearest floating point number. Of the others TOML takes none, and JSON those that have an
approximation. -/
def beyond (approximate : Json.Approximation) : WrittenInteger → Option Expression
  | .json negative n =>
      if negative = false ∧ n < 2 ^ 64 then some (.float (Binary64.round false n 1))
      else (approximate negative (Json.digitsOf n) [] 0).map .float
  | .toml _ n _ =>
      if 0 ≤ n ∧ n < 2 ^ 64 then some (.float (Binary64.round false n.toNat 1)) else none

open Expression

variable {approximate : Json.Approximation} {i : WrittenInteger} {rest : List Char}

theorem takenBy_of_fits (depth : Nat) (hends : i.EndsBefore rest) (hfits : i.Fits) :
    takenBy (i.reader approximate depth) (i.chars ++ rest) = some (.int i.value, rest) := by
  obtain ⟨hleast, hmost, hzero⟩ := hfits
  cases i with
  | json negative n =>
    have hsign : ¬(negative = true ∧ n = 0) := by
      intro h
      exact hzero n (by rw [h.1]) h.2
    exact (takenBy_json approximate depth negative n hends).trans (if_pos ⟨hleast, hmost, hsign⟩)
  | toml cs n spelled => exact (takenBy_toml depth spelled hends).trans (if_pos ⟨hleast, hmost⟩)

theorem takenBy_of_not_fits (depth : Nat) (hends : i.EndsBefore rest) (hfits : ¬i.Fits) :
    takenBy (i.reader approximate depth) (i.chars ++ rest) =
      (i.beyond approximate).map (·, rest) := by
  cases i with
  | json negative n =>
    have hbeyond : ¬(-(2 : Int) ^ 63 ≤ Json.signedValue negative n ∧
        Json.signedValue negative n < 2 ^ 63 ∧ ¬(negative = true ∧ n = 0)) := by
      intro h
      refine hfits ⟨h.1, h.2.1, ?_⟩
      intro m hjson hm
      obtain ⟨rfl, rfl⟩ := WrittenInteger.json.inj hjson
      exact h.2.2 ⟨rfl, hm⟩
    refine (takenBy_json approximate depth negative n hends).trans ((if_neg hbeyond).trans ?_)
    rw [beyond, apply_ite (Option.map (·, rest))]
    rfl
  | toml cs n spelled =>
    have hbeyond : ¬(-(2 : Int) ^ 63 ≤ n ∧ n < 2 ^ 63) := by
      intro h
      refine hfits ⟨h.1, h.2, ?_⟩
      intro m hjson
      cases hjson
    refine (takenBy_toml depth spelled hends).trans ((if_neg hbeyond).trans ?_)
    rw [beyond, apply_ite (Option.map (·, rest))]
    rfl

/-- Beyond the range of a signed word there are no integer literals. -/
theorem beyond_ne_int (value : Int) : i.beyond approximate ≠ some (.int value) := by
  cases i with
  | json negative n =>
    rw [beyond]
    split
    case isTrue =>
      intro h
      cases Option.some.inj h
    case isFalse =>
      intro h
      obtain ⟨x, -, hx⟩ := Option.map_eq_some_iff.mp h
      cases hx
  | toml cs n spelled =>
    rw [beyond]
    split
    case isTrue =>
      intro h
      cases Option.some.inj h
    case isFalse => exact (Option.some_ne_none _).symm

/-- An integer that stands where an expression is expected, at any depth and before any text that
does not go on with it, is taken for the integer literal of its digits exactly if it fits into a
signed word. If it is beyond that range, it is refused or becomes a floating point literal, whatever
the approximation of the greatest numbers is. -/
theorem taken_integer (approximate : Json.Approximation) (i : WrittenInteger) (depth : Nat)
    (rest : List Char) (hends : i.EndsBefore rest) :
    (i.Fits →
      takenBy (i.reader approximate depth) (i.chars ++ rest) = some (.int i.value, rest)) ∧
    (¬i.Fits →
      takenBy (i.reader approximate depth) (i.chars ++ rest) =
        (i.beyond approximate).map (·, rest)) ∧
    ((∀ expression after,
        takenBy (i.reader approximate depth) (i.chars ++ rest) = some (expression, after) →
          expression = .int i.value) ↔ i.Fits ∨ i.beyond approximate = none) ∧
    (Expression.int i.value).writes = [.token .intLiteral (toString i.value)] := by
  refine ⟨takenBy_of_fits depth hends, takenBy_of_not_fits depth hends, ⟨?exact, ?fits⟩, rfl⟩
  case exact =>
    intro hexact
    by_cases hfits : i.Fits
    · exact Or.inl hfits
    · refine Or.inr ?_
      rw [takenBy_of_not_fits depth hends hfits] at hexact
      cases hbeyond : i.beyond approximate with
      | none => rfl
      | some expression =>
        have hint := hexact expression rest (by rw [hbeyond]; rfl)
        exact absurd (hbeyond.trans (congrArg some hint)) (beyond_ne_int i.value)
  case fits =>
    intro h expression after htaken
    by_cases hfits : i.Fits
    · rw [takenBy_of_fits depth hends hfits] at htaken
      exact (congrArg Prod.fst (Option.some.inj htaken)).symm
    · rw [takenBy_of_not_fits depth hends hfits, h.resolve_left hfits] at htaken
      cases htaken

/-- The least signed word in JSON. -/
theorem taken_integer_least :
    takenBy (Json.value Json.nearest 0) ("-9223372036854775808".toList ++ ['}']) =
      some (.int (-9223372036854775808), ['}']) := by
  have hbrace : (json true (2 ^ 63)).EndsBefore ['}'] := by
    intro c hc
    obtain rfl := Option.mem_some.mp hc
    decide
  have hfits : (json true (2 ^ 63)).Fits := by
    refine ⟨by decide, by decide, ?_⟩
    intro n hn
    obtain ⟨-, rfl⟩ := WrittenInteger.json.inj hn
    decide
  exact (taken_integer Json.nearest (json true (2 ^ 63)) 0 ['}'] hbrace).1 hfits

/-- The greatest unsigned word is taken for the power of two behind it. -/
theorem greatest_word_rounded :
    Toml.SpellsInteger "18446744073709551615".toList 18446744073709551615 ∧
    takenBy (Toml.value 0) "18446744073709551615".toList =
      some (.literal .float "1.8446744073709552e19", []) ∧
    Expression.literal .float "1.8446744073709552e19" ≠ .int 18446744073709551615 := by
  have hspells : Toml.SpellsInteger "18446744073709551615".toList 18446744073709551615 :=
    (Toml.integer?_eq_some_iff _ _).mp (by decide)
  refine ⟨hspells, ?_, by decide⟩
  have hrounded : float (Binary64.round false 18446744073709551615 1) =
      .literal .float "1.8446744073709552e19" := by
    decide +kernel
  have htaken : takenBy (Toml.value 0) ("18446744073709551615".toList ++ []) = _ :=
    takenBy_toml 0 hspells (fun c hc => by cases hc)
  rw [List.append_nil, if_neg (by decide), if_pos (by decide)] at htaken
  rw [htaken, ← hrounded]
  rfl

end WrittenInteger

end HeaderSynopsis.Declaration
