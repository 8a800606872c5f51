import HeaderSynopsis.Proofs.Text.Digits
import HeaderSynopsis.Toml.Document
import Mathlib.Data.Nat.Digits.Defs

/-!
Integers in TOML. The spellings of an integer are a grammar of their own here: digits in one of four
bases with single underscores between them, behind a letter that tells the base or, if they are
decimal, behind a sign. The reader takes exactly these for integers, and a value that is one of them
is read as its number, unless that lies far beyond all words.
-/

namespace HeaderSynopsis.Toml

open Data Text

def HasValue (base : Nat) (c : Char) (v : Nat) : Prop := hexValue? c = some v ∧ v < base

inductive SpellsDigits (base : Nat) : List Char → List Nat → Prop where
  | last {c v} (h : HasValue base c v) : SpellsDigits base [c] [v]
  | next {c v cs vs} (h : HasValue base c v) (hrest : SpellsDigits base cs vs) :
      SpellsDigits base (c :: cs) (v :: vs)
  | spaced {c v cs vs} (h : HasValue base c v) (hrest : SpellsDigits base cs vs) :
      SpellsDigits base (c :: '_' :: cs) (v :: vs)

def SpellsNumber (base : Nat) (cs : List Char) (n : Nat) : Prop :=
  ∃ vs, SpellsDigits base cs vs ∧ Nat.ofDigits base vs.reverse = n

def SpellsWhole (cs : List Char) (n : Nat) : Prop :=
  ∃ vs, SpellsDigits 10 cs vs ∧ (vs.head? = some 0 → vs = [0]) ∧ Nat.ofDigits 10 vs.reverse = n

/-- The texts that stand for an integer. -/
inductive SpellsInteger : List Char → Int → Prop where
  | plain {cs n} (h : SpellsWhole cs n) : SpellsInteger cs n
  | positive {cs n} (h : SpellsWhole cs n) : SpellsInteger ('+' :: cs) n
  | negative {cs n} (h : SpellsWhole cs n) : SpellsInteger ('-' :: cs) (-n)
  | prefixed {letter base cs n} (hbase : (letter, base) ∈ [('x', 16), ('o', 8), ('b', 2)])
      (h : SpellsNumber base cs n) : SpellsInteger ('0' :: letter :: cs) n

def EndsScalar (rest : List Char) : Prop := ∀ c ∈ rest.head?, isScalarChar c = false

def Accepts (accepted : Char → Bool) (base : Nat) : Prop :=
  ∀ c, accepted c = true ↔ ∃ v, HasValue base c v

/-- Up to ten, the digits of a base follow each other from zero on. -/
theorem accepts_of_bounds {accepted : Char → Bool} {base : Nat} (hbase : base ≤ 10)
    (h : ∀ c, accepted c = true ↔ 48 ≤ c.toNat ∧ c.toNat < 48 + base) : Accepts accepted base := by
  intro c
  rw [h c]
  simp only [HasValue, hexValue?_eq_some_iff]
  constructor
  · intro hc
    exact ⟨c.toNat - 48, by omega⟩
  · intro hc
    obtain ⟨v, hv⟩ := hc
    omega

theorem accepts_decimal : Accepts Char.isDigit 10 := by
  refine accepts_of_bounds (by decide) fun c => ?_
  rw [isDigit_iff]
  omega

theorem accepts_octal : Accepts (fun c => '0' ≤ c && c ≤ '7') 8 := by
  refine accepts_of_bounds (by decide) fun c => ?_
  simp only [Bool.and_eq_true, decide_eq_true_eq, Char.le_def, UInt32.le_iff_toNat_le]
  change 48 ≤ c.toNat ∧ c.toNat ≤ 55 ↔ _
  omega

theorem accepts_binary : Accepts (fun c => c = '0' || c = '1') 2 := by
  refine accepts_of_bounds (by decide) fun c => ?_
  have h0 : c = '0' ↔ c.toNat = 48 := Char.toNat_inj.symm
  have h1 : c = '1' ↔ c.toNat = 49 := Char.toNat_inj.symm
  simp only [Bool.or_eq_true, decide_eq_true_eq, h0, h1]
  omega

theorem accepts_hexadecimal : Accepts isHexDigit 16 := by
  intro c
  simp only [HasValue, hexValue?_eq_some_iff, isHexDigit, Bool.or_eq_true, Bool.and_eq_true,
    decide_eq_true_eq, isDigit_iff, Char.le_def, UInt32.le_iff_toNat_le]
  change (48 ≤ c.toNat ∧ c.toNat ≤ 57 ∨ 97 ≤ c.toNat ∧ c.toNat ≤ 102) ∨
    65 ≤ c.toNat ∧ c.toNat ≤ 70 ↔ _
  constructor
  · rintro ((h | h) | h)
    · exact ⟨c.toNat - 48, by omega⟩
    · exact ⟨c.toNat - 87, by omega⟩
    · exact ⟨c.toNat - 55, by omega⟩
  · rintro ⟨v, h⟩
    omega

/-- Letters count from ten on, whether they are large or small. -/
theorem digit_value {c : Char} {v : Nat} (h : hexValue? c = some v) :
    (if c.isDigit then c.toNat - '0'.toNat else c.toLower.toNat - 'a'.toNat + 10) = v := by
  have h0 : ('0' : Char).toNat = 48 := rfl
  have ha : ('a' : Char).toNat = 97 := rfl
  rw [h0, ha]
  rcases (hexValue?_eq_some_iff c v).mp h with hdigit | hlower | hupper
  · rw [if_pos ((isDigit_iff c).mpr (by omega))]
    omega
  · rw [if_neg (fun hc => by have := (isDigit_iff c).mp hc; omega),
      toLower_of_lower hlower.1]
    omega
  · rw [if_neg (fun hc => by have := (isDigit_iff c).mp hc; omega),
      toLower_of_upper hupper.1 (by omega)]
    omega

theorem hasValue_zero_iff {base : Nat} (hbase : 0 < base) (c : Char) :
    HasValue base c 0 ↔ c = '0' := by
  have h0 : c = '0' ↔ c.toNat = 48 := Char.toNat_inj.symm
  simp only [HasValue, hexValue?_eq_some_iff, h0]
  omega

/-- Neither the underscore nor any sign is a digit. -/
theorem HasValue.isAlphanum {base : Nat} {c : Char} {v : Nat} (h : HasValue base c v) :
    c.isAlphanum = true := by
  have hbounds := (hexValue?_eq_some_iff c v).mp h.1
  unfold Char.isAlphanum Char.isAlpha Char.isUpper Char.isLower
  simp only [Bool.or_eq_true, Bool.and_eq_true, decide_eq_true_eq, isDigit_iff, ge_iff_le,
    UInt32.le_iff_toNat_le]
  change ((65 ≤ c.toNat ∧ c.toNat ≤ 90) ∨ 97 ≤ c.toNat ∧ c.toNat ≤ 122) ∨ _
  omega

section

variable {base : Nat} {cs : List Char} {vs : List Nat}

theorem SpellsDigits.ne_nil (h : SpellsDigits base cs vs) : cs ≠ [] := by
  cases h with
  | last | next | spaced => exact List.cons_ne_nil _ _

theorem SpellsDigits.head (h : SpellsDigits base cs vs) :
    ∃ c v rest others, cs = c :: rest ∧ vs = v :: others ∧ HasValue base c v := by
  cases h with
  | last h => exact ⟨_, _, _, _, rfl, rfl, h⟩
  | next h => exact ⟨_, _, _, _, rfl, rfl, h⟩
  | spaced h => exact ⟨_, _, _, _, rfl, rfl, h⟩

theorem SpellsDigits.of_mem (h : SpellsDigits base cs vs) :
    ∀ c ∈ cs, c = '_' ∨ ∃ v, HasValue base c v := by
  induction h with
  | last h =>
    intro c hc
    rw [List.mem_singleton.mp hc]
    exact Or.inr ⟨_, h⟩
  | next h _ ih =>
    intro c hc
    rcases List.mem_cons.mp hc with rfl | hc
    · exact Or.inr ⟨_, h⟩
    · exact ih c hc
  | spaced h _ ih =>
    intro c hc
    rcases List.mem_cons.mp hc with rfl | hc
    · exact Or.inr ⟨_, h⟩
    · rcases List.mem_cons.mp hc with hc | hc
      · exact Or.inl hc
      · exact ih c hc

def HaveValues (base : Nat) : List Char → List Nat → Prop := List.Forall₂ (HasValue base)

/-- What the reader makes of the digits is the number with these values. -/
theorem digitsValue_of_haveValues {ds : List Char} (h : HaveValues base ds vs) :
    digitsValue base ds = Nat.ofDigits base vs.reverse := by
  rw [Nat.ofDigits_eq_foldr, List.foldr_reverse]
  unfold digitsValue
  generalize 0 = before
  induction h generalizing before with
  | nil => rfl
  | @cons c v ds vs hc _ ih =>
    rw [List.foldl_cons, List.foldl_cons, ih, digit_value hc.1, Nat.mul_comm, Nat.add_comm]
    rfl

variable {accepted : Char → Bool}

/-- A digit before others, without an underscore between them. -/
theorem spacedDigits_cons {c : Char} (hne : cs ≠ []) (hhead : ∀ rest, cs ≠ '_' :: rest) :
    spacedDigits accepted (c :: cs) =
      if accepted c then (spacedDigits accepted cs).map (c :: ·) else none := by
  rw [spacedDigits]
  · exact hne
  · exact hhead

/-- The reader takes every spelling of digits. -/
theorem SpellsDigits.spacedDigits (haccepts : Accepts accepted base) (h : SpellsDigits base cs vs) :
    ∃ ds, spacedDigits accepted cs = some ds ∧ HaveValues base ds vs := by
  induction h with
  | last h =>
    refine ⟨_, ?_, List.Forall₂.cons h List.Forall₂.nil⟩
    rw [Toml.spacedDigits, if_pos ((haccepts _).mpr ⟨_, h⟩)]
  | @next c v cs vs h hrest ih =>
    obtain ⟨ds, hds, hvalues⟩ := ih
    refine ⟨c :: ds, ?_, List.Forall₂.cons h hvalues⟩
    have hhead : ∀ rest, cs ≠ '_' :: rest := by
      intro rest heq
      obtain ⟨d, w, others, -, hcs, -, hd⟩ := hrest.head
      rw [(List.cons.inj (hcs.symm.trans heq)).1] at hd
      exact absurd hd.isAlphanum (by decide)
    rw [spacedDigits_cons hrest.ne_nil hhead, if_pos ((haccepts c).mpr ⟨v, h⟩), hds]
    rfl
  | @spaced c v cs vs h hrest ih =>
    obtain ⟨ds, hds, hvalues⟩ := ih
    refine ⟨c :: ds, ?_, List.Forall₂.cons h hvalues⟩
    rw [Toml.spacedDigits, if_pos ((haccepts c).mpr ⟨v, h⟩), hds]
    rfl

/-- What the reader takes for digits is a spelling of them. -/
theorem spellsDigits_of_spacedDigits (haccepts : Accepts accepted base) {ds : List Char}
    (h : spacedDigits accepted cs = some ds) :
    ∃ vs, SpellsDigits base cs vs ∧ HaveValues base ds vs := by
  -- The cases are those of the reader: the end, a last digit, a digit before an underscore and a
  -- digit before another one, each with its counterpart where the character is no digit.
  induction cs using spacedDigits.induct accepted generalizing ds with
  | case1 => cases h
  | case2 c hc =>
    obtain ⟨v, hv⟩ := (haccepts c).mp hc
    rw [spacedDigits, if_pos hc] at h
    obtain rfl := Option.some.inj h
    exact ⟨[v], SpellsDigits.last hv, List.Forall₂.cons hv List.Forall₂.nil⟩
  | case3 c hc =>
    rw [spacedDigits, if_neg hc] at h
    cases h
  | case4 c cs hc ih =>
    obtain ⟨v, hv⟩ := (haccepts c).mp hc
    rw [spacedDigits, if_pos hc] at h
    obtain ⟨others, hothers, rfl⟩ := Option.map_eq_some_iff.mp h
    obtain ⟨vs, hspells, hvalues⟩ := ih hothers
    exact ⟨v :: vs, SpellsDigits.spaced hv hspells, List.Forall₂.cons hv hvalues⟩
  | case5 c cs hc =>
    rw [spacedDigits, if_neg hc] at h
    cases h
  | case6 c cs hne hhead hc ih =>
    obtain ⟨v, hv⟩ := (haccepts c).mp hc
    rw [spacedDigits_cons hne hhead, if_pos hc] at h
    obtain ⟨others, hothers, rfl⟩ := Option.map_eq_some_iff.mp h
    obtain ⟨vs, hspells, hvalues⟩ := ih hothers
    exact ⟨v :: vs, SpellsDigits.next hv hspells, List.Forall₂.cons hv hvalues⟩
  | case7 c cs hne hhead hc =>
    rw [spacedDigits_cons hne hhead, if_neg hc] at h
    cases h

/-- The reader finds digits exactly where they are spelled, and their number with them. -/
theorem spacedDigits_value_iff (haccepts : Accepts accepted base) (n : Nat) :
    (spacedDigits accepted cs).map (digitsValue base) = some n ↔ SpellsNumber base cs n := by
  rw [Option.map_eq_some_iff]
  constructor
  · intro h
    obtain ⟨ds, hds, hn⟩ := h
    obtain ⟨vs, hspells, hvalues⟩ := spellsDigits_of_spacedDigits haccepts hds
    exact ⟨vs, hspells, (digitsValue_of_haveValues hvalues).symm.trans hn⟩
  · intro h
    obtain ⟨vs, hspells, hn⟩ := h
    obtain ⟨ds, hds, hvalues⟩ := hspells.spacedDigits haccepts
    exact ⟨ds, hds, (digitsValue_of_haveValues hvalues).trans hn⟩

end

theorem wholeDigits_eq_some_iff (cs ds : List Char) :
    wholeDigits cs = some ds ↔
      spacedDigits Char.isDigit cs = some ds ∧ (ds.head? = some '0' → ds = ['0']) := by
  unfold wholeDigits
  cases spacedDigits Char.isDigit cs with
  | none => simp
  | some found =>
    rw [Option.bind_eq_bind, Option.bind_some]
    split
    case h_1 d others =>
      constructor
      · intro h
        cases h
      · intro h
        obtain ⟨hds, hzero⟩ := h
        rw [← Option.some.inj hds] at hzero
        cases hzero rfl
    case h_2 hzero =>
      refine (and_iff_left_of_imp fun h hhead => ?_).symm
      obtain rfl := Option.some.inj h
      cases found with
      | nil => cases hhead
      | cons c others =>
        obtain rfl := Option.some.inj hhead
        cases others with
        | nil => rfl
        | cons d others => exact absurd rfl (hzero d others)

/-- A leading zero is one among the digits and among their values. -/
theorem head_zero_iff {ds : List Char} {vs : List Nat} (h : HaveValues 10 ds vs) :
    (ds.head? = some '0' → ds = ['0']) ↔ (vs.head? = some 0 → vs = [0]) := by
  cases h with
  | nil => simp
  | @cons c v ds vs hc hrest =>
    have hzero : c = '0' ↔ v = 0 := by
      constructor
      · intro h
        rw [h] at hc
        exact (Option.some.inj hc.1).symm
      · intro h
        rw [h] at hc
        exact (hasValue_zero_iff (by decide) c).mp hc
    cases hrest with
    | nil => simp [hzero]
    | cons => simp [hzero]

/-- The reader finds a decimal number exactly where one is spelled. -/
theorem wholeDigits_value_iff (cs : List Char) (n : Nat) :
    (wholeDigits cs).map (digitsValue 10) = some n ↔ SpellsWhole cs n := by
  rw [Option.map_eq_some_iff]
  constructor
  · intro h
    obtain ⟨ds, hds, hn⟩ := h
    obtain ⟨hspaced, hzero⟩ := (wholeDigits_eq_some_iff cs ds).mp hds
    obtain ⟨vs, hspells, hvalues⟩ := spellsDigits_of_spacedDigits accepts_decimal hspaced
    exact ⟨vs, hspells, (head_zero_iff hvalues).mp hzero,
      (digitsValue_of_haveValues hvalues).symm.trans hn⟩
  · intro h
    obtain ⟨vs, hspells, hzero, hn⟩ := h
    obtain ⟨ds, hds, hvalues⟩ := hspells.spacedDigits accepts_decimal
    exact ⟨ds, (wholeDigits_eq_some_iff cs ds).mpr ⟨hds, (head_zero_iff hvalues).mpr hzero⟩,
      (digitsValue_of_haveValues hvalues).trans hn⟩

/-- A number without a letter for its base is a decimal one. -/
theorem integer?_decimal {cs : List Char} (hx : ∀ rest, cs ≠ '0' :: 'x' :: rest)
    (ho : ∀ rest, cs ≠ '0' :: 'o' :: rest) (hb : ∀ rest, cs ≠ '0' :: 'b' :: rest) :
    integer? cs = ((wholeDigits (signed cs).2).map (digitsValue 10)).map fun n : Nat =>
      if (signed cs).1 then -(n : Int) else (n : Int) := by
  rw [integer?, Option.map_map]
  · rfl
  · exact hx
  · exact ho
  · exact hb

theorem SpellsWhole.head {cs : List Char} {n : Nat} (h : SpellsWhole cs n) :
    ∃ c rest, cs = c :: rest ∧ c.isDigit = true := by
  obtain ⟨vs, hspells, -, -⟩ := h
  obtain ⟨c, v, rest, -, hcs, -, hc⟩ := hspells.head
  exact ⟨c, rest, hcs, (accepts_decimal c).mpr ⟨v, hc⟩⟩

/-- Decimal digits have no letter among them. -/
theorem SpellsWhole.of_mem {cs : List Char} {n : Nat} (h : SpellsWhole cs n) :
    ∀ c ∈ cs, c = '_' ∨ c.isDigit = true := by
  obtain ⟨vs, hspells, -, -⟩ := h
  intro c hc
  exact (hspells.of_mem c hc).imp_right (accepts_decimal c).mpr

theorem signed_of_isDigit {c : Char} {rest : List Char} (h : c.isDigit = true) :
    signed (c :: rest) = (false, c :: rest) := by
  unfold signed
  split
  case h_1 heq =>
    rw [(List.cons.inj heq).1] at h
    exact absurd h (by decide)
  case h_2 heq =>
    rw [(List.cons.inj heq).1] at h
    exact absurd h (by decide)
  case h_3 => rfl

theorem signed_cases (cs : List Char) :
    (∃ rest, cs = '+' :: rest ∧ signed cs = (false, rest)) ∨
      (∃ rest, cs = '-' :: rest ∧ signed cs = (true, rest)) ∨ signed cs = (false, cs) := by
  unfold signed
  split
  case h_1 rest => exact Or.inl ⟨rest, rfl, rfl⟩
  case h_2 rest => exact Or.inr (Or.inl ⟨rest, rfl, rfl⟩)
  case h_3 => exact Or.inr (Or.inr rfl)

/-- The reader takes every spelling for its integer. -/
theorem SpellsInteger.integer? {cs : List Char} {n : Int} (h : SpellsInteger cs n) :
    Toml.integer? cs = some n := by
  cases h with
  | @plain cs n h =>
    -- Decimal digits are never taken for the prefix of another base.
    have hletter (letter : Char) (hletter : letter ≠ '_' ∧ letter.isDigit = false)
        (rest : List Char) : cs ≠ '0' :: letter :: rest := by
      intro heq
      rcases h.of_mem letter (by rw [heq]; simp) with hspace | hdigit
      · exact hletter.1 hspace
      · exact absurd (hletter.2.symm.trans hdigit) (by decide)
    rw [integer?_decimal (hletter 'x' (by decide)) (hletter 'o' (by decide))
      (hletter 'b' (by decide))]
    obtain ⟨c, rest, hcs, hc⟩ := h.head
    rw [hcs, signed_of_isDigit hc, ← hcs, (wholeDigits_value_iff cs n).mpr h]
    rfl
  | @positive cs n h =>
    rw [integer?_decimal (by simp) (by simp) (by simp)]
    change ((wholeDigits cs).map (digitsValue 10)).map _ = _
    rw [(wholeDigits_value_iff cs n).mpr h]
    rfl
  | @negative cs n h =>
    rw [integer?_decimal (by simp) (by simp) (by simp)]
    change ((wholeDigits cs).map (digitsValue 10)).map _ = _
    rw [(wholeDigits_value_iff cs n).mpr h]
    rfl
  | @prefixed letter base cs n hbase h =>
    have hread (accepted : Char → Bool) (haccepts : Accepts accepted base) :
        ((spacedDigits accepted cs).map fun ds => (digitsValue base ds : Int)) = some (n : Int) := by
      have hvalue := (spacedDigits_value_iff haccepts n).mpr h
      obtain ⟨ds, hds, hn⟩ := Option.map_eq_some_iff.mp hvalue
      rw [hds, ← hn]
      rfl
    simp only [List.mem_cons, Prod.mk.injEq, List.not_mem_nil, or_false] at hbase
    rcases hbase with ⟨rfl, rfl⟩ | ⟨rfl, rfl⟩ | ⟨rfl, rfl⟩
    · exact hread _ accepts_hexadecimal
    · exact hread _ accepts_octal
    · exact hread _ accepts_binary

/-- The integers of the reader are exactly the spelled ones. -/
theorem integer?_eq_some_iff (cs : List Char) (n : Int) :
    integer? cs = some n ↔ SpellsInteger cs n := by
  refine ⟨fun h => ?_, SpellsInteger.integer?⟩
  -- The three prefixes are told apart by the reader, but are one constructor of the grammar.
  have hprefixed (accepted : Char → Bool) (letter : Char) (base : Nat) (rest : List Char)
      (hbase : (letter, base) ∈ [('x', 16), ('o', 8), ('b', 2)])
      (haccepts : Accepts accepted base)
      (hread : ((spacedDigits accepted rest).map fun ds => (digitsValue base ds : Int)) = some n) :
      SpellsInteger ('0' :: letter :: rest) n := by
    obtain ⟨ds, hds, rfl⟩ := Option.map_eq_some_iff.mp hread
    refine SpellsInteger.prefixed hbase ((spacedDigits_value_iff haccepts _).mp ?_)
    rw [hds]
    rfl
  unfold Toml.integer? at h
  split at h
  case h_1 rest => exact hprefixed _ 'x' 16 rest (by decide) accepts_hexadecimal h
  case h_2 rest => exact hprefixed _ 'o' 8 rest (by decide) accepts_octal h
  case h_3 rest => exact hprefixed _ 'b' 2 rest (by decide) accepts_binary h
  case h_4 =>
    have hsigned (negative : Bool) (rest : List Char) (hcs : signed cs = (negative, rest)) :
        ∃ m, SpellsWhole rest m ∧ n = if negative then -(m : Int) else (m : Int) := by
      rw [hcs] at h
      obtain ⟨ds, hds, hn⟩ := Option.map_eq_some_iff.mp h
      refine ⟨digitsValue 10 ds, (wholeDigits_value_iff rest _).mp ?_, hn.symm⟩
      rw [hds]
      rfl
    rcases signed_cases cs with ⟨rest, rfl, hcs⟩ | ⟨rest, rfl, hcs⟩ | hcs
    · obtain ⟨m, hwhole, rfl⟩ := hsigned _ _ hcs
      exact SpellsInteger.positive hwhole
    · obtain ⟨m, hwhole, rfl⟩ := hsigned _ _ hcs
      exact SpellsInteger.negative hwhole
    · obtain ⟨m, hwhole, rfl⟩ := hsigned _ _ hcs
      exact SpellsInteger.plain hwhole

/-- An integer begins with a digit or a sign, and has no sign further on. -/
theorem SpellsInteger.parts {cs : List Char} {n : Int} (h : SpellsInteger cs n) :
    ∃ c rest, cs = c :: rest ∧ (c.isDigit = true ∨ c = '+' ∨ c = '-') ∧
      ∀ d ∈ rest, d = '_' ∨ d.isAlphanum = true := by
  have hdigit (c : Char) (h : c.isDigit = true) : c.isAlphanum = true := by
    rw [Char.isAlphanum, h, Bool.or_true]
  cases h with
  | plain h =>
    obtain ⟨c, rest, rfl, hc⟩ := h.head
    exact ⟨c, rest, rfl, Or.inl hc, fun d hd =>
      (h.of_mem d (List.mem_cons_of_mem c hd)).imp_right (hdigit d)⟩
  | positive h =>
    exact ⟨'+', _, rfl, Or.inr (Or.inl rfl), fun d hd => (h.of_mem d hd).imp_right (hdigit d)⟩
  | negative h =>
    exact ⟨'-', _, rfl, Or.inr (Or.inr rfl), fun d hd => (h.of_mem d hd).imp_right (hdigit d)⟩
  | @prefixed letter base cs n hbase h =>
    refine ⟨'0', _, rfl, Or.inl rfl, fun d hd => ?_⟩
    obtain ⟨vs, hspells, -⟩ := h
    rcases List.mem_cons.mp hd with hd | hd
    · refine Or.inr ?_
      simp only [List.mem_cons, Prod.mk.injEq, List.not_mem_nil, or_false] at hbase
      rcases hbase with ⟨hletter, -⟩ | ⟨hletter, -⟩ | ⟨hletter, -⟩ <;> rw [hd, hletter] <;> rfl
    · refine (hspells.of_mem d hd).imp_right fun hvalue => ?_
      obtain ⟨v, hv⟩ := hvalue
      exact hv.isAlphanum

/-- An expected character is the first one. -/
theorem expect_eq_some {expected : Char} {cs rest : List Char}
    (h : expect expected cs = some rest) : cs = expected :: rest := by
  cases cs with
  | nil => cases h
  | cons c cs =>
    rw [expect] at h
    split at h
    case isTrue hc => rw [hc, Option.some.inj h]
    case isFalse => cases h

/-- A number of a fixed length is a part of the text. -/
theorem fixedNumber_eq_some {before count : Nat} {cs rest : List Char} {number : Nat}
    (h : fixedNumber before count cs = some (number, rest)) :
    ∃ ds, cs = ds ++ rest ∧ ds.length = count := by
  induction count generalizing before cs with
  | zero =>
    obtain rfl := congrArg Prod.snd (Option.some.inj h)
    exact ⟨[], rfl, rfl⟩
  | succ count ih =>
    cases cs with
    | nil => cases h
    | cons c cs =>
      rw [fixedNumber] at h
      split at h
      case isTrue =>
        obtain ⟨ds, rfl, hlength⟩ := ih h
        exact ⟨c :: ds, rfl, by rw [List.length_cons, hlength]⟩
      case isFalse => cases h

/-- A number of a fixed length with a sign behind it has that sign behind its first character. -/
theorem mem_of_fixedNumber_expect {count : Nat} {cs after rest : List Char} {number : Nat}
    {expected : Char} (hnumber : fixedNumber 0 (count + 1) cs = some (number, after))
    (hexpect : expect expected after = some rest) : expected ∈ cs.tail := by
  obtain ⟨ds, rfl, hlength⟩ := fixedNumber_eq_some hnumber
  rw [expect_eq_some hexpect]
  cases ds with
  | nil => cases hlength
  | cons d ds => simp

theorem dash_mem_of_date? {cs rest : List Char} (h : date? cs = some rest) : '-' ∈ cs.tail := by
  unfold date? at h
  obtain ⟨⟨year, after⟩, hyear, h⟩ := Option.bind_eq_some_iff.mp h
  obtain ⟨behind, hbehind, -⟩ := Option.bind_eq_some_iff.mp h
  exact mem_of_fixedNumber_expect hyear hbehind

theorem colon_mem_of_time? {cs rest : List Char} (h : time? cs = some rest) : ':' ∈ cs.tail := by
  unfold time? at h
  obtain ⟨⟨hour, after⟩, hhour, h⟩ := Option.bind_eq_some_iff.mp h
  obtain ⟨behind, hbehind, -⟩ := Option.bind_eq_some_iff.mp h
  exact mem_of_fixedNumber_expect hhour hbehind

section

variable {cs : List Char} {n : Int}

theorem SpellsInteger.not_mem_tail (h : SpellsInteger cs n) {c : Char}
    (hc : c ≠ '_' ∧ c.isAlphanum = false) : c ∉ cs.tail := by
  obtain ⟨d, rest, rfl, -, hrest⟩ := h.parts
  intro hmem
  rcases hrest c hmem with hspace | halnum
  · exact hc.1 hspace
  · exact absurd (hc.2.symm.trans halnum) (by decide)

/-- An integer is no date, -/
theorem SpellsInteger.date?_eq_none (h : SpellsInteger cs n) : date? cs = none := by
  rw [Option.eq_none_iff_forall_ne_some]
  intro rest hdate
  exact h.not_mem_tail (by decide) (dash_mem_of_date? hdate)

/-- and no time of day. -/
theorem SpellsInteger.isMoment_eq_false (h : SpellsInteger cs n) : isMoment cs = false := by
  have htime : time? cs = none := by
    rw [Option.eq_none_iff_forall_ne_some]
    intro rest htime
    exact h.not_mem_tail (by decide) (colon_mem_of_time? htime)
  unfold isMoment
  rw [h.date?_eq_none, htime]
  rfl

/-- A text without quotes that spells an integer stands for it. -/
theorem SpellsInteger.scalar? (h : SpellsInteger cs n) :
    Toml.scalar? cs = if isReadable n then some (.int n) else none := by
  have hword (word : List Char) (hhead : ∀ c ∈ word.head?, c.isLower = true) : cs ≠ word := by
    obtain ⟨c, rest, rfl, hc, -⟩ := h.parts
    intro heq
    have hlower : c.isLower = true := hhead c (by rw [← heq]; rfl)
    rcases hc with hdigit | rfl | rfl
    · have hbounds := (isDigit_iff c).mp hdigit
      unfold Char.isLower at hlower
      simp only [Bool.and_eq_true, decide_eq_true_eq, ge_iff_le, UInt32.le_iff_toNat_le] at hlower
      have hleast : 97 ≤ c.toNat := hlower.1
      omega
    · exact absurd hlower (by decide)
    · exact absurd hlower (by decide)
  unfold Toml.scalar?
  rw [if_neg (hword _ (by simp)), if_neg (hword _ (by simp)), h.isMoment_eq_false,
    if_neg Bool.false_ne_true, h.integer?]

theorem SpellsInteger.isScalarChar (h : SpellsInteger cs n) :
    ∀ c ∈ cs, isScalarChar c = true := by
  obtain ⟨c, rest, rfl, hc, hrest⟩ := h.parts
  have halnum (d : Char) (h : d.isAlphanum = true) : Toml.isScalarChar d = true := by
    simp only [Toml.isScalarChar, h, Bool.true_or]
  intro d hd
  rcases List.mem_cons.mp hd with rfl | hd
  · rcases hc with hdigit | rfl | rfl
    · exact halnum d (by rw [Char.isAlphanum, hdigit, Bool.or_true])
    · rfl
    · rfl
  · rcases hrest d hd with rfl | hd
    · rfl
    · exact halnum d hd

variable {rest : List Char}

/-- An integer ends where no character of it can follow. -/
theorem SpellsInteger.scalar (h : SpellsInteger cs n)
    (hrest : EndsScalar rest) :
    Toml.scalar (cs ++ rest) = if isReadable n then some (.int n, rest) else none := by
  obtain ⟨hword, hbehind⟩ := takeWhile_dropWhile_append h.isScalarChar hrest
  have hread : (Toml.scalar? cs).map (·, rest) =
      if isReadable n then some (Datum.int n, rest) else none := by
    rw [h.scalar?]
    split <;> rfl
  unfold Toml.scalar
  rw [hword, hbehind]
  dsimp only
  -- A blank and a digit behind it belong to a value only if that is a date.
  split
  case h_1 => rw [h.date?_eq_none]; simp [hread]
  case h_2 => exact hread

/-- At any depth an integer is read as its number, unless that lies far beyond all words. -/
theorem value_spelledInteger (depth : Nat) (h : SpellsInteger cs n)
    (hrest : EndsScalar rest) :
    value depth (cs ++ rest) = if isReadable n then some (.int n, rest) else none := by
  rw [← h.scalar hrest]
  obtain ⟨c, others, rfl, -⟩ := h.parts
  have hc := h.isScalarChar c List.mem_cons_self
  have hne (d : Char) (hd : Toml.isScalarChar d = false) : c ≠ d := by
    intro heq
    rw [heq, hd] at hc
    cases hc
  rw [List.cons_append]
  unfold value
  split
  case h_1 heq => exact absurd (List.cons.inj heq).1 (hne '[' rfl)
  case h_2 heq => exact absurd (List.cons.inj heq).1 (hne '\x7b' rfl)
  case h_3 heq => exact absurd (List.cons.inj heq).1 (hne '"' rfl)
  case h_4 heq => exact absurd (List.cons.inj heq).1 (hne '\'' rfl)
  case h_5 => rfl

end

end HeaderSynopsis.Toml
