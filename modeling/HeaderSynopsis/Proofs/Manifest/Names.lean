import HeaderSynopsis.Manifest.Problem

/-!
Which names entities may have. Main result: a name is accepted exactly if it is an identifier or the
name of a destructor or of an operator, where reserved words are no identifiers, or if it is a
reserved word behind a tilde.
-/

namespace HeaderSynopsis.Manifest

def IsLetter (c : Char) : Prop := ('a' ≤ c ∧ c ≤ 'z') ∨ ('A' ≤ c ∧ c ≤ 'Z')

def IsDigit (c : Char) : Prop := '0' ≤ c ∧ c ≤ '9'

def IsIdentifier (word : String) : Prop :=
  ∃ first rest, word.toList = first :: rest ∧ (IsLetter first ∨ first = '_') ∧
    ∀ c ∈ rest, IsLetter c ∨ IsDigit c ∨ c = '_'

def IsSymbol (symbol : String) : Prop :=
  ∃ first rest, symbol.toList = first :: rest ∧
    ¬IsLetter first ∧ ¬IsDigit first ∧ first ≠ '_'

/-- The name of an operator: that word and a symbol. -/
def IsOperatorName (name : String) : Prop := ∃ symbol, name = "operator" ++ symbol ∧ IsSymbol symbol

/-- The names of entities, destructors and operators, in none of which a reserved word is taken for
an identifier. -/
inductive IsName : String → Prop
  | identifier {word : String} (h : IsIdentifier word) (hfree : word ∉ reservedWords) : IsName word
  | destructor {word : String} (h : IsIdentifier word) (hfree : word ∉ reservedWords) :
      IsName ("~" ++ word)
  | operator {symbol : String} (h : IsSymbol symbol) : IsName ("operator" ++ symbol)

theorem isAlpha_iff {c : Char} : c.isAlpha = true ↔ IsLetter c := by
  unfold Char.isAlpha Char.isUpper Char.isLower
  simp only [IsLetter, Char.le_def, Bool.or_eq_true, Bool.and_eq_true, decide_eq_true_eq]
  exact or_comm

theorem isDigit_iff {c : Char} : c.isDigit = true ↔ IsDigit c := by
  simp only [Char.isDigit, IsDigit, Char.le_def, Bool.and_eq_true, decide_eq_true_eq]

theorem isNameStart_iff {c : Char} : isNameStart c = true ↔ IsLetter c ∨ c = '_' := by
  rw [isNameStart, Bool.or_eq_true, isAlpha_iff, decide_eq_true_eq]

theorem isNameChar_iff {c : Char} : isNameChar c = true ↔ IsLetter c ∨ IsDigit c ∨ c = '_' := by
  rw [isNameChar, Char.isAlphanum, Bool.or_eq_true, Bool.or_eq_true, isAlpha_iff, isDigit_iff,
    decide_eq_true_eq, or_assoc]

theorem identifierFault?_eq_none_iff {word : String} :
    identifierFault? word.toList = none ↔ IsIdentifier word := by
  unfold IsIdentifier
  cases word.toList with
  | nil => simp [identifierFault?]
  | cons c rest =>
    simp only [← isNameStart_iff, ← isNameChar_iff]
    constructor
    · intro h
      rw [identifierFault?] at h
      split at h
      case isTrue => cases h
      case isFalse hstart =>
        split at h
        case isTrue hrest =>
          exact ⟨c, rest, rfl, by simpa using hstart, List.all_eq_true.mp hrest⟩
        case isFalse => cases h
    · rintro ⟨first, others, hword, hstart, hrest⟩
      obtain ⟨rfl, rfl⟩ := List.cons.inj hword
      rw [identifierFault?, hstart, if_neg (by decide), if_pos (List.all_eq_true.mpr hrest)]

theorem after?_eq_some_iff {beginning name rest : List Char} :
    after? beginning name = some rest ↔ name = beginning ++ rest := by
  induction beginning generalizing name with
  | nil => exact Option.some_inj
  | cons b beginning ih =>
    cases name with
    | nil => simp [after?]
    | cons c name =>
      by_cases hc : b = c
      · rw [after?, if_pos hc, ih, hc, List.cons_append, List.cons.injEq]
        exact (and_iff_right rfl).symm
      · rw [after?, if_neg hc, List.cons_append, List.cons.injEq]
        constructor
        · intro h
          cases h
        · intro h
          exact absurd h.1.symm hc

/-- Whether a name is that of an operator can be seen from what is behind that word. -/
theorem operatorSymbol?_isSome_iff {name : String} :
    (operatorSymbol? name.toList).isSome = true ↔
      ∃ symbol, name = "operator" ++ symbol ∧ IsSymbol symbol := by
  have hsymbol (c : Char) :
      isNameChar c = false ↔ ¬IsLetter c ∧ ¬IsDigit c ∧ c ≠ '_' := by
    rw [← Bool.not_eq_true, isNameChar_iff, not_or, not_or]
  constructor
  · intro h
    unfold operatorSymbol? at h
    split at h
    case h_1 c rest hafter =>
      split at h
      · cases h
      · rename_i hc
        refine ⟨String.ofList (c :: rest), ?_, c, rest, String.toList_ofList, ?_⟩
        · apply String.toList_inj.mp
          rw [String.toList_append, String.toList_ofList (l := c :: rest)]
          exact after?_eq_some_iff.mp hafter
        · exact (hsymbol c).mp (Bool.not_eq_true _ ▸ hc)
    case h_2 => cases h
  · rintro ⟨symbol, rfl, c, rest, hchars, hc⟩
    have hafter : after? "operator".toList ("operator" ++ symbol).toList = some (c :: rest) := by
      rw [after?_eq_some_iff, String.toList_append, hchars]
    rw [operatorSymbol?, hafter]
    dsimp only
    rw [(hsymbol c).mpr hc]
    rfl

/-- No identifier begins with a tilde. -/
theorem not_isIdentifier_of_tilde {name : String} {rest : List Char}
    (h : name.toList = '~' :: rest) : ¬IsIdentifier name := by
  rintro ⟨first, others, hname, hstart, -⟩
  obtain ⟨rfl, -⟩ := List.cons.inj (h.symm.trans hname)
  rw [← isNameStart_iff] at hstart
  exact absurd hstart (by decide)

/-- Without a tilde, what is left may be an identifier in two ways. -/
theorem withoutTilde_fault?_eq_none_iff {name : String} :
    identifierFault? (withoutTilde name.toList) = none ↔
      IsIdentifier name ∨ ∃ word, name = "~" ++ word ∧ IsIdentifier word := by
  unfold withoutTilde
  split
  case h_1 rest hname =>
    have hrest : name = "~" ++ String.ofList rest := by
      apply String.toList_inj.mp
      rw [hname, String.toList_append, String.toList_ofList (l := rest)]
      rfl
    rw [or_iff_right (not_isIdentifier_of_tilde hname), ← String.toList_ofList (l := rest),
      identifierFault?_eq_none_iff]
    constructor
    · intro h
      exact ⟨String.ofList rest, hrest, h⟩
    · rintro ⟨word, hword, h⟩
      obtain rfl : word = String.ofList rest := by
        apply String.toList_inj.mp
        have hchars := congrArg String.toList (hword.symm.trans hrest)
        rw [String.toList_append, String.toList_append] at hchars
        exact List.append_cancel_left hchars
      exact h
  case h_2 hname =>
    rw [identifierFault?_eq_none_iff]
    constructor
    · exact Or.inl
    · rintro (h | ⟨word, rfl, -⟩)
      · exact h
      · exact absurd (String.toList_append (s := "~") (t := word)) (hname word.toList)

/-- A name has no fault if it is not reserved as a whole and has one of three forms. -/
theorem nameFault?_eq_none_iff {name : String} :
    nameFault? name = none ↔
      name ∉ reservedWords ∧
        ((∃ symbol, name = "operator" ++ symbol ∧ IsSymbol symbol) ∨ IsIdentifier name ∨
          ∃ word, name = "~" ++ word ∧ IsIdentifier word) := by
  rw [← operatorSymbol?_isSome_iff, ← withoutTilde_fault?_eq_none_iff, nameFault?]
  by_cases hreserved : name ∈ reservedWords
  · simp [hreserved]
  · rw [if_neg hreserved, and_iff_right hreserved]
    cases (operatorSymbol? name.toList).isSome with
    | true => simp
    | false => simp

theorem isIdentifier_of_mem_reservedWords {word : String} (h : word ∈ reservedWords) :
    IsIdentifier word := by
  have hall : ∀ word ∈ reservedWords, identifierFault? word.toList = none := by decide
  exact identifierFault?_eq_none_iff.mp (hall word h)

/-- Behind a tilde no word is reserved as a whole. -/
theorem tilde_append_notMem_reservedWords (word : String) : "~" ++ word ∉ reservedWords := by
  intro h
  exact not_isIdentifier_of_tilde String.toList_append (isIdentifier_of_mem_reservedWords h)

theorem operator_append_notMem_reservedWords {symbol : String} (h : IsSymbol symbol) :
    "operator" ++ symbol ∉ reservedWords := by
  have hall : ∀ word ∈ reservedWords, (operatorSymbol? word.toList).isSome = false := by decide
  intro hmem
  have hsome := operatorSymbol?_isSome_iff.mpr ⟨symbol, rfl, h⟩
  exact absurd ((hall _ hmem).symm.trans hsome) (by decide)

/-- A name is accepted if it has one of the forms that names have, and also if it is a reserved word
behind a tilde, which is not looked up. A reserved word by itself is reported as such. -/
theorem nameProblem?_eq_none_iff (source : Source) (path : List String) (name kind : String) :
    (nameProblem? source path name kind = none ↔
      IsName name ∨ ∃ word ∈ reservedWords, name = "~" ++ word) ∧
    (name ∈ reservedWords →
      nameProblem? source path name kind =
        some (.badName name (describe path kind) .reserved (source.firstSpan? name))) := by
  constructor
  · rw [nameProblem?, Option.map_eq_none_iff, nameFault?_eq_none_iff]
    constructor
    · rintro ⟨hfree, ⟨symbol, rfl, h⟩ | h | ⟨word, rfl, h⟩⟩
      · exact Or.inl (.operator h)
      · exact Or.inl (.identifier h hfree)
      · by_cases hreserved : word ∈ reservedWords
        · exact Or.inr ⟨word, hreserved, rfl⟩
        · exact Or.inl (.destructor h hreserved)
    · rintro (h | ⟨word, hword, rfl⟩)
      · cases h with
        | identifier h hfree => exact ⟨hfree, Or.inr (Or.inl h)⟩
        | destructor h hfree =>
          exact ⟨tilde_append_notMem_reservedWords _, Or.inr (Or.inr ⟨_, rfl, h⟩)⟩
        | operator h =>
          exact ⟨operator_append_notMem_reservedWords h, Or.inl ⟨_, rfl, h⟩⟩
      · have h := isIdentifier_of_mem_reservedWords hword
        exact ⟨tilde_append_notMem_reservedWords word, Or.inr (Or.inr ⟨word, rfl, h⟩)⟩
  · intro hreserved
    rw [nameProblem?, nameFault?, if_pos hreserved]
    rfl

/-- The destructor of a class cannot tell what the class may be called. -/
theorem nameProblem?_eq_none_iff_new :
    nameProblem? ⟨"", "geo.toml"⟩ ["geo"] "new" "class" =
        some (.badName "new" "class in 'geo'" .reserved none) ∧
      nameProblem? ⟨"", "geo.toml"⟩ ["geo"] "~new" "function" = none := by
  have hreserved : "new" ∈ reservedWords := by decide
  have hclass := (nameProblem?_eq_none_iff ⟨"", "geo.toml"⟩ ["geo"] "new" "class").2 hreserved
  have hdestructor := (nameProblem?_eq_none_iff ⟨"", "geo.toml"⟩ ["geo"] "~new" "function").1
  refine ⟨?_, hdestructor.mpr (Or.inr ⟨"new", hreserved, rfl⟩)⟩
  rw [hclass]
  decide

/-- A name that is accepted although the class in it has a reserved name. -/
theorem accepted_tilde_class :
    ∃ source path kind, nameProblem? source path "~class" kind = none ∧ ¬IsName "~class" := by
  refine ⟨⟨"", "geo.toml"⟩, [], "function", by decide, ?_⟩
  intro h
  generalize hname : "~class" = name at h
  cases h with
  | identifier h _ =>
    subst hname
    have hchars : "~class".toList = '~' :: "class".toList := rfl
    exact not_isIdentifier_of_tilde hchars h
  | @destructor word _ hfree =>
    obtain rfl : "class" = word := by
      have hchars : ['~'] ++ "class".toList = ['~'] ++ word.toList := by
        simpa using congrArg String.toList hname
      exact String.toList_inj.mp (List.append_cancel_left hchars)
    exact hfree (by decide)
  | @operator symbol _ =>
    have hchars := congrArg (List.head? ∘ String.toList) hname
    simp at hchars

end HeaderSynopsis.Manifest
