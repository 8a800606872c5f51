import HeaderSynopsis.Coding.Types

namespace HeaderSynopsis.Data

open Declaration

namespace Datum

theorem allFitWords_eq (items : List Datum) : allFitWords items = items.all fitsWords := by
  induction items with
  | nil => rfl
  | cons item rest ih => rw [allFitWords, ih, List.all_cons]

theorem fieldsFitWords_eq (fields : Fields) : fieldsFitWords fields = fields.all (·.2.fitsWords) := by
  induction fields with
  | nil => rfl
  | cons field rest ih => rw [fieldsFitWords, ih, List.all_cons]

@[simp]
theorem fitsWords_list (items : List Datum) : (list items).fitsWords = items.all fitsWords := by
  rw [fitsWords, allFitWords_eq]

@[simp]
theorem fitsWords_table (fields : Fields) : (table fields).fitsWords = fields.all (·.2.fitsWords) := by
  rw [fitsWords, fieldsFitWords_eq]

@[simp]
theorem fitsWords_text (text : String) : (Datum.text text).fitsWords = true := by
  simp [fitsWords]

@[simp]
theorem fitsWords_bool (value : Bool) : (Datum.bool value).fitsWords = true := by
  simp [fitsWords]

end Datum

variable {α : Type} {datum : Datum} {fields : Fields} {name : String} {read : Datum → Option α}

/-- Whether a value is written down as `datum` and read back from it. Such data is never null and
is not refused anywhere for an integer that is too large. -/
structure Carries (datum : Datum) (read : Datum → Option α) (value : α) : Prop where
  notNull : datum ≠ .null
  fits : datum.fitsWords = true
  reads : read datum = some value

namespace Carries

theorem text (text : String) : Carries (.text text) Datum.text? text :=
  ⟨Datum.noConfusion, Datum.fitsWords_text text, rfl⟩

theorem bool (value : Bool) : Carries (.bool value) Datum.bool? value :=
  ⟨Datum.noConfusion, Datum.fitsWords_bool value, rfl⟩

theorem word {words : List (String × α)} {word : String} {value : α}
    (h : words.lookup word = some value) (blank : Blank) :
    Carries (.text word) (Datum.word? words blank) value :=
  ⟨Datum.noConfusion, Datum.fitsWords_text word, h⟩

theorem tag {words : List (String × α)} {word : String} {value : α}
    (h : words.lookup word = some value) (form : TagForm) :
    Carries (.text word) (Datum.tag? words form) value := by
  refine ⟨Datum.noConfusion, Datum.fitsWords_text word, ?_⟩
  cases form <;> exact h

/-- Data is also read where integers that are too large are refused. -/
theorem fitting {value : α} (h : Carries datum read value) :
    Carries datum (fun datum => if datum.fitsWords then read datum else none) value :=
  ⟨h.notNull, h.fits, (if_pos h.fits).trans h.reads⟩

theorem record {names : List String} {ofFields : Fields → Option α} {value : α}
    (hfits : fields.all (·.2.fitsWords) = true) (h : ofFields fields = some value) :
    Carries (.table fields) (fun datum => (datum.record? names).bind ofFields) value :=
  ⟨Datum.noConfusion, (Datum.fitsWords_table fields).trans hfits, h⟩

theorem word32 (n : UInt32) : Carries (.int n.toNat) Datum.word32? n := by
  have hbound := n.toNat_lt_size
  have hrange : -(Decimal.twoTo 63 : Int) ≤ n.toNat ∧ (n.toNat : Int) < Decimal.twoTo 64 := by
    have hlow : Decimal.twoTo 63 = 9223372036854775808 := by decide
    have hhigh : Decimal.twoTo 64 = 18446744073709551616 := by decide
    have hsize : UInt32.size = 4294967296 := rfl
    omega
  refine ⟨Datum.noConfusion, ?_, ?_⟩
  · rw [Datum.fitsWords]
    exact decide_eq_true hrange
  · have hread : (Datum.int n.toNat).natBelow? UInt32.size = some n.toNat := if_pos hbound
    rw [Datum.word32?, hread, Option.map_some, UInt32.ofNat_toNat]

theorem list {encode : α → Datum} {values : List α}
    (h : ∀ value ∈ values, Carries (encode value) read value) :
    Carries (.list (values.map encode)) (Datum.list? read) values := by
  refine ⟨Datum.noConfusion, ?_, ?_⟩
  · rw [Datum.fitsWords_list, List.all_map, List.all_eq_true]
    exact fun value hv => (h value hv).fits
  · rw [Datum.list?]
    induction values with
    | nil => rfl
    | cons value rest ih =>
      rw [List.forall_mem_cons] at h
      rw [List.map_cons, List.mapM_cons, h.1.reads, ih h.2]
      rfl

end Carries

namespace Fields

theorem required_of_lookup {value : α} (hl : fields.lookup name = some datum)
    (h : Carries datum read value) : fields.required name read = some value := by
  rw [required, hl, Option.bind_some, h.reads]

theorem defaulted_of_lookup {value absent : α} (hl : fields.lookup name = some datum)
    (h : Carries datum read value) : fields.defaulted name absent read = some value := by
  rw [defaulted, hl]
  exact h.reads

theorem defaulted_of_absent {absent : α} (hl : fields.lookup name = none) :
    fields.defaulted name absent read = some absent := by
  rw [defaulted, hl]

theorem optional_of_lookup {encode : α → Datum} {value : Option α}
    (hl : fields.lookup name = value.map encode)
    (h : ∀ a ∈ value, Carries (encode a) read a) : fields.optional name read = some value := by
  rw [optional, hl]
  cases value with
  | none => rfl
  | some a =>
    obtain ⟨hnull, -, hreads⟩ := h a rfl
    rw [Option.map_some]
    split
    · contradiction
    · rename_i heq
      exact absurd (Option.some_inj.mp heq) hnull
    · rename_i heq
      rw [← Option.some_inj.mp heq, hreads]
      rfl

section

variable {names : List String} {others : Fields}
  (h : ∀ name ∈ names, fields.lookup name = others.lookup name)

include h

theorem required_congr (hn : name ∈ names) :
    fields.required name read = others.required name read := by
  rw [required, required, h name hn]

theorem defaulted_congr {absent : α} (hn : name ∈ names) :
    fields.defaulted name absent read = others.defaulted name absent read := by
  rw [defaulted, defaulted, h name hn]

theorem optional_congr (hn : name ∈ names) :
    fields.optional name read = others.optional name read := by
  rw [optional, optional, h name hn]

end

@[simp]
theorem lookup_cons_eq (name other : String) (datum : Datum) (fields : Fields) :
    List.lookup other ((name, datum) :: fields) =
      if other = name then some datum else fields.lookup other := by
  by_cases h : other = name
  · simp [h]
  · have hne : (other == name) = false := beq_false_of_ne h
    simp [List.lookup_cons, h, hne]

@[simp]
theorem lookup_append_eq (other : String) (fields later : Fields) :
    List.lookup other (fields ++ later) = (fields.lookup other).or (later.lookup other) :=
  List.lookup_append

@[simp]
theorem lookup_optionalField (name other : String) (encode : α → Datum) (value : Option α) :
    (optionalField name encode value).lookup other =
      if other = name then value.map encode else none := by
  cases value with
  | none => simp [optionalField]
  | some a => simp [optionalField]

/-- A field that is left out when there is no value fits words if the value does. -/
theorem all_optionalField {encode : α → Datum} {value : Option α}
    (h : ∀ a ∈ value, Carries (encode a) read a) (name : String) :
    (optionalField name encode value).all (·.2.fitsWords) = true := by
  cases value with
  | none => rfl
  | some a => simpa [optionalField] using (h a rfl).fits

-- What was read came from some field, or stands for a field that is absent.

theorem exists_of_required {value : α} (h : fields.required name read = some value) :
    ∃ datum, read datum = some value := by
  obtain ⟨datum, -, hread⟩ := Option.bind_eq_some_iff.mp h
  exact ⟨datum, hread⟩

theorem exists_of_defaulted {value absent : α}
    (h : fields.defaulted name absent read = some value) :
    value = absent ∨ ∃ datum, read datum = some value := by
  unfold defaulted at h
  split at h
  · exact Or.inl (Option.some_inj.mp h).symm
  · exact Or.inr ⟨_, h⟩

theorem exists_of_optional {value : Option α} (h : fields.optional name read = some value) :
    ∀ a ∈ value, ∃ datum, read datum = some a := by
  unfold optional at h
  split at h
  · rw [← Option.some_inj.mp h]
    exact fun a ha => absurd ha (Option.not_mem_none a)
  · rw [← Option.some_inj.mp h]
    exact fun a ha => absurd ha (Option.not_mem_none a)
  · obtain ⟨b, hb, rfl⟩ := Option.map_eq_some_iff.mp h
    intro a ha
    exact ⟨_, hb.trans ha⟩

end Fields

theorem exists_of_mapM {items : List Datum} {values : List α} (h : items.mapM read = some values) :
    ∀ value ∈ values, ∃ datum, read datum = some value := by
  induction items generalizing values with
  | nil =>
    rw [List.mapM_nil] at h
    obtain rfl : [] = values := Option.some_inj.mp h
    exact fun value hv => absurd hv List.not_mem_nil
  | cons item rest ih =>
    rw [List.mapM_cons] at h
    obtain ⟨value, hitem, h⟩ := Option.bind_eq_some_iff.mp h
    obtain ⟨others, hrest, h⟩ := Option.bind_eq_some_iff.mp h
    obtain rfl : value :: others = values := Option.some_inj.mp h
    exact List.forall_mem_cons.mpr ⟨⟨item, hitem⟩, ih hrest⟩

theorem exists_of_list? {values : List α} (h : datum.list? read = some values) :
    ∀ value ∈ values, ∃ datum, read datum = some value := by
  unfold Datum.list? at h
  split at h
  · exact exists_of_mapM h
  · contradiction

-- The lists in a recursive form of data are read by functions of their own. They read item by item
-- and find fields by name as well.

theorem mapM_of_cons {readAll : List Datum → Option (List α)} (hnil : readAll [] = some [])
    (hcons : ∀ item rest, readAll (item :: rest) = do
      let value ← read item
      let values ← readAll rest
      return value :: values) (items : List Datum) :
    readAll items = items.mapM read := by
  induction items with
  | nil => rw [hnil, List.mapM_nil, pure, Applicative.toPure, Monad.toApplicative]; rfl
  | cons item rest ih => rw [hcons, ih, List.mapM_cons]

theorem defaulted_of_cons {readAll : List Datum → Option (List α)}
    {readField : Fields → Option (List α)} (hall : ∀ items, readAll items = items.mapM read)
    (hnil : readField [] = some [])
    (hlist : ∀ word items rest, readField ((word, .list items) :: rest) =
      if word = name then readAll items else readField rest)
    (hother : ∀ word datum rest, (∀ items, datum ≠ .list items) →
      readField ((word, datum) :: rest) = if word = name then none else readField rest)
    (fields : Fields) :
    readField fields = fields.defaulted name [] (Datum.list? read) := by
  induction fields with
  | nil => exact hnil
  | cons field rest ih =>
    obtain ⟨word, datum⟩ := field
    have hfield : Fields.defaulted ((word, datum) :: rest) name [] (Datum.list? read) =
        if word = name then datum.list? read
        else Fields.defaulted rest name [] (Datum.list? read) := by
      unfold Fields.defaulted
      rw [Fields.lookup_cons_eq]
      by_cases hw : word = name
      · simp [hw]
      · simp [hw, Ne.symm hw]
    rw [hfield, ← ih]
    by_cases hd : ∃ items, datum = .list items
    · obtain ⟨items, rfl⟩ := hd
      rw [hlist, hall]
      rfl
    · have hnot : ∀ items, datum ≠ .list items := fun items he => hd ⟨items, he⟩
      have hnone : datum.list? read = none := by
        unfold Datum.list?
        split
        · exact absurd rfl (hnot _)
        · rfl
      rw [hother word datum rest hnot, hnone]

end HeaderSynopsis.Data
