import HeaderSynopsis.Decimal.Binary64

namespace HeaderSynopsis.Data

open Decimal

inductive Datum where
  | null
  | bool (value : Bool)
  | int (value : Int)
  | float (value : Binary64)
  | text (value : String)
  -- A date, a time or both, as spelled.
  | moment (spelling : String)
  | list (items : List Datum)
  | table (fields : List (String × Datum))

abbrev Fields := List (String × Datum)

-- Equality is written out by the structure of the values, so that it can be computed for what a
-- whole text is read to.

mutual

def Datum.same : Datum → Datum → Bool
  | .null, .null => true
  | .bool a, .bool b => a = b
  | .int a, .int b => a = b
  | .float a, .float b => a = b
  | .text a, .text b => a = b
  | .moment a, .moment b => a = b
  | .list as, .list bs => Datum.allSame as bs
  | .table as, .table bs => Datum.fieldsSame as bs
  | _, _ => false

def Datum.allSame : List Datum → List Datum → Bool
  | [], [] => true
  | a :: as, b :: bs => Datum.same a b && Datum.allSame as bs
  | _, _ => false

def Datum.fieldsSame : List (String × Datum) → List (String × Datum) → Bool
  | [], [] => true
  | (name, a) :: as, (other, b) :: bs => name = other && Datum.same a b && Datum.fieldsSame as bs
  | _, _ => false

end

mutual

theorem Datum.same_iff : ∀ a b : Datum, a.same b = true ↔ a = b
  | .null, b | .bool _, b | .int _, b | .float _, b | .text _, b | .moment _, b => by
      cases b <;> simp [Datum.same]
  | .list as, b => by
      cases b with
      | list bs => rw [Datum.same, Datum.allSame_iff as bs, Datum.list.injEq]
      | _ => simp [Datum.same]
  | .table as, b => by
      cases b with
      | table bs => rw [Datum.same, Datum.fieldsSame_iff as bs, Datum.table.injEq]
      | _ => simp [Datum.same]

theorem Datum.allSame_iff : ∀ as bs : List Datum, Datum.allSame as bs = true ↔ as = bs
  | [], bs => by cases bs <;> simp [Datum.allSame]
  | a :: as, bs => by
      cases bs with
      | nil => simp [Datum.allSame]
      | cons b bs =>
        rw [Datum.allSame, Bool.and_eq_true, Datum.same_iff a b, Datum.allSame_iff as bs,
          List.cons.injEq]

theorem Datum.fieldsSame_iff :
    ∀ as bs : List (String × Datum), Datum.fieldsSame as bs = true ↔ as = bs
  | [], bs => by cases bs <;> simp [Datum.fieldsSame]
  | (name, a) :: as, bs => by
      cases bs with
      | nil => simp [Datum.fieldsSame]
      | cons field bs =>
        obtain ⟨other, b⟩ := field
        rw [Datum.fieldsSame, Bool.and_eq_true, Bool.and_eq_true, decide_eq_true_eq,
          Datum.same_iff a b, Datum.fieldsSame_iff as bs, List.cons.injEq, Prod.mk.injEq]

end

instance : DecidableEq Datum := fun a b => decidable_of_iff _ (Datum.same_iff a b)

def Fields.set (fields : Fields) (name : String) (value : Datum) : Fields :=
  if fields.any (·.1 = name) then
    fields.map fun field => if field.1 = name then (name, value) else field
  else fields ++ [(name, value)]

/-- A name has the value that it was given last. -/
@[simp]
theorem Fields.lookup_set_self (fields : Fields) (name : String) (value : Datum) :
    (fields.set name value).lookup name = some value := by
  unfold set
  split
  · rename_i present
    induction fields with
    | nil => simp at present
    | cons field rest ih =>
      by_cases h : field.1 = name
      · simp [h]
      · have later : rest.any (·.1 = name) := by simpa [h] using present
        have skipped : (name == field.1) = false := beq_false_of_ne (Ne.symm h)
        obtain ⟨other, old⟩ := field
        rw [List.map_cons, if_neg h, List.lookup_cons, skipped]
        exact ih later
  · rename_i absent
    have missing : fields.lookup name = none := by
      rw [List.lookup_eq_none_iff]
      intro field member
      have differs : ¬ field.1 = name := by
        intro same
        exact absent (List.any_eq_true.mpr ⟨field, member, by simpa using same⟩)
      simpa using fun same => differs same.symm
    simp [List.lookup_append, missing]

def Fields.required {α : Type} (fields : Fields) (name : String) (read : Datum → Option α) :
    Option α :=
  (fields.lookup name).bind read

def Fields.defaulted {α : Type} (fields : Fields) (name : String) (absent : α)
    (read : Datum → Option α) : Option α :=
  match fields.lookup name with
  | none => some absent
  | some value => read value

def Fields.optional {α : Type} (fields : Fields) (name : String) (read : Datum → Option α) :
    Option (Option α) :=
  match fields.lookup name with
  | none | some .null => some none
  | some value => (read value).map some

namespace Datum

/-- The fields of a record. It may also be written as the list of its first values, in the order of
`names`. -/
def record? (names : List String) : Datum → Option Fields
  | .table fields => some fields
  | .list items => if items.length ≤ names.length then some (names.zip items) else none
  | _ => none

def bool? : Datum → Option Bool
  | .bool value => some value
  | _ => none

def text? : Datum → Option String
  | .text value => some value
  | _ => none

def natBelow? (bound : Nat) : Datum → Option Nat
  | .int (.ofNat n) => if n < bound then some n else none
  | _ => none

def word32? (datum : Datum) : Option UInt32 := (datum.natBelow? UInt32.size).map UInt32.ofNat

def list? {α : Type} (read : Datum → Option α) : Datum → Option (List α)
  | .list items => items.mapM read
  | _ => none

mutual

def fitsWords : Datum → Bool
  | .int value => decide (-(twoTo 63 : Int) ≤ value ∧ value < twoTo 64)
  | .list items => allFitWords items
  | .table fields => fieldsFitWords fields
  | _ => true

def allFitWords : List Datum → Bool
  | [] => true
  | item :: rest => item.fitsWords && allFitWords rest

def fieldsFitWords : List (String × Datum) → Bool
  | [] => true
  | (_, value) :: rest => value.fitsWords && fieldsFitWords rest

end

end Datum

inductive Blank where
  | null
  | nullOrEmptyTable
  | emptyTableOrList
deriving DecidableEq, Repr

def Blank.admits : Blank → Datum → Bool
  | .null, .null => true
  | .nullOrEmptyTable, .null => true
  | .nullOrEmptyTable, .table [] => true
  | .emptyTableOrList, .table [] => true
  | .emptyTableOrList, .list [] => true
  | _, _ => false

def Datum.word? {α : Type} (words : List (String × α)) (blank : Blank) : Datum → Option α
  | .text word => words.lookup word
  | .table [(word, value)] => if blank.admits value then words.lookup word else none
  | _ => none

inductive TagForm where
  | word
  | wordOrPosition
deriving DecidableEq, Repr

/-- Reads a tag: one of the words, or its position among them. -/
def Datum.tag? {α : Type} (words : List (String × α)) : TagForm → Datum → Option α
  | _, .text word => words.lookup word
  | .wordOrPosition, .int (.ofNat n) => (words[n]?).map (·.2)
  | _, _ => none

end HeaderSynopsis.Data
