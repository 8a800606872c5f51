import HeaderSynopsis.Writing.Types
import Mathlib.Data.Finset.Insert

/-!
Types of pointers and qualifiers, and how their tokens are read. In front of the base type a
qualifier belongs to it, behind a star to that pointer. A qualifier is written behind a type that is
a pointer itself, so one around a qualified pointer goes to the front. Main result: the tokens always
have the base and the pointers of the type, and they have its qualifiers exactly if none goes to the
front of a pointer type that changes its meaning there.
-/

namespace HeaderSynopsis.Declaration

open Writing

inductive Qualifier where
  | const
  | volatile
deriving DecidableEq, Repr

namespace Qualifier

def word : Qualifier → String
  | .const => "const"
  | .volatile => "volatile"

def ofWord? (word : String) : Option Qualifier :=
  if word = "const" then some .const else if word = "volatile" then some .volatile else none

def around : Qualifier → CppType → CppType
  | .const => .const
  | .volatile => .volatile

theorem ofWord?_word (q : Qualifier) : ofWord? q.word = some q := by cases q <;> rfl

end Qualifier

inductive PointerType where
  | builtin (spelling : String)
  | qualified (qualifier : Qualifier) (inner : PointerType)
  | pointer (inner : PointerType)

def PointerType.toType : PointerType → CppType
  | .builtin spelling => .builtin spelling
  | .qualified q inner => q.around inner.toType
  | .pointer inner => .pointer inner.toType

structure Levels where
  base : String
  baseQualifiers : Finset Qualifier := ∅
  pointers : List (Finset Qualifier) := []
deriving DecidableEq

namespace Levels

def point (levels : Levels) : Levels := { levels with pointers := ∅ :: levels.pointers }

def qualifyBase (q : Qualifier) (levels : Levels) : Levels :=
  { levels with baseQualifiers := insert q levels.baseQualifiers }

def qualify (q : Qualifier) (levels : Levels) : Levels :=
  match levels.pointers with
  | [] => levels.qualifyBase q
  | outermost :: rest => { levels with pointers := insert q outermost :: rest }

/-- One more token, behind those that were read. Of the keywords in front of the first star all but
the last one are qualifiers. -/
def next? (levels : Levels) : Write → Option Levels
  | .space => some levels
  | .token .punctuation "*" => some levels.point
  | .token .keyword word =>
      match levels.pointers with
      | [] => (Qualifier.ofWord? levels.base).map fun q => { levels.qualifyBase q with base := word }
      | _ :: _ => (Qualifier.ofWord? word).map levels.qualify
  | _ => none

end Levels

def readLevels : List Write → Option Levels
  | .token .keyword word :: rest => rest.foldlM Levels.next? { base := word }
  | _ => none

example : readLevels [.keyword "const", .space, .keyword "char", .punctuation "*",
    .punctuation "*", .space, .keyword "volatile"] =
      some ⟨"char", {.const}, [{.volatile}, ∅]⟩ := by decide

namespace PointerType

/-- The levels of a type: a qualifier belongs to what is outermost in the type that it is around. -/
def meaning : PointerType → Levels
  | builtin spelling => { base := spelling }
  | qualified q inner => inner.meaning.qualify q
  | pointer inner => inner.meaning.point

/-- The levels of its tokens: a qualifier is in front unless it is immediately around a pointer. -/
def spelled : PointerType → Levels
  | builtin spelling => { base := spelling }
  | qualified q inner =>
      if inner.toType.isPointer then inner.spelled.qualify q else inner.spelled.qualifyBase q
  | pointer inner => inner.spelled.point

/-- Every qualifier in front is one of the base type. A qualifier around a qualified pointer is in
front as well, and there it only does no harm if both the base type and the pointer already have
it. -/
def KeepsQualifiers : PointerType → Prop
  | builtin _ => True
  | qualified q inner =>
      inner.KeepsQualifiers ∧ (inner.toType.isPointer = true ∨ inner.meaning.pointers = [] ∨
        q ∈ inner.meaning.baseQualifiers ∧ inner.meaning.qualify q = inner.meaning)
  | pointer inner => inner.KeepsQualifiers

end PointerType

namespace Levels

variable {levels : Levels}

theorem next?_qualifyBase (q : Qualifier) (levels : Levels) (w : Write) :
    (levels.qualifyBase q).next? w = (levels.next? w).map (qualifyBase q) := by
  obtain ⟨base, baseQualifiers, pointers⟩ := levels
  cases w with
  | token kind text =>
    cases kind with
    | punctuation =>
      by_cases hstar : text = "*"
      · subst hstar
        rfl
      · simp [next?, hstar]
    | keyword =>
      cases pointers with
      | nil =>
        -- The base type so far turns out to be a qualifier, and the next keyword is the base type.
        simp only [next?, qualifyBase]
        cases Qualifier.ofWord? base with
        | none => rfl
        | some other =>
          exact congrArg (fun qualifiers => some (Levels.mk text qualifiers []))
            (Finset.insert_comm other q baseQualifiers)
      | cons outermost rest =>
        simp only [next?, qualifyBase]
        cases Qualifier.ofWord? text <;> rfl
    | _ => rfl
  | _ => rfl

/-- A further qualifier of the base type does not change how the rest is read. -/
theorem foldlM_qualifyBase (q : Qualifier) (ws : List Write) (levels : Levels) :
    ws.foldlM next? (levels.qualifyBase q) = (ws.foldlM next? levels).map (qualifyBase q) := by
  induction ws generalizing levels with
  | nil => rfl
  | cons w rest ih =>
    rw [List.foldlM_cons, List.foldlM_cons, next?_qualifyBase]
    cases levels.next? w with
    | none => rfl
    | some read => exact ih read

theorem next?_keyword (q : Qualifier) (h : levels.pointers ≠ []) :
    levels.next? (.keyword q.word) = some (levels.qualify q) := by
  obtain ⟨base, baseQualifiers, pointers⟩ := levels
  cases pointers with
  | nil => exact absurd rfl h
  | cons outermost rest => exact congrArg (Option.map _) q.ofWord?_word

end Levels

theorem readLevels_append {ws : List Write} {levels : Levels} (h : readLevels ws = some levels)
    (more : List Write) : readLevels (ws ++ more) = more.foldlM Levels.next? levels := by
  unfold readLevels at h
  split at h
  · rename_i word rest
    change (rest ++ more).foldlM Levels.next? { base := word } = _
    rw [List.foldlM_append, h]
    rfl
  · cases h

theorem readLevels_front {ws : List Write} {levels : Levels} (h : readLevels ws = some levels)
    (q : Qualifier) :
    readLevels ([.keyword q.word, .space] ++ ws) = some (levels.qualifyBase q) := by
  unfold readLevels at h
  split at h
  · rename_i word rest
    have hword : Levels.next? { base := q.word } (.keyword word) =
        some (Levels.qualifyBase q { base := word }) := by
      exact congrArg (Option.map _) q.ofWord?_word
    change (Levels.next? { base := q.word } (.keyword word)).bind _ = _
    rw [hword]
    change rest.foldlM Levels.next? (Levels.qualifyBase q { base := word }) = _
    rw [Levels.foldlM_qualifyBase, h]
    rfl
  · cases h

theorem Qualifier.around_isPointer (q : Qualifier) (type : CppType) :
    (q.around type).isPointer = false := by cases q <;> rfl

theorem Qualifier.writes_around (q : Qualifier) (type : CppType) :
    (q.around type).writes =
      if type.isPointer then type.writes ++ [.space, .keyword q.word]
      else [.keyword q.word, .space] ++ type.writes := by
  cases q <;> exact List.append_nil _

theorem CppType.writes_pointer (inner : CppType) :
    (CppType.pointer inner).writes = inner.writes ++ [.punctuation "*"] := List.append_nil _

namespace PointerType

theorem exists_of_isPointer {t : PointerType} (h : t.toType.isPointer = true) :
    ∃ inner, t = pointer inner := by
  cases t with
  | builtin spelling => exact absurd h Bool.false_ne_true
  | qualified q inner => exact absurd (h.symm.trans (q.around_isPointer _)) (by decide)
  | pointer inner => exact ⟨inner, rfl⟩

/-- The tokens of a type are read without error. -/
theorem readLevels_writes (t : PointerType) : readLevels t.toType.writes = some t.spelled := by
  induction t with
  | builtin spelling => rfl
  | qualified q inner ih =>
    rw [toType, q.writes_around, spelled]
    split
    -- Behind the star of a pointer the qualifier is read at the end, otherwise before everything.
    · rename_i h
      obtain ⟨pointee, rfl⟩ := exists_of_isPointer h
      rw [readLevels_append ih, List.foldlM_cons, Levels.next?]
      simpa using Levels.next?_keyword q (List.cons_ne_nil _ _)
    · exact readLevels_front ih q
  | pointer inner ih =>
    rw [toType, CppType.writes_pointer, readLevels_append ih]
    rfl

end PointerType

namespace Levels

structure Strays (spelled meaning : Levels) : Prop where
  base : spelled.base = meaning.base
  baseQualifiers : meaning.baseQualifiers ⊆ spelled.baseQualifiers
  -- There are as many pointers, and none has got a qualifier.
  pointers : List.Forall₂ (· ⊆ ·) spelled.pointers meaning.pointers

variable {spelled meaning : Levels}

theorem Strays.point (h : Strays spelled meaning) : Strays spelled.point meaning.point :=
  ⟨h.base, h.baseQualifiers, .cons (Finset.Subset.refl _) h.pointers⟩

theorem Strays.qualify (h : Strays spelled meaning) (q : Qualifier) :
    Strays (spelled.qualify q) (meaning.qualify q) := by
  obtain ⟨base, baseQualifiers, pointers⟩ := spelled
  obtain ⟨base', baseQualifiers', pointers'⟩ := meaning
  obtain ⟨hbase, hqualifiers, hpointers⟩ := h
  cases hpointers with
  | nil => exact ⟨hbase, Finset.insert_subset_insert q hqualifiers, .nil⟩
  | cons houter hrest =>
    exact ⟨hbase, hqualifiers, .cons (Finset.insert_subset_insert q houter) hrest⟩

theorem Strays.qualifyBase (h : Strays spelled meaning) (q : Qualifier) :
    Strays (spelled.qualifyBase q) (meaning.qualify q) := by
  obtain ⟨base, baseQualifiers, pointers⟩ := spelled
  obtain ⟨base', baseQualifiers', pointers'⟩ := meaning
  obtain ⟨hbase, hqualifiers, hpointers⟩ := h
  cases hpointers with
  | nil => exact ⟨hbase, Finset.insert_subset_insert q hqualifiers, .nil⟩
  | cons houter hrest =>
    exact ⟨hbase, hqualifiers.trans (Finset.subset_insert q _),
      .cons (houter.trans (Finset.subset_insert q _)) hrest⟩

theorem point_inj : spelled.point = meaning.point ↔ spelled = meaning := by
  obtain ⟨base, baseQualifiers, pointers⟩ := spelled
  obtain ⟨base', baseQualifiers', pointers'⟩ := meaning
  simp [point]

theorem qualify_point_inj (q : Qualifier) :
    spelled.point.qualify q = meaning.point.qualify q ↔ spelled = meaning := by
  obtain ⟨base, baseQualifiers, pointers⟩ := spelled
  obtain ⟨base', baseQualifiers', pointers'⟩ := meaning
  simp [point, qualify]

/-- In front of a pointer type a qualifier changes the meaning unless it is there already. -/
theorem Strays.qualifyBase_eq_iff (h : Strays spelled meaning) (q : Qualifier)
    (hp : meaning.pointers ≠ []) :
    spelled.qualifyBase q = meaning.qualify q ↔
      spelled = meaning ∧ q ∈ meaning.baseQualifiers ∧ meaning.qualify q = meaning := by
  constructor
  · intro he
    obtain ⟨base, baseQualifiers, pointers⟩ := spelled
    obtain ⟨base', baseQualifiers', pointers'⟩ := meaning
    obtain ⟨hbase, hqualifiers, hpointers⟩ := h
    cases hpointers with
    | nil => exact absurd rfl hp
    | @cons outer outer' rest rest' houter hrest =>
      simp only [Levels.qualifyBase, Levels.qualify, mk.injEq, List.cons.injEq] at he
      obtain ⟨rfl, rfl, rfl, rfl⟩ := he
      -- The base type must not have got a qualifier, nor the pointer have lacked one.
      have hsame : insert q baseQualifiers = baseQualifiers :=
        Finset.Subset.antisymm hqualifiers (Finset.subset_insert q _)
      have houtermost : insert q outer' = outer' :=
        Finset.Subset.antisymm houter (Finset.subset_insert q _)
      refine ⟨?_, Finset.mem_insert_self q _, ?_⟩
      · rw [hsame, houtermost]
      · exact congrArg (fun outermost => Levels.mk base _ (outermost :: rest)) houtermost
  · rintro ⟨rfl, hq, hsame⟩
    rw [hsame, Levels.qualifyBase, Finset.insert_eq_of_mem hq]

end Levels

theorem PointerType.strays (t : PointerType) : Levels.Strays t.spelled t.meaning := by
  induction t with
  | builtin spelling => exact ⟨rfl, Finset.Subset.refl _, .nil⟩
  | qualified q inner ih =>
    rw [spelled, meaning]
    split
    · exact ih.qualify q
    · exact ih.qualifyBase q
  | pointer inner ih => exact ih.point

namespace PointerType

/-- Without any pointer every qualifier is one of the base type. -/
theorem keepsQualifiers_of_no_pointers {t : PointerType} (h : t.meaning.pointers = []) :
    t.KeepsQualifiers := by
  induction t with
  | builtin spelling => trivial
  | qualified q inner ih =>
    have hinner : inner.meaning.pointers = [] := by
      rw [meaning, Levels.qualify] at h
      split at h
      · assumption
      · exact absurd h (List.cons_ne_nil _ _)
    exact ⟨ih hinner, Or.inr (Or.inl hinner)⟩
  | pointer inner ih => exact absurd h (List.cons_ne_nil _ _)

theorem spelled_eq_meaning_iff (t : PointerType) : t.spelled = t.meaning ↔ t.KeepsQualifiers := by
  induction t with
  | builtin spelling => exact iff_of_true rfl trivial
  | qualified q inner ih =>
    rw [spelled, meaning, KeepsQualifiers]
    by_cases hp : inner.toType.isPointer = true
    · -- The qualifier goes to the pointer, whose own qualifiers nobody has changed before.
      obtain ⟨pointee, rfl⟩ := exists_of_isPointer hp
      rw [if_pos hp, and_iff_left (Or.inl hp), ← ih, spelled, meaning, Levels.qualify_point_inj,
        Levels.point_inj]
    -- It goes to the front, which is right only if the base type is outermost.
    rw [if_neg hp]
    by_cases hn : inner.meaning.pointers = []
    · have hkeeps := keepsQualifiers_of_no_pointers hn
      have hbase : inner.meaning.qualify q = inner.meaning.qualifyBase q := by
        rw [Levels.qualify, hn]
      rw [ih.mpr hkeeps, hbase]
      exact iff_of_true rfl ⟨hkeeps, Or.inr (Or.inl hn)⟩
    · rw [inner.strays.qualifyBase_eq_iff q hn, ih, or_iff_right hp, or_iff_right hn]
  | pointer inner ih => exact Levels.point_inj.trans ih

/-- The tokens of a type are read as its base type with as many pointers, where qualifiers may only
have strayed from a pointer to the base type. They are read as the type itself exactly if no qualifier
of a pointer is written in front, except where it does no harm. -/
theorem readLevels_writes_eq_meaning_iff (t : PointerType) :
    ∃ read, readLevels t.toType.writes = some read ∧
      read.pointers.length = t.meaning.pointers.length ∧ Levels.Strays read t.meaning ∧
      (read = t.meaning ↔ t.KeepsQualifiers) :=
  ⟨t.spelled, t.readLevels_writes, t.strays.pointers.length_eq, t.strays, t.spelled_eq_meaning_iff⟩

def frozenPort : PointerType := qualified .const (qualified .volatile (pointer (builtin "int")))

/-- It is written as a volatile pointer to a constant. -/
theorem readLevels_frozenPort :
    frozenPort.meaning = ⟨"int", ∅, [{.const, .volatile}]⟩ ∧
      readLevels frozenPort.toType.writes = some ⟨"int", {.const}, [{.volatile}]⟩ := by
  decide

end PointerType

end HeaderSynopsis.Declaration
