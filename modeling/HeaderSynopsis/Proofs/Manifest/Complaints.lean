import HeaderSynopsis.Proofs.Manifest.Loading
import Mathlib.Tactic.Tauto

namespace HeaderSynopsis.Manifest

open Declaration

inductive Rule where
  | placement
  | naming
  | identity
  | children
  | heads
deriving DecidableEq, Repr

def Rule.inOrder : List Rule := [.placement, .naming, .identity, .children, .heads]

theorem Rule.mem_inOrder (rule : Rule) : rule ∈ inOrder := by
  cases rule <;> decide

/-- Whether a definition breaks a rule; `seen` are the identities of the definitions before it. -/
def Placed.Breaks (p : Placed) (seen : List Id) : Rule → Prop
  | .placement =>
      p.definition.kind.word = "file" ∨
      p.definition.kind.word = "access" ∧ p.place.kind.word ≠ "class" ∨
      p.definition.kind.word = "enumerator" ∧ p.place.kind.word ≠ "enum" ∨
      p.definition.kind.word ≠ "enumerator" ∧ p.place.kind.word = "enum"
  | .naming =>
      p.definition.kind.isAnonymous = false ∧ nameFault? p.definition.name ≠ none ∧
        ¬(p.definition.name = "" ∧ p.definition.kind.word ∈ ["namespace", "class", "enum"])
  | .identity => p.id ∈ seen
  | .children => p.definition.children ≠ [] ∧ p.definition.kind.acceptsChildren = false
  | .heads => p.definition.template ≠ none ∧ p.definition.specialization ≠ none

structure Enclosed where
  around : List Definition
  placed : Placed

namespace Enclosed

abbrev definition (e : Enclosed) : Definition := e.placed.definition

def id (e : Enclosed) : Id := e.placed.id

def context (e : Enclosed) : String :=
  if e.around = [] then e.definition.kind.word
  else
    e.definition.kind.word ++ " in '" ++
      "::".intercalate (e.around.map Definition.pathSegment) ++ "'"

/-- What is said of a definition that breaks a rule. -/
inductive Complaint (source : Source) (e : Enclosed) : Rule → Problem → Prop
  | misplaced {home : Home} (h : home? e.definition.kind e.placed.place.kind = some home) :
      Complaint source e .placement
        (.misplaced e.definition.kind.word
          (if e.placed.place.parent.text = "" then source.filename
            else e.placed.place.parent.text)
          home (source.firstSpan? e.definition.name))
  | nameMissing (h : e.definition.name = "") :
      Complaint source e .naming (.nameMissing e.context)
  | badName {fault : NameFault} (hne : e.definition.name ≠ "")
      (h : nameFault? e.definition.name = some fault) :
      Complaint source e .naming
        (.badName e.definition.name e.context fault (source.firstSpan? e.definition.name))
  | duplicateId :
      Complaint source e .identity
        (.duplicateId e.id (source.firstSpan? e.definition.needle)
          (source.lastSpan? e.definition.needle))
  | unexpectedChildren :
      Complaint source e .children
        (.unexpectedChildren e.definition.kind.word e.id (source.firstSpan? e.definition.needle))
  | templateAndSpecialization :
      Complaint source e .heads
        (.templateAndSpecialization e.id (source.firstSpan? e.definition.needle))

end Enclosed

def Placed.ruleProblem? (source : Source) (seen : List Id) (p : Placed) : Rule → Option Problem
  | .placement => p.definition.placementProblem? source p.place
  | .naming => p.definition.namingProblem? source p.place
  | .identity => p.definition.identityProblem? source seen p.id
  | .children => p.definition.childrenProblem? source p.id
  | .heads => p.definition.templateProblem? source p.id

theorem Placed.ruleProblem?_eq_none_iff {source : Source} {seen : List Id} {p : Placed}
    {rule : Rule} : p.ruleProblem? source seen rule = none ↔ ¬p.Breaks seen rule := by
  cases rule with
  | placement =>
    rw [ruleProblem?, Definition.placementProblem?_eq_none, Breaks]
    tauto
  | naming =>
    rw [ruleProblem?, Definition.namingProblem?_eq_none, Breaks]
    tauto
  | identity => exact Definition.identityProblem?_eq_none
  | children =>
    rw [ruleProblem?, Definition.childrenProblem?_eq_none, Breaks]
    simp
  | heads =>
    rw [ruleProblem?, Definition.templateProblem?_eq_none, Breaks]
    tauto

/-- The problem of a definition is that of the first rule for which there is one. -/
theorem Placed.problem?_eq_findSome? (source : Source) (seen : List Id) (p : Placed) :
    p.definition.problem? source p.place seen p.id =
      Rule.inOrder.findSome? (p.ruleProblem? source seen) := by
  simp only [Rule.inOrder, List.findSome?_cons, List.findSome?_nil, ruleProblem?,
    Definition.problem?]
  cases p.definition.placementProblem? source p.place <;>
    cases p.definition.namingProblem? source p.place <;>
    cases p.definition.identityProblem? source seen p.id <;>
    cases p.definition.childrenProblem? source p.id <;>
    cases p.definition.templateProblem? source p.id <;> rfl

/-- What is found first is found at some item, and at none before it. -/
theorem findSome?_eq_some_iff_takeWhile {α β : Type} [DecidableEq α] {f : α → Option β}
    {l : List α} {b : β} :
    l.findSome? f = some b ↔
      ∃ a ∈ l, f a = some b ∧ ∀ x ∈ l.takeWhile (· ≠ a), f x = none := by
  -- Up to the first `a`, a list is what comes before it.
  have htake {before after : List α} {a : α} (hn : a ∉ before) :
      (before ++ a :: after).takeWhile (· ≠ a) = before := by
    have hne : ∀ x ∈ before, decide (x ≠ a) = true := by
      intro x hx
      apply decide_eq_true
      rintro rfl
      exact hn hx
    rw [List.takeWhile_append_of_pos hne]
    simp
  rw [List.findSome?_eq_some_iff]
  constructor
  · rintro ⟨before, a, after, rfl, ha, hnone⟩
    have hn : a ∉ before := by
      intro hm
      rw [hnone a hm] at ha
      cases ha
    refine ⟨a, List.mem_append_right _ List.mem_cons_self, ha, ?_⟩
    rwa [htake hn]
  · rintro ⟨a, hm, ha, hnone⟩
    obtain ⟨before, after, rfl, hn⟩ := List.eq_append_cons_of_mem hm
    rw [htake hn] at hnone
    exact ⟨before, a, after, rfl, ha, hnone⟩

namespace Enclosed

variable {source : Source} {seen : List Id} {e : Enclosed} {rule : Rule} {problem : Problem}

theorem describe_path (h : e.placed.place.path = e.around.map Definition.pathSegment) :
    describe e.placed.place.path e.definition.kind.word = e.context := by
  rw [describe, h, context, pathText]
  cases e.around <;> rfl

/-- There is one thing only to be said. -/
theorem Complaint.unique {other : Problem} (h : e.Complaint source rule problem)
    (h' : e.Complaint source rule other) : problem = other := by
  cases h with
  | misplaced h =>
    cases h' with
    | misplaced h' =>
      obtain rfl := Option.some.inj (h.symm.trans h')
      rfl
  | nameMissing h =>
    cases h' with
    | nameMissing _ => rfl
    | badName hne _ => exact absurd h hne
  | badName hne h =>
    cases h' with
    | nameMissing h' => exact absurd h' hne
    | badName _ h' =>
      obtain rfl := Option.some.inj (h.symm.trans h')
      rfl
  | duplicateId => cases h'; rfl
  | unexpectedChildren => cases h'; rfl
  | templateAndSpecialization => cases h'; rfl

/-- The problem with a rule is said of the definition that breaks it. -/
theorem complaint_of_ruleProblem?
    (hpath : e.placed.place.path = e.around.map Definition.pathSegment)
    (h : e.placed.ruleProblem? source seen rule = some problem) :
    e.placed.Breaks seen rule ∧ e.Complaint source rule problem := by
  have hb : e.placed.Breaks seen rule := by
    apply Classical.byContradiction
    intro hb
    rw [Placed.ruleProblem?_eq_none_iff.mpr hb] at h
    cases h
  -- One case for each rule. Only names have two messages, for a missing one and for a bad one.
  refine ⟨hb, ?_⟩
  cases rule with
  | placement =>
    obtain ⟨home, hhome, rfl⟩ := Option.map_eq_some_iff.mp h
    exact .misplaced hhome
  | naming =>
    rw [Placed.ruleProblem?, Definition.namingProblem?, if_neg (by simp [hb.1])] at h
    by_cases hname : e.definition.name = ""
    · rw [if_pos hname, describe_path hpath] at h
      split at h
      · cases h
      · cases h
        exact .nameMissing hname
    · rw [if_neg hname] at h
      obtain ⟨fault, hfault, rfl⟩ := Option.map_eq_some_iff.mp h
      rw [describe_path hpath]
      exact .badName hname hfault
  | identity =>
    have hseen : e.placed.id ∈ seen := hb
    rw [Placed.ruleProblem?, Definition.identityProblem?, if_pos hseen] at h
    cases h
    exact .duplicateId
  | children =>
    rw [Placed.ruleProblem?, Definition.childrenProblem?, if_pos (by simp [hb.1, hb.2])] at h
    cases h
    exact .unexpectedChildren
  | heads =>
    rw [Placed.ruleProblem?, Definition.templateProblem?,
      if_pos (by simp [Option.isSome_iff_ne_none, hb.1, hb.2])] at h
    cases h
    exact .templateAndSpecialization

/-- The problem with a rule is what is said of a definition that breaks it. -/
theorem ruleProblem?_eq_some_iff
    (hpath : e.placed.place.path = e.around.map Definition.pathSegment) :
    e.placed.ruleProblem? source seen rule = some problem ↔
      e.placed.Breaks seen rule ∧ e.Complaint source rule problem := by
  constructor
  · exact complaint_of_ruleProblem? hpath
  · rintro ⟨hb, hc⟩
    have hsome : e.placed.ruleProblem? source seen rule ≠ none := by
      rw [Ne, Placed.ruleProblem?_eq_none_iff]
      exact not_not_intro hb
    obtain ⟨other, hother⟩ := Option.ne_none_iff_exists'.mp hsome
    rw [hother, (complaint_of_ruleProblem? hpath hother).2.unique hc]

def problem? (source : Source) (seen : List Id) (e : Enclosed) : Option Problem :=
  e.definition.problem? source e.placed.place seen e.id

theorem problem?_eq_none_iff :
    e.problem? source seen = none ↔ ∀ rule, ¬e.placed.Breaks seen rule := by
  rw [problem?, id, e.placed.problem?_eq_findSome?, List.findSome?_eq_none_iff]
  simp only [Placed.ruleProblem?_eq_none_iff, Rule.mem_inOrder, true_imp_iff]

/-- A definition has the problem with the first rule that it breaks. -/
theorem problem?_eq_some_iff
    (hpath : e.placed.place.path = e.around.map Definition.pathSegment) :
    e.problem? source seen = some problem ↔
      ∃ rule, e.placed.Breaks seen rule ∧
        (∀ other ∈ Rule.inOrder.takeWhile (· ≠ rule), ¬e.placed.Breaks seen other) ∧
        e.Complaint source rule problem := by
  rw [problem?, id, e.placed.problem?_eq_findSome?, findSome?_eq_some_iff_takeWhile]
  simp only [ruleProblem?_eq_some_iff hpath, Placed.ruleProblem?_eq_none_iff, Rule.mem_inOrder,
    true_and]
  constructor
  · rintro ⟨rule, ⟨hb, hc⟩, hfirst⟩
    exact ⟨rule, hb, hfirst, hc⟩
  · rintro ⟨rule, hb, hfirst, hc⟩
    exact ⟨rule, ⟨hb, hc⟩, hfirst⟩

end Enclosed

end HeaderSynopsis.Manifest
