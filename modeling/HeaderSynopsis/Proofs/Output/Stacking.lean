import HeaderSynopsis.Proofs.Generation.Course
import HeaderSynopsis.Proofs.Output.Reduction

namespace HeaderSynopsis.Output

open Declaration Writing Generation

namespace Selection

def union (selection other : Selection) : Selection where
  omitted := selection.omitted ++ other.omitted
  declarations := selection.declarations ++ other.declarations
  omittedKinds := selection.omittedKinds ++ other.omittedKinds

section

variable {selection other : Selection} {entity : Entity}

theorem excludes_union :
    (selection.union other).Excludes entity ↔ selection.Excludes entity ∨ other.Excludes entity := by
  simp only [Excludes, union, List.mem_append]
  tauto

theorem mem_declarations_union {id : Id} :
    id ∈ (selection.union other).declarations ↔
      id ∈ selection.declarations ∨ id ∈ other.declarations := List.mem_append

/-- Two selections together allow the smaller of the amounts that each of them allows. -/
theorem limit_union (selection other : Selection) (entity : Entity) :
    (selection.union other).limit entity = (selection.limit entity).min (other.limit entity) := by
  by_cases hs : selection.Excludes entity
  · rw [limit_of_excludes hs, limit_of_excludes (excludes_union.mpr (Or.inl hs)), Detail.omitted_min]
  by_cases ho : other.Excludes entity
  · rw [limit_of_excludes ho, limit_of_excludes (excludes_union.mpr (Or.inr ho)), Detail.min_omitted]
  have hu : ¬(selection.union other).Excludes entity := fun h => (excludes_union.mp h).elim hs ho
  by_cases hds : entity.id ∈ selection.declarations
  · rw [limit_of_declarations hs hds,
      limit_of_declarations hu (mem_declarations_union.mpr (Or.inl hds))]
    by_cases hdo : entity.id ∈ other.declarations
    · rw [limit_of_declarations ho hdo, Detail.min_self]
    · rw [limit_of_notMem ho hdo, Detail.min_definition]
  · rw [limit_of_notMem hs hds, Detail.min_comm, Detail.min_definition]
    by_cases hdo : entity.id ∈ other.declarations
    · rw [limit_of_declarations ho hdo,
        limit_of_declarations hu (mem_declarations_union.mpr (Or.inr hdo))]
    · rw [limit_of_notMem ho hdo,
        limit_of_notMem hu fun h => (mem_declarations_union.mp h).elim hds hdo]

end

section

variable {σ : Type} {selection other : Selection} {entity : Entity}

/-- What is left by two selections is left by both of them together. The upper one is asked first,
but each of them can only make less of what the other leaves. -/
theorem narrow_narrow (selection other : Selection) (g : Generator σ) :
    other.narrow (selection.narrow g) = (selection.union other).narrow g := by
  have henter : (other.narrow (selection.narrow g)).enter =
      ((selection.union other).narrow g).enter := by
    funext container entity s
    have hunion := selection.limit_union other entity
    by_cases ho : other.limit entity = .omitted
    · rw [ho, Detail.min_omitted] at hunion
      rw [enter_narrow_of_omitted _ ho, enter_narrow_of_omitted _ hunion]
    by_cases hs : selection.limit entity = .omitted
    · rw [hs, Detail.omitted_min] at hunion
      rw [enter_narrow_of_ne _ ho, enter_narrow_of_omitted _ hs, enter_narrow_of_omitted _ hunion,
        Option.map_some, Detail.omitted_min]
    · have hne : (selection.union other).limit entity ≠ .omitted := by
        rw [hunion, Ne, Detail.min_eq_omitted_iff]
        exact fun h => h.elim hs ho
      rw [enter_narrow_of_ne _ ho, enter_narrow_of_ne _ hs, enter_narrow_of_ne _ hne,
        Option.map_map, hunion]
      simp only [Function.comp_def, Detail.min_assoc]
  exact congrArg (fun enter => Generator.mk enter g.leave g.write) henter

def Admits (selection : Selection) : Showing → Prop
  | .enter _ entity | .leave entity => ¬selection.Excludes entity
  | .write _ => True

theorem admits_union {shown : Showing} :
    (selection.union other).Admits shown ↔ selection.Admits shown ∧ other.Admits shown := by
  cases shown with
  | enter container entity =>
    rw [Admits, excludes_union, not_or]
    rfl
  | leave entity =>
    rw [Admits, excludes_union, not_or]
    rfl
  | write w => exact ⟨fun _ => ⟨trivial, trivial⟩, fun _ => trivial⟩

def AdmitsAll (selection : Selection) (s : σ × List Showing) : Prop :=
  ∀ shown ∈ s.2, selection.Admits shown

theorem AdmitsAll.push {s : σ × List Showing} (h : selection.AdmitsAll s) {o : Showing}
    (ho : selection.Admits o) (next : σ) : selection.AdmitsAll (next, s.2 ++ [o]) :=
  List.forall_mem_append.mpr ⟨h, List.forall_mem_singleton.mpr ho⟩

variable {g : Generator σ}

theorem AdmitsAll.writeAll {s : σ × List Showing} (h : selection.AdmitsAll s) (ws : List Write) :
    selection.AdmitsAll ((selection.narrow g.listing).writeAll ws s) := by
  induction ws generalizing s with
  | nil => exact h
  | cons w ws ih => exact ih (h.push (o := .write w) trivial _)

theorem AdmitsAll.generateInside {s : σ × List Showing} (h : selection.AdmitsAll s)
    (hall : ∀ s, selection.AdmitsAll s →
      selection.AdmitsAll (generateAll (selection.narrow g.listing) entity.children s).state)
    (detail : Detail) :
    selection.AdmitsAll
      (Generation.generateInside (selection.narrow g.listing) entity detail s).state := by
  unfold Generation.generateInside
  split
  · split
    · exact Outcome.andThen_keeps (hall _ (h.writeAll _)) fun s hs => hs.writeAll _
    · exact h.writeAll _
  · exact h

/-- A generator below a selection is never shown an entity that the selection excludes. -/
theorem AdmitsAll.generate {s : σ × List Showing} (h : selection.AdmitsAll s) (entity : Entity) :
    selection.AdmitsAll (Generation.generate (selection.narrow g.listing) entity s).state := by
  induction entity using Entity.tree_induction generalizing s with
  | node entity ih =>
    -- The children come first, as the run inside the entity may go through all of them.
    have hall : ∀ s, selection.AdmitsAll s →
        selection.AdmitsAll
          (generateAll (selection.narrow g.listing) entity.children s).state := by
      generalize entity.children = children at ih
      induction children with
      | nil => exact fun s hs => hs
      | cons child rest ihrest =>
        rw [List.forall_mem_cons] at ih
        exact fun s hs => Outcome.andThen_keeps (ih.1 hs) (ihrest ih.2)
    rw [generate_eq_scope, scope]
    by_cases hl : selection.limit entity = .omitted
    · rw [enter_narrow_of_omitted _ hl]
      cases entity.isContainer <;> exact h.generateInside hall .omitted
    · -- The generator is asked, and it learns of the end if it wanted anything.
      have hkept : ¬selection.Excludes entity := not_excludes_of_limit hl
      rw [enter_narrow_of_ne _ hl]
      have hentered : selection.AdmitsAll (g.listing.enter entity.isContainer entity s).2 :=
        h.push (o := .enter entity.isContainer entity) hkept _
      cases (g.listing.enter entity.isContainer entity s).1 with
      | none => exact hentered
      | some detail =>
        have hinside := hentered.generateInside hall (detail.min (selection.limit entity))
        dsimp only [Option.map_some]
        split
        · exact hinside.push (o := .leave entity) hkept _
        · exact hinside

end

def through {σ : Type} (selections : List Selection) (g : Generator σ) (entity : Entity) (s : σ) :
    Outcome (σ × List Showing) :=
  generate (selections.foldr narrow g.listing) entity (s, [])

/-- Through two selections a generator is shown exactly what it is shown through the one that names
all that they name. It makes no difference which of them is on top or whether one is there twice,
and no entity that one of them excludes is shown. -/
theorem through_stacked {σ : Type} (g : Generator σ) (selection other : Selection) (entity : Entity)
    (s : σ) :
    through [other, selection] g entity s = through [selection.union other] g entity s ∧
    through [other, selection] g entity s = through [selection, other] g entity s ∧
    through [selection, selection] g entity s = through [selection] g entity s ∧
    ∀ shown ∈ (through [other, selection] g entity s).state.2,
      selection.Admits shown ∧ other.Admits shown := by
  have hunion (selection other : Selection) :
      through [other, selection] g entity s = through [selection.union other] g entity s :=
    congrArg (fun narrowed => generate narrowed entity (s, [])) (narrow_narrow _ _ _)
  have hcongr {selection other : Selection}
      (h : ∀ entity, selection.limit entity = other.limit entity) :
      through [selection] g entity s = through [other] g entity s :=
    congrFun (generate_narrow_congr (fun e _ => h e) g.listing) (s, [])
  refine ⟨hunion _ _, ?_, ?_, fun shown hm => ?_⟩
  · rw [hunion, hunion]
    exact hcongr fun entity => by rw [limit_union, limit_union, Detail.min_comm]
  · rw [hunion]
    exact hcongr fun entity => by rw [limit_union, Detail.min_self]
  · have hadmits : (selection.union other).AdmitsAll
        (through [selection.union other] g entity s).state :=
      AdmitsAll.generate (s := (s, [])) (fun _ h => absurd h List.not_mem_nil) entity
    rw [hunion] at hm
    exact admits_union.mp (hadmits shown hm)

end Selection

end HeaderSynopsis.Output
