import HeaderSynopsis.Proofs.Manifest.Acceptance
import HeaderSynopsis.Proofs.Manifest.QualifiedNames

namespace HeaderSynopsis.Manifest

open Declaration

namespace Definition

/-- What stands for a definition in qualified names: its name, or without one its index. -/
def segment (index : Nat) (d : Definition) : String :=
  if d.name = "" then "@" ++ toString index else d.name

mutual

def qualifiedNames (index : Nat) : Definition → List (List String)
  | d@⟨_, _, _, _, _, _, children⟩ =>
      [d.segment index] :: (qualifiedNamesAll 0 children).map (d.segment index :: ·)

def qualifiedNamesAll (index : Nat) : List Definition → List (List String)
  | [] => []
  | d :: rest => qualifiedNames index d ++ qualifiedNamesAll (index + 1) rest

end

theorem qualifiedNames_eq (index : Nat) (d : Definition) :
    d.qualifiedNames index =
      [d.segment index] :: (qualifiedNamesAll 0 d.children).map (d.segment index :: ·) := by
  cases d
  rw [qualifiedNames]

def WellNamed (d : Definition) : Prop := d.name = "" ∨ nameFault? d.name = none

theorem segment_of_unnamed {d : Definition} (h : d.name = "") (index : Nat) :
    d.segment index = "@" ++ toString index := if_pos h

theorem segment_of_named {d : Definition} (h : d.name ≠ "") (index : Nat) :
    d.segment index = d.name := if_neg h

theorem segment_ne_empty (index : Nat) (d : Definition) : d.segment index ≠ "" := by
  by_cases h : d.name = ""
  · rw [segment_of_unnamed h]
    simp
  · rwa [segment_of_named h]

theorem WellNamed.isSegment {d : Definition} (h : d.WellNamed) (index : Nat) :
    IsSegment (d.segment index) := by
  by_cases hname : d.name = ""
  · rw [segment_of_unnamed hname]
    exact .index index
  · rw [segment_of_named hname]
    exact .name (h.resolve_left hname)

/-- What stands for a definition and names an operator is the name of the definition. -/
theorem isOperatorName_of_segment {d : Definition} {index : Nat}
    (h : IsOperatorName (d.segment index)) : IsOperatorName d.name := by
  by_cases hname : d.name = ""
  · rw [segment_of_unnamed hname] at h
    exact absurd h (not_isOperatorName_index index)
  · rwa [segment_of_named hname] at h

theorem expectedId_eq_child {d : Definition} (h : d.id = none) (place : Place) (index : Nat) :
    d.expectedId place.parent index = place.parent.child (d.segment index) := by
  rw [← assignedId_eq_expectedId, assignedId, h]
  rfl

theorem map_id_placedAll {ds : List Definition}
    (hds : ∀ d ∈ ds, ∀ place index, (∀ p ∈ d.placed place index, p.definition.id = none) →
      (d.placed place index).map Placed.id =
        (d.qualifiedNames index).map (·.foldl Id.child place.parent))
    (place : Place) (index : Nat) (hid : ∀ p ∈ placedAll place index ds, p.definition.id = none) :
    (placedAll place index ds).map Placed.id =
      (qualifiedNamesAll index ds).map (·.foldl Id.child place.parent) := by
  induction ds generalizing index with
  | nil => rfl
  | cons d rest ih =>
    rw [List.forall_mem_cons] at hds
    rw [placedAll, List.forall_mem_append] at hid
    rw [placedAll, qualifiedNamesAll, List.map_append, List.map_append, hds.1 place index hid.1,
      ih hds.2 (index + 1) hid.2]

/-- Without identities of their own choice, definitions get theirs segment by segment. -/
theorem map_id_placed (d : Definition) (place : Place) (index : Nat)
    (hid : ∀ p ∈ d.placed place index, p.definition.id = none) :
    (d.placed place index).map Placed.id =
      (d.qualifiedNames index).map (·.foldl Id.child place.parent) := by
  induction d using nesting_induction generalizing place index with
  | node d ih =>
    rw [placed_eq, List.forall_mem_cons] at hid
    have hown : d.expectedId place.parent index = place.parent.child (d.segment index) :=
      expectedId_eq_child hid.1 place index
    rw [placed_eq, qualifiedNames_eq, List.map_cons, List.map_cons, List.map_map,
      map_id_placedAll ih _ 0 hid.2, Placed.id, hown]
    simp only [inside, hown, List.foldl_cons, List.foldl_nil]
    rfl

-- The definitions that qualified names are made of.

theorem exists_placed_of_mem_qualifiedNamesAll {ds : List Definition}
    (hds : ∀ d ∈ ds, ∀ place index before a after,
      before ++ a :: after ∈ d.qualifiedNames index → ∃ p ∈ d.placed place index,
        p.definition.segment p.index = a ∧ (after ≠ [] → p.definition.children ≠ []))
    (place : Place) {index : Nat} {before : List String} {a : String} {after : List String}
    (h : before ++ a :: after ∈ qualifiedNamesAll index ds) :
    ∃ p ∈ placedAll place index ds,
      p.definition.segment p.index = a ∧ (after ≠ [] → p.definition.children ≠ []) := by
  induction ds generalizing index with
  | nil => cases h
  | cons d rest ih =>
    rw [List.forall_mem_cons] at hds
    rw [qualifiedNamesAll, List.mem_append] at h
    rw [placedAll]
    rcases h with h | h
    · obtain ⟨p, hp, hsegment⟩ := hds.1 place index before a after h
      exact ⟨p, List.mem_append_left _ hp, hsegment⟩
    · obtain ⟨p, hp, hsegment⟩ := ih hds.2 h
      exact ⟨p, List.mem_append_right _ hp, hsegment⟩

/-- Every segment of a qualified name stands for a definition, and every one but the last for a
definition with others inside. -/
theorem exists_placed_of_mem_qualifiedNames (d : Definition) {place : Place} {index : Nat}
    {before : List String} {a : String} {after : List String}
    (h : before ++ a :: after ∈ d.qualifiedNames index) :
    ∃ p ∈ d.placed place index,
      p.definition.segment p.index = a ∧ (after ≠ [] → p.definition.children ≠ []) := by
  induction d using nesting_induction generalizing place index before a after with
  | node d ih =>
    rw [qualifiedNames_eq, List.mem_cons, List.mem_map] at h
    rw [placed_eq]
    rcases h with h | ⟨inner, hinner, h⟩
    · obtain ⟨-, ha⟩ | ⟨-, ha⟩ := List.append_eq_singleton_iff.mp h
      · obtain ⟨rfl, rfl⟩ := List.cons.inj ha
        exact ⟨_, List.mem_cons_self, rfl, fun hne => absurd rfl hne⟩
      · cases ha
    · cases before with
      | nil =>
        obtain ⟨rfl, rfl⟩ := List.cons.inj h
        refine ⟨_, List.mem_cons_self, rfl, fun _ hnone => ?_⟩
        rw [hnone] at hinner
        cases hinner
      | cons b before =>
        obtain ⟨-, rfl⟩ := List.cons.inj h
        obtain ⟨p, hp, hsegment⟩ := exists_placed_of_mem_qualifiedNamesAll
          (fun c hc _ _ _ _ _ h => ih c hc h) (d.inside place index) hinner
        exact ⟨p, List.mem_cons_of_mem _ hp, hsegment⟩

end Definition

namespace FileDefinition

variable {file : FileDefinition}

def qualifiedNames (file : FileDefinition) : List (List String) :=
  Definition.qualifiedNamesAll 0 file.entities

theorem exists_placed_of_mem {before : List String} {a : String} {after : List String}
    (h : before ++ a :: after ∈ file.qualifiedNames) :
    ∃ p ∈ file.placed,
      p.definition.segment p.index = a ∧ (after ≠ [] → p.definition.children ≠ []) :=
  Definition.exists_placed_of_mem_qualifiedNamesAll
    (fun d _ _ _ _ _ _ h => d.exists_placed_of_mem_qualifiedNames h) .file h

/-- Without identities of their own choice, definitions have the texts of their qualified names as
their identities. -/
theorem map_id_placed (hid : ∀ p ∈ file.placed, p.definition.id = none) :
    file.placed.map Placed.id = file.qualifiedNames.map fun s => ⟨pathText s⟩ := by
  have hfold : file.placed.map Placed.id = file.qualifiedNames.map (·.foldl Id.child ⟨""⟩) :=
    Definition.map_id_placedAll (fun d _ => d.map_id_placed) .file 0 hid
  rw [hfold]
  apply List.map_congr_left
  intro s hs
  apply foldl_child_empty
  intro a ha
  obtain ⟨before, after, rfl⟩ := List.append_of_mem ha
  obtain ⟨p, -, rfl, -⟩ := exists_placed_of_mem hs
  exact p.definition.segment_ne_empty p.index

theorem isSegment_of_mem (hnames : ∀ p ∈ file.placed, p.definition.WellNamed) {s : List String}
    (hs : s ∈ file.qualifiedNames) : ∀ a ∈ s, IsSegment a := by
  intro a ha
  obtain ⟨before, after, rfl⟩ := List.append_of_mem ha
  obtain ⟨p, hp, rfl, -⟩ := exists_placed_of_mem hs
  exact (hnames p hp).isSegment p.index

/-- Where a qualified name is imitated, something with others inside has the name of an operator. -/
theorem exists_operator_of_imitates {s t : List String} (hs : s ∈ file.qualifiedNames)
    (h : Imitates t s) :
    ∃ p ∈ file.placed, p.definition.children ≠ [] ∧ IsOperatorName p.definition.name := by
  obtain ⟨before, scope, inside, rfl, hinside, hscope⟩ := h.exists_scope
  obtain ⟨p, hp, rfl, hchildren⟩ := exists_placed_of_mem hs
  exact ⟨p, hp, hchildren hinside, Definition.isOperatorName_of_segment hscope⟩

end FileDefinition

end HeaderSynopsis.Manifest
