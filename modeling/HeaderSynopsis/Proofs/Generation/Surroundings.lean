import HeaderSynopsis.Proofs.Generation.Attribution
import HeaderSynopsis.Proofs.Generation.Visits

namespace HeaderSynopsis.Generation

open Declaration Writing

def writtenBefore (decide : Entity → Detail) : Entity → Position → List Write
  | _, [] => []
  | root, index :: rest =>
      root.head ++ root.opening ++ (root.children.take index).flatMap (written decide) ++
        root.children[index]?.elim [] fun child => writtenBefore decide child rest

def writtenAfter (decide : Entity → Detail) : Entity → Position → List Write
  | _, [] => []
  | root, index :: rest =>
      (root.children[index]?.elim [] fun child => writtenAfter decide child rest) ++
        (root.children.drop (index + 1)).flatMap (written decide) ++
        (root.closing ++ root.lineEnd)

variable {decide other : Entity → Detail} {root entity : Entity} {position : Position}

/-- What is said of all children is said of those around one of them and of that one. -/
theorem flatMap_children {α : Type} {child : Entity} {index : Nat}
    (h : root.children[index]? = some child) (f : Entity → List α) :
    root.children.flatMap f =
      (root.children.take index).flatMap f ++ f child ++
        (root.children.drop (index + 1)).flatMap f := by
  obtain ⟨hlt, rfl⟩ := List.getElem?_eq_some_iff.mp h
  have hrest : (root.children.drop index).flatMap f =
      f root.children[index] ++ (root.children.drop (index + 1)).flatMap f := by
    rw [List.drop_eq_getElem_cons hlt, List.flatMap_cons]
  calc root.children.flatMap f
      = (root.children.take index ++ root.children.drop index).flatMap f := by
        rw [List.take_append_drop]
    _ = _ := by rw [List.flatMap_append, hrest, List.append_assoc]

theorem writtenBefore_cons {child : Entity} {index : Nat}
    (h : root.children[index]? = some child) (rest : Position) :
    writtenBefore decide root (index :: rest) =
      root.head ++ root.opening ++ (root.children.take index).flatMap (written decide) ++
        writtenBefore decide child rest := by
  rw [writtenBefore, h, Option.elim_some]

theorem writtenAfter_cons {child : Entity} {index : Nat}
    (h : root.children[index]? = some child) (rest : Position) :
    writtenAfter decide root (index :: rest) =
      writtenAfter decide child rest ++
        (root.children.drop (index + 1)).flatMap (written decide) ++
        (root.closing ++ root.lineEnd) := by
  rw [writtenAfter, h, Option.elim_some]

/-- A tree is written around each entity that is reached. -/
theorem written_of_reaches (h : Reaches decide root position entity) :
    written decide root =
      writtenBefore decide root position ++ written decide entity ++
        writtenAfter decide root position := by
  induction position generalizing root with
  | nil =>
    obtain rfl := Option.some.inj h.leads
    rw [writtenBefore, writtenAfter, List.nil_append, List.append_nil]
  | cons index rest ih =>
    obtain ⟨hroot, child, hchild, hreaches⟩ := reaches_cons.mp h
    rw [written_of_definition hroot.1 hroot.2, flatMap_children hchild, ih hreaches,
      writtenBefore_cons hchild, writtenAfter_cons hchild]
    simp only [List.append_assoc]

/-- Whoever is asked about is reached. -/
theorem exists_reaches_of_mem_visits (h : entity ∈ visits decide root) :
    ∃ position, Reaches decide root position entity := by
  induction root using Entity.tree_induction with
  | node root ih =>
    rw [visits_eq, List.mem_cons] at h
    rcases h with rfl | hbelow
    · exact ⟨[], reaches_nil _⟩
    split at hbelow
    · rename_i hroot
      obtain ⟨child, hm, hvisited⟩ := List.mem_flatMap.mp hbelow
      obtain ⟨index, hchild⟩ := List.mem_iff_getElem?.mp hm
      obtain ⟨position, hreaches⟩ := ih child hm hvisited
      exact ⟨index :: position, reaches_cons.mpr ⟨hroot, child, hchild, hreaches⟩⟩
    · exact absurd hbelow List.not_mem_nil

def occurrences (id : Id) (entities : List Entity) : Nat := (entities.map Entity.id).count id

theorem occurrences_append (id : Id) (entities later : List Entity) :
    occurrences id (entities ++ later) = occurrences id entities + occurrences id later := by
  rw [occurrences, List.map_append, List.count_append]
  rfl

theorem occurrences_pos {entities : List Entity} (h : entity ∈ entities) :
    0 < occurrences entity.id entities :=
  List.count_pos_iff.mpr (List.mem_map.mpr ⟨entity, h, rfl⟩)

theorem ne_of_occurrences {entities : List Entity} {id : Id} (h : occurrences id entities = 0) :
    ∀ e ∈ entities, e.id ≠ id := by
  rintro e he rfl
  exact absurd (occurrences_pos he) (by omega)

/-- An identity that occurs once in a tree, and there from a child on, is not that of the root nor
of anything from the other children on. -/
theorem occurrences_of_child {child : Entity} {index : Nat} {id : Id}
    (hchild : root.children[index]? = some child) (h : occurrences id root.walk = 1)
    (hbelow : 0 < occurrences id child.walk) :
    occurrences id child.walk = 1 ∧ root.id ≠ id ∧
      (∀ e ∈ (root.children.take index).flatMap Entity.walk, e.id ≠ id) ∧
      ∀ e ∈ (root.children.drop (index + 1)).flatMap Entity.walk, e.id ≠ id := by
  have hwalk : root.walk = [root] ++ ((root.children.take index).flatMap Entity.walk ++
      child.walk ++ (root.children.drop (index + 1)).flatMap Entity.walk) := by
    rw [Entity.walk_eq, flatMap_children hchild]
    rfl
  rw [hwalk, occurrences_append, occurrences_append, occurrences_append] at h
  have hroot : occurrences id [root] = 0 := by omega
  refine ⟨by omega, ne_of_occurrences hroot root (List.mem_singleton_self root), ?_, ?_⟩
  · apply ne_of_occurrences
    omega
  · apply ne_of_occurrences
    omega

/-- A change of the decision about an entity whose identity occurs only once leaves everything
around it alone, and the entity is still reached. -/
theorem surroundings_congr (h : Reaches decide root position entity)
    (honce : occurrences entity.id root.walk = 1)
    (hother : ∀ e ∈ root.walk, e.id ≠ entity.id → decide e = other e) :
    writtenBefore decide root position = writtenBefore other root position ∧
      writtenAfter decide root position = writtenAfter other root position ∧
      Reaches other root position entity := by
  induction position generalizing root with
  | nil =>
    obtain rfl := Option.some.inj h.leads
    exact ⟨rfl, rfl, reaches_nil root⟩
  | cons index rest ih =>
    obtain ⟨hroot, child, hchild, hreaches⟩ := reaches_cons.mp h
    have hfound := Entity.mem_walk_of_descendant? hreaches.leads
    obtain ⟨hinside, hne, htake, hdrop⟩ :=
      occurrences_of_child hchild honce (occurrences_pos hfound)
    have hm := List.mem_of_getElem? hchild
    have hbelow : ∀ e ∈ child.walk, e.id ≠ entity.id → decide e = other e :=
      fun e he => hother e (Entity.mem_walk_of_child hm he)
    obtain ⟨hbefore, hafter, hreaches'⟩ := ih hreaches hinside hbelow
    -- Neither the root nor anything from the siblings on is what the decision is changed about.
    have hsiblings {siblings : List Entity} (hs : siblings ⊆ root.children)
        (hids : ∀ e ∈ siblings.flatMap Entity.walk, e.id ≠ entity.id) :
        siblings.flatMap (written decide) = siblings.flatMap (written other) := by
      refine List.flatMap_congr fun sibling hsibling => written_congr fun e he => ?_
      apply hother e (Entity.mem_walk_of_child (hs hsibling) he)
      exact hids e (List.mem_flatMap.mpr ⟨sibling, hsibling, he⟩)
    have hdefined : other root = .definition ∧ root.isContainer := by
      rw [← hother root root.self_mem_walk hne]
      exact hroot
    refine ⟨?_, ?_, reaches_cons.mpr ⟨hdefined, child, hchild, hreaches'⟩⟩
    · rw [writtenBefore_cons hchild, writtenBefore_cons hchild, hbefore,
        hsiblings (List.take_subset _ _) htake]
    · rw [writtenAfter_cons hchild, writtenAfter_cons hchild, hafter,
        hsiblings (List.drop_subset _ _) hdrop]

end HeaderSynopsis.Generation
