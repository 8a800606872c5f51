import HeaderSynopsis.Proofs.Declaration.Tree
import HeaderSynopsis.Proofs.Manifest.Acceptance

namespace HeaderSynopsis.Manifest

open Declaration

namespace Definition

/-- An entity among several is that of one of the definitions, which is placed with all below it. -/
theorem mem_entities {place : Place} {index : Nat} {ds : List Definition} {e : Entity}
    (h : e ∈ entities place index ds) :
    ∃ d ∈ ds, ∃ i, e = d.entity place i ∧ d.placed place i ⊆ placedAll place index ds := by
  induction ds generalizing index with
  | nil => exact absurd h List.not_mem_nil
  | cons d rest ih =>
    rw [entities] at h
    rw [placedAll]
    rcases List.mem_cons.mp h with rfl | hr
    · exact ⟨d, List.mem_cons_self, index, rfl, List.subset_append_left _ _⟩
    · obtain ⟨c, hc, i, rfl, hsub⟩ := ih hr
      exact ⟨c, List.mem_cons_of_mem _ hc, i, rfl,
        fun p hp => List.mem_append_right _ (hsub hp)⟩

/-- What allowed definitions are lowered to may stand where they stand. -/
theorem allowed_of_mem_entities {place : Place} {index : Nat} {ds : List Definition} {e : Entity}
    (h : ∀ p ∈ placedAll place index ds, p.Allowed) (he : e ∈ entities place index ds) :
    e.kind.word ≠ "file" ∧ (e.kind.word = "access" → place.kind.word = "class") := by
  obtain ⟨d, _, i, rfl, hsub⟩ := mem_entities he
  have hself : Placed.mk place i d ∈ d.placed place i := by
    rw [placed_eq]
    exact List.mem_cons_self
  have hallowed := h _ (hsub hself)
  rw [entity_eq]
  exact ⟨hallowed.notFile, hallowed.access⟩

theorem orderly_of_allowed (d : Definition) {place : Place} {index : Nat}
    (h : ∀ p ∈ d.placed place index, p.Allowed) :
    ∀ e ∈ (d.entity place index).walk, e.Orderly := by
  induction d using nesting_induction generalizing place index with
  | node d ih =>
    intro e he
    rw [placed_eq, List.forall_mem_cons] at h
    rw [entity_eq] at he
    rcases Entity.eq_or_below_of_mem_walk he with rfl | ⟨child, hc, hb⟩
    -- An entity with children comes from a definition with children.
    · refine ⟨fun hne => h.1.children fun hnil => ?_,
        fun child hc => (allowed_of_mem_entities h.2 hc).1,
        fun child hc => (allowed_of_mem_entities h.2 hc).2⟩
      change entities (d.inside place index) 0 d.children ≠ [] at hne
      rw [hnil, entities] at hne
      exact hne rfl
    · obtain ⟨c, hm, i, rfl, hsub⟩ := mem_entities hc
      exact ih c hm (fun p hp => h.2 p (hsub hp)) e hb

end Definition

namespace FileDefinition

/-- The tree of a file that can be lowered. -/
theorem orderly_of_lower {source : Source} {file : FileDefinition} {tree : Entity}
    {ids : List Id} (h : file.lower source = .ok (tree, ids)) : ∀ e ∈ tree.walk, e.Orderly := by
  obtain ⟨hok, he⟩ := lower_eq_ok.mp h
  obtain ⟨rfl, rfl⟩ := Prod.mk.inj he
  have hallowed := hok.allowed
  intro e he
  rcases Entity.eq_or_below_of_mem_walk he with rfl | ⟨child, hc, hb⟩
  · exact ⟨fun _ => rfl, fun child hc => (Definition.allowed_of_mem_entities hallowed hc).1,
      fun child hc => (Definition.allowed_of_mem_entities hallowed hc).2⟩
  · obtain ⟨c, hm, i, rfl, hsub⟩ := Definition.mem_entities hc
    exact c.orderly_of_allowed (fun p hp => hallowed p (hsub hp)) e hb

end FileDefinition

end HeaderSynopsis.Manifest
