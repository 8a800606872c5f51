import HeaderSynopsis.Declaration.Entity

namespace HeaderSynopsis.Declaration

namespace Entity

/-- What holds of an entity as soon as it holds of its children holds of every entity. -/
@[elab_as_elim]
theorem tree_induction {motive : Entity → Prop}
    (node : ∀ entity, (∀ child ∈ entity.children, motive child) → motive entity) :
    ∀ entity, motive entity
  | ⟨id, name, kind, template, comment, children⟩ =>
      node ⟨id, name, kind, template, comment, children⟩ fun child hchild =>
        have : child ∈ children := hchild
        tree_induction node child
  termination_by entity => sizeOf entity
  decreasing_by
    have h := List.sizeOf_lt_of_mem this
    simp only [mk.sizeOf_spec]
    omega

theorem walkAll_eq (entities : List Entity) : walkAll entities = entities.flatMap walk := by
  induction entities with
  | nil => rfl
  | cons entity rest ih => rw [walkAll, ih, List.flatMap_cons]

theorem walk_eq (entity : Entity) : entity.walk = entity :: entity.children.flatMap walk := by
  cases entity
  rw [walk, walkAll_eq]

theorem self_mem_walk (entity : Entity) : entity ∈ entity.walk := by
  rw [walk_eq]
  exact List.mem_cons_self

theorem mem_walk_of_child {entity child visited : Entity} (hc : child ∈ entity.children)
    (hv : visited ∈ child.walk) : visited ∈ entity.walk := by
  rw [walk_eq]
  exact List.mem_cons_of_mem _ (List.mem_flatMap.mpr ⟨child, hc, hv⟩)

theorem child_mem_walk {entity child : Entity} (hc : child ∈ entity.children) :
    child ∈ entity.walk :=
  mem_walk_of_child hc child.self_mem_walk

/-- What is visited is the entity itself, or is visited from one of its children. -/
theorem eq_or_below_of_mem_walk {entity visited : Entity} (hv : visited ∈ entity.walk) :
    visited = entity ∨ ∃ child ∈ entity.children, visited ∈ child.walk := by
  rw [walk_eq] at hv
  rcases List.mem_cons.mp hv with he | hb
  · exact Or.inl he
  · exact Or.inr (List.mem_flatMap.mp hb)

/-- Visits from a visited entity lead to nothing new. -/
theorem walk_subset {entity visited : Entity} (hv : visited ∈ entity.walk) :
    visited.walk ⊆ entity.walk := by
  induction entity using tree_induction with
  | node entity ih =>
    rcases eq_or_below_of_mem_walk hv with rfl | ⟨child, hc, hb⟩
    · exact List.Subset.refl _
    · intro deeper hd
      exact mem_walk_of_child hc (ih child hc hb hd)

structure Orderly (entity : Entity) : Prop where
  leaf : entity.children ≠ [] → entity.kind.acceptsChildren = true
  noFile : ∀ child ∈ entity.children, child.kind.word ≠ "file"
  access : ∀ child ∈ entity.children, child.kind.word = "access" → entity.kind.word = "class"

end Entity

end HeaderSynopsis.Declaration
