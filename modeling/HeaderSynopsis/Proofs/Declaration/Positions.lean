import HeaderSynopsis.Proofs.Declaration.Tree

namespace HeaderSynopsis.Declaration

/-- A way down from an entity: the index of a child, and on from there. -/
abbrev Position := List Nat

namespace Entity

def descendant? : Entity → Position → Option Entity
  | entity, [] => some entity
  | entity, index :: rest => entity.children[index]?.bind fun child => child.descendant? rest

def around : Entity → Position → List Entity
  | _, [] => []
  | entity, index :: rest =>
      entity :: entity.children[index]?.elim [] fun child => child.around rest

mutual

def positions : Entity → List Position
  | ⟨_, _, _, _, _, children⟩ => [] :: positionsAll 0 children

def positionsAll (index : Nat) : List Entity → List Position
  | [] => []
  | child :: rest => child.positions.map (index :: ·) ++ positionsAll (index + 1) rest

end

theorem positions_eq (entity : Entity) :
    entity.positions = [] :: positionsAll 0 entity.children := by
  cases entity
  rw [positions]

theorem descendant?_cons (entity : Entity) (index : Nat) (rest : Position) :
    entity.descendant? (index :: rest) =
      entity.children[index]?.bind fun child => child.descendant? rest := rfl

theorem around_cons (entity : Entity) (index : Nat) (rest : Position) :
    entity.around (index :: rest) =
      entity :: entity.children[index]?.elim [] fun child => child.around rest := rfl

/-- A position leads to an entity that is visited. -/
theorem mem_walk_of_descendant? {entity visited : Entity} {position : Position}
    (h : entity.descendant? position = some visited) : visited ∈ entity.walk := by
  induction position generalizing entity with
  | nil =>
    obtain rfl := Option.some.inj h
    exact self_mem_walk entity
  | cons index rest ih =>
    obtain ⟨child, hchild, hrest⟩ := Option.bind_eq_some_iff.mp h
    exact mem_walk_of_child (List.mem_of_getElem? hchild) (ih hrest)

/-- What is said of the positions of each child is said of the positions of all of them. -/
theorem map_positionsAll {α : Type} {f : Position → α} {g : Entity → List α} {children : List Entity}
    {index : Nat} (h : ∀ k child, children[k]? = some child →
      child.positions.map (fun rest => f ((index + k) :: rest)) = g child) :
    (positionsAll index children).map f = children.flatMap g := by
  induction children generalizing index with
  | nil => rfl
  | cons child rest ih =>
    have hrest : (positionsAll (index + 1) rest).map f = rest.flatMap g := by
      refine ih fun k c hc => ?_
      rw [Nat.add_right_comm]
      exact h (k + 1) c hc
    rw [positionsAll, List.map_append, hrest, List.map_map, List.flatMap_cons]
    exact congrArg (· ++ _) (h 0 child rfl)

/-- The positions of a tree lead to the entities that are visited, in the same order. -/
theorem map_descendant?_positions (entity : Entity) :
    entity.positions.map entity.descendant? = entity.walk.map some := by
  induction entity using tree_induction with
  | node entity ih =>
    have hbelow : (positionsAll 0 entity.children).map entity.descendant? =
        entity.children.flatMap fun child => child.walk.map some := by
      refine map_positionsAll fun k child hk => ?_
      simp only [descendant?_cons, Nat.zero_add, hk, Option.bind_some]
      exact ih child (List.mem_of_getElem? hk)
    rw [positions_eq, walk_eq, List.map_cons, List.map_cons, hbelow, List.map_flatMap]
    rfl

end Entity

end HeaderSynopsis.Declaration
