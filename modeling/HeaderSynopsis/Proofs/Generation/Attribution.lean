import HeaderSynopsis.Proofs.Declaration.Positions
import HeaderSynopsis.Proofs.Generation.Trace
import Mathlib.Data.List.Basic

/-!
What is shown of a tree, each thing beside the position of the entity that it is shown for. Main
result: what is shown for an entity and everything below it is what the entity by itself is shown
as, provided that every entity around it is shown with its children. Otherwise it is nothing.
-/

namespace HeaderSynopsis.Generation

open Declaration Writing

section

variable {α β : Type}

abbrev Located (α : Type) := List (Position × α)

def Located.below (position : Position) (things : Located α) : Located α :=
  things.map fun thing => (position ++ thing.1, thing.2)

def Located.within (things : Located α) (position : Position) : Located α :=
  things.filter (position <+: ·.1)

namespace Located

variable (things later : Located α) (position : Position)

@[simp]
theorem below_nil : things.below [] = things := List.map_id _

theorem below_below (inner : Position) :
    (things.below inner).below position = things.below (position ++ inner) := by
  simp [below, List.map_map, Function.comp_def]

@[simp]
theorem map_snd_below : (things.below position).map Prod.snd = things.map Prod.snd := by
  simp [below, List.map_map, Function.comp_def]

@[simp]
theorem within_nil : things.within [] = things := by
  simp [within]

@[simp]
theorem within_append :
    within (things ++ later) position = things.within position ++ later.within position := by
  simp [within]

theorem within_map (f : α → β) :
    Located.within (things.map (Prod.map id f)) position =
      (things.within position).map (Prod.map id f) := by
  rw [within, List.filter_map]
  rfl

/-- What is seen from further up is found further down at the same place. -/
theorem within_below_append (rest : Position) :
    (things.below position).within (position ++ rest) = (things.within rest).below position := by
  rw [within, below, List.filter_map]
  refine congrArg _ (List.filter_congr fun thing _ => ?_)
  simp

/-- What is about a child, or is below it, is found at the position of that child only. -/
theorem within_below (index other : Nat) (rest : Position) :
    (things.below [index]).within (other :: rest) =
      if other = index then (things.within rest).below [index] else [] := by
  split
  · rename_i h
    subst h
    exact within_below_append things [other] rest
  · rename_i h
    rw [within, List.filter_eq_nil_iff]
    intro thing hm
    obtain ⟨inner, -, rfl⟩ := List.mem_map.mp hm
    simp [h]

/-- Several parts one after the other, each of them below its index. The first index is given. -/
def numbered (index : Nat) (parts : List (Located α)) : Located α :=
  (parts.zipIdx index).flatMap fun (part, k) => part.below [k]

@[simp]
theorem numbered_nil (index : Nat) : numbered index ([] : List (Located α)) = [] := rfl

theorem numbered_cons (index : Nat) (part : Located α) (parts : List (Located α)) :
    numbered index (part :: parts) = part.below [index] ++ numbered (index + 1) parts := rfl

theorem numbered_append (index : Nat) (parts others : List (Located α)) :
    numbered index (parts ++ others) =
      numbered index parts ++ numbered (index + parts.length) others := by
  simp only [numbered, List.zipIdx_append, List.flatMap_append]

theorem within_numbered_of_lt {index other : Nat} (h : other < index) (parts : List (Located α))
    (rest : Position) : (numbered index parts).within (other :: rest) = [] := by
  induction parts generalizing index with
  | nil => rfl
  | cons part parts ih =>
    rw [numbered_cons, within_append, within_below, if_neg (Nat.ne_of_lt h),
      ih (Nat.lt_succ_of_lt h), List.append_nil]

/-- What is found at a position among several parts is found in the part that it leads to. -/
theorem within_numbered (index k : Nat) (parts : List (Located α)) (rest : Position) :
    (numbered index parts).within ((index + k) :: rest) =
      parts[k]?.elim [] fun part => (part.within rest).below [index + k] := by
  induction parts generalizing index k with
  | nil => rfl
  | cons part parts ih =>
    rw [numbered_cons, within_append, within_below]
    cases k with
    | zero =>
      rw [Nat.add_zero, if_pos rfl, within_numbered_of_lt (Nat.lt_succ_self index),
        List.append_nil]
      rfl
    | succ k =>
      have hk : index + (k + 1) = index + 1 + k := by omega
      have hne : ¬index + 1 + k = index := by omega
      rw [hk, if_neg hne, List.nil_append, ih, List.getElem?_cons_succ]

theorem within_numbered_zero (index : Nat) (parts : List (Located α)) (rest : Position) :
    (numbered 0 parts).within (index :: rest) =
      parts[index]?.elim [] fun part => (part.within rest).below [index] := by
  simpa only [Nat.zero_add] using within_numbered 0 index parts rest

/-- Every part is there in one piece. -/
theorem isInfix_numbered {index k : Nat} {part : Located α} {parts : List (Located α)}
    (h : parts[k]? = some part) : part.below [index + k] <:+: numbered index parts :=
  List.infix_of_mem_flatten
    (List.mem_map.mpr ⟨(part, index + k), List.mk_add_mem_zipIdx_iff_getElem?.mpr h, rfl⟩)

/-- Several parts are what is found at their indices, in this order. -/
theorem numbered_eq_flatMap_within (parts : List (Located α)) :
    numbered 0 parts =
      (List.range parts.length).flatMap fun index => (numbered 0 parts).within [index] := by
  have hindices : List.range parts.length = parts.zipIdx.map Prod.snd := by
    rw [List.zipIdx_map_snd, List.range_eq_range']
  rw [hindices, List.flatMap_map]
  refine List.flatMap_congr fun (part, index) hm => ?_
  have hpart : parts[index]? = some part := List.mk_mem_zipIdx_iff_getElem?.mp hm
  change part.below [index] = _
  rw [within_numbered_zero, hpart, Option.elim_some, within_nil]

end Located

end

def here (ws : List Write) : Located Showing := ws.map fun w => ([], .write w)

@[simp]
theorem map_snd_here (ws : List Write) : (here ws).map Prod.snd = ws.map .write := by
  rw [here, List.map_map]
  rfl

@[simp]
theorem within_here_cons (ws : List Write) (index : Nat) (rest : Position) :
    (here ws).within (index :: rest) = [] := by
  simp [Located.within, here]

def locatedInside (detail : Detail) (entity : Entity) (inner : Located Showing) : Located Showing :=
  if detail = .definition ∧ entity.isContainer then
    here (entity.head ++ entity.opening) ++ inner ++ here (entity.closing ++ entity.lineEnd)
  else here (entity.head ++ entity.declarationEnd ++ entity.lineEnd)

mutual

def located (decide : Entity → Detail) : Entity → Located Showing
  | entity@⟨_, _, _, _, _, children⟩ =>
      ([], .enter entity.isContainer entity) ::
        if (decide entity).isWritten then
          locatedInside (decide entity) entity (locatedAll decide 0 children) ++
            if entity.isContainer then [([], .leave entity)] else []
        else []

def locatedAll (decide : Entity → Detail) (index : Nat) : List Entity → Located Showing
  | [] => []
  | child :: rest => (located decide child).below [index] ++ locatedAll decide (index + 1) rest

end

theorem located_eq (decide : Entity → Detail) (entity : Entity) :
    located decide entity =
      ([], .enter entity.isContainer entity) ::
        if (decide entity).isWritten then
          locatedInside (decide entity) entity (locatedAll decide 0 entity.children) ++
            if entity.isContainer then [([], .leave entity)] else []
        else [] := by
  cases entity
  rw [located]

theorem located_of_omitted {decide : Entity → Detail} {entity : Entity}
    (hd : decide entity = .omitted) :
    located decide entity = [([], .enter entity.isContainer entity)] := by
  rw [located_eq, hd]
  rfl

theorem located_of_definition {decide : Entity → Detail} {entity : Entity}
    (hd : decide entity = .definition) (hc : entity.isContainer = true) :
    located decide entity =
      ([], .enter entity.isContainer entity) ::
        (here (entity.head ++ entity.opening) ++ locatedAll decide 0 entity.children ++
          here (entity.closing ++ entity.lineEnd) ++ [([], .leave entity)]) := by
  have hw : Detail.isWritten .definition = true := rfl
  rw [located_eq, hd, if_pos hw, locatedInside, if_pos ⟨rfl, hc⟩, if_pos hc]

theorem located_of_declaration {decide : Entity → Detail} {entity : Entity}
    (hd : decide entity ≠ .omitted)
    (hc : ¬(decide entity = .definition ∧ entity.isContainer = true)) :
    located decide entity =
      ([], .enter entity.isContainer entity) ::
        (here (entity.head ++ entity.declarationEnd ++ entity.lineEnd) ++
          if entity.isContainer then [([], .leave entity)] else []) := by
  rw [located_eq, locatedInside, if_neg hc, if_pos (Detail.isWritten_iff.mpr hd)]

/-- Without the positions it is what is shown of the tree. -/
theorem map_snd_located (decide : Entity → Detail) (entity : Entity) :
    (located decide entity).map Prod.snd = showings decide entity := by
  induction entity using Entity.tree_induction with
  | node entity ih =>
    have hall (index : Nat) : (locatedAll decide index entity.children).map Prod.snd =
        entity.children.flatMap (showings decide) := by
      generalize entity.children = children at ih
      induction children generalizing index with
      | nil => rfl
      | cons child rest ihrest =>
        have hrest := ihrest (index + 1) fun c hc => ih c (List.mem_cons_of_mem _ hc)
        rw [locatedAll, List.map_append, Located.map_snd_below, ih child List.mem_cons_self, hrest,
          List.flatMap_cons]
    have hinside : (locatedInside (decide entity) entity
        (locatedAll decide 0 entity.children)).map Prod.snd =
          showingsInside (decide entity) entity (entity.children.flatMap (showings decide)) := by
      unfold locatedInside showingsInside
      split
      · rw [List.map_append, List.map_append, map_snd_here, map_snd_here, hall]
      · exact map_snd_here _
    rw [located_eq, showings_eq, List.map_cons, ← hinside]
    cases (decide entity).isWritten with
    | false => rfl
    | true => cases entity.isContainer <;> simp

section

variable {decide : Entity → Detail}

/-- What is shown of several children is shown of one after the other. -/
theorem locatedAll_eq (children : List Entity) (index : Nat) :
    locatedAll decide index children = .numbered index (children.map (located decide)) := by
  induction children generalizing index with
  | nil => rfl
  | cons child later ih => rw [locatedAll, ih, List.map_cons, Located.numbered_cons]

/-- What is shown at a position among several children is shown of the child that it leads to. -/
theorem within_locatedAll (children : List Entity) (index : Nat) (rest : Position) :
    (locatedAll decide 0 children).within (index :: rest) =
      children[index]?.elim [] fun child =>
        ((located decide child).within rest).below [index] := by
  rw [locatedAll_eq, Located.within_numbered_zero, List.getElem?_map]
  cases children[index]? <;> rfl

/-- What is shown below an entity is shown of its children, and only in the definition of a
container. -/
theorem within_located_cons (entity : Entity) (index : Nat) (rest : Position) :
    (located decide entity).within (index :: rest) =
      if decide entity = .definition ∧ entity.isContainer then
        entity.children[index]?.elim [] fun child =>
          ((located decide child).within rest).below [index]
      else [] := by
  have hall : (locatedAll decide 0 entity.children).within (index :: rest) = _ :=
    within_locatedAll entity.children index rest
  have hown (showing : Showing) : Located.within [([], showing)] (index :: rest) = [] := by
    simp [Located.within]
  -- The steps of the entity itself are located at the entity, hence not below it.
  have hinside : (locatedInside (decide entity) entity
      (locatedAll decide 0 entity.children)).within (index :: rest) =
        if decide entity = .definition ∧ entity.isContainer then
          (locatedAll decide 0 entity.children).within (index :: rest)
        else [] := by
    unfold locatedInside
    split
    · simp only [Located.within_append, within_here_cons, List.nil_append, List.append_nil]
    · exact within_here_cons _ _ _
  rw [located_eq, ← List.singleton_append, Located.within_append, hown, List.nil_append, ← hall,
    ← hinside]
  cases hw : (decide entity).isWritten with
  | false =>
    have hd : ¬(decide entity = .definition ∧ entity.isContainer) := by
      rintro ⟨hd, -⟩
      rw [hd] at hw
      exact absurd hw (by decide)
    rw [hinside, if_neg hd]
    rfl
  | true =>
    rw [if_pos rfl, Located.within_append]
    cases entity.isContainer with
    | false => exact List.append_nil _
    | true => rw [if_pos rfl, hown, List.append_nil]

/-- A position leads to an entity through definitions of containers only. -/
structure Reaches (decide : Entity → Detail) (root : Entity) (position : Position)
    (entity : Entity) : Prop where
  leads : root.descendant? position = some entity
  openAround : ∀ outer ∈ root.around position, decide outer = .definition ∧ outer.isContainer

theorem reaches_nil (root : Entity) : Reaches decide root [] root :=
  ⟨rfl, fun _ h => absurd h List.not_mem_nil⟩

theorem reaches_cons {root entity : Entity} {index : Nat} {rest : Position} :
    Reaches decide root (index :: rest) entity ↔
      (decide root = .definition ∧ root.isContainer) ∧
        ∃ child, root.children[index]? = some child ∧ Reaches decide child rest entity := by
  constructor
  · rintro ⟨hleads, hopen⟩
    obtain ⟨child, hchild, hleads⟩ := Option.bind_eq_some_iff.mp hleads
    rw [Entity.around_cons, hchild, Option.elim_some, List.forall_mem_cons] at hopen
    exact ⟨hopen.1, child, hchild, hleads, hopen.2⟩
  · rintro ⟨hroot, child, hchild, hleads, hopen⟩
    refine ⟨?_, ?_⟩
    · rw [Entity.descendant?_cons, hchild, Option.bind_some, hleads]
    · rw [Entity.around_cons, hchild, Option.elim_some, List.forall_mem_cons]
      exact ⟨hroot, hopen⟩

/-- In the definition of a container every child is reached. -/
theorem Reaches.child {root entity child : Entity} {position : Position} {index : Nat}
    (h : Reaches decide root position entity)
    (hd : decide entity = .definition ∧ entity.isContainer)
    (hc : entity.children[index]? = some child) :
    Reaches decide root (position ++ [index]) child := by
  induction position generalizing root with
  | nil =>
    obtain rfl := Option.some.inj h.leads
    exact reaches_cons.mpr ⟨hd, child, hc, reaches_nil child⟩
  | cons first rest ih =>
    obtain ⟨hroot, next, hnext, hreaches⟩ := reaches_cons.mp h
    exact reaches_cons.mpr ⟨hroot, next, hnext, ih hreaches⟩

/-- What is shown for an entity that is reached, and for everything below it, is what that entity is
shown as by itself. -/
theorem within_located_of_reaches {root entity : Entity} {position : Position}
    (h : Reaches decide root position entity) :
    (located decide root).within position = (located decide entity).below position := by
  induction position generalizing root with
  | nil =>
    obtain rfl := Option.some.inj h.leads
    rw [Located.within_nil, Located.below_nil]
  | cons index rest ih =>
    obtain ⟨hroot, child, hchild, hreaches⟩ := reaches_cons.mp h
    rw [within_located_cons, if_pos hroot, hchild, Option.elim_some, ih hreaches,
      Located.below_below]
    rfl

/-- The children in the definition of a container are shown in their order, one after the other. -/
theorem below_locatedAll {root entity : Entity} {position : Position}
    (h : Reaches decide root position entity)
    (hd : decide entity = .definition ∧ entity.isContainer) :
    (locatedAll decide 0 entity.children).below position =
      (List.range entity.children.length).flatMap fun index =>
        (located decide root).within (position ++ [index]) := by
  rw [locatedAll_eq, Located.numbered_eq_flatMap_within, ← locatedAll_eq, Located.below,
    List.map_flatMap, List.length_map]
  refine List.flatMap_congr fun index hm => ?_
  have hchild := List.getElem?_eq_getElem (List.mem_range.mp hm)
  rw [within_locatedAll, hchild, Option.elim_some, Located.within_nil,
    within_located_of_reaches (h.child hd hchild)]
  exact Located.below_below _ _ _

/-- Nothing that is shown for other entities comes between what is shown for an entity and for what
is below it. -/
theorem isInfix_within_located (root : Entity) (position : Position) :
    (located decide root).within position <:+: located decide root := by
  induction position generalizing root with
  | nil => simp
  | cons index rest ih =>
    rw [within_located_cons]
    split
    · rename_i hd
      cases hchild : root.children[index]? with
      | none => exact List.nil_infix
      | some child =>
        -- The child's part lies in that of all children, and that in the middle of the entity's.
        have hpart : (located decide child).below [index] <:+: locatedAll decide 0 root.children := by
          rw [locatedAll_eq, ← Nat.zero_add index]
          exact Located.isInfix_numbered (by rw [List.getElem?_map, hchild]; rfl)
        have hall : locatedAll decide 0 root.children <:+: located decide root := by
          rw [located_of_definition hd.1 hd.2, List.append_assoc _ _ [_]]
          exact List.infix_cons (List.infix_append _ _ _)
        exact ((ih child).map _).trans (hpart.trans hall)
    · exact List.nil_infix

/-- Nothing is shown at a position that reaches no entity. -/
theorem within_located_of_not_reaches {root : Entity} {position : Position}
    (h : ∀ entity, ¬Reaches decide root position entity) :
    (located decide root).within position = [] := by
  induction position generalizing root with
  | nil => exact absurd (reaches_nil root) (h root)
  | cons index rest ih =>
    rw [within_located_cons]
    split
    · rename_i hroot
      cases hchild : root.children[index]? with
      | none => rfl
      | some child =>
        have hrest : ∀ entity, ¬Reaches decide child rest entity := fun entity hreaches =>
          h entity (reaches_cons.mpr ⟨hroot, child, hchild, hreaches⟩)
        rw [Option.elim_some, ih hrest]
        rfl
    · rfl

end

end HeaderSynopsis.Generation
