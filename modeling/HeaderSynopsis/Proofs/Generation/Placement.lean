import HeaderSynopsis.Proofs.Generation.Course
import HeaderSynopsis.Proofs.Generation.Surroundings

namespace HeaderSynopsis.Generation

open Declaration Writing

namespace Located

variable {α : Type} {things before after : Located α} {position : Position}

@[simp]
theorem within_within : (things.within position).within position = things.within position := by
  simp [within]

/-- Around everything at a position there is nothing else at that position. -/
theorem outside_within (h : things = before ++ things.within position ++ after) :
    before.within position = [] ∧ after.within position = [] := by
  have hlength := congrArg (fun all => (Located.within all position).length) h
  simp only [within_append, within_within, List.length_append] at hlength
  constructor <;> apply List.eq_nil_of_length_eq_zero <;> omega

end Located

variable {decide : Entity → Detail} {root entity : Entity} {position : Position}

theorem writes_located (decide : Entity → Detail) (entity : Entity) :
    (located decide entity).writes = written decide entity := by
  rw [Located.writes, map_snd_located]
  rfl

theorem writes_locatedAll (children : List Entity) (index : Nat) :
    (locatedAll decide index children).writes = children.flatMap (written decide) := by
  induction children generalizing index with
  | nil => rfl
  | cons child later ih =>
    rw [locatedAll, Located.writes_append, Located.writes_below, writes_located, ih,
      List.flatMap_cons]

theorem locatedAll_append (children later : List Entity) (index : Nat) :
    locatedAll decide index (children ++ later) =
      locatedAll decide index children ++ locatedAll decide (index + children.length) later := by
  rw [locatedAll_eq, locatedAll_eq, locatedAll_eq, List.map_append, Located.numbered_append,
    List.length_map]

/-- What is shown of several children is shown around what is shown of one of them. -/
theorem locatedAll_around {children : List Entity} {child : Entity} {index : Nat}
    (h : children[index]? = some child) :
    locatedAll decide 0 children =
      locatedAll decide 0 (children.take index) ++ (located decide child).below [index] ++
        locatedAll decide (index + 1) (children.drop (index + 1)) := by
  obtain ⟨hlt, rfl⟩ := List.getElem?_eq_some_iff.mp h
  have hlength : (children.take index).length = index := List.length_take_of_le (Nat.le_of_lt hlt)
  calc locatedAll decide 0 children
      = locatedAll decide 0 (children.take index ++ children.drop index) := by
        rw [List.take_append_drop]
    _ = _ := by
        rw [locatedAll_append, hlength, Nat.zero_add, List.drop_eq_getElem_cons hlt, locatedAll,
          List.append_assoc]

/-- What is shown of a tree is shown around the part of each entity that is reached. Before that
part stands what is shown with the steps before the entity. -/
theorem located_around (h : Reaches decide root position entity) :
    ∃ before after, located decide root = before ++ (located decide entity).below position ++ after ∧
      Located.writes before = writtenBefore decide root position := by
  induction position generalizing root with
  | nil =>
    obtain rfl := Option.some.inj h.leads
    refine ⟨[], [], ?_, rfl⟩
    rw [Located.below_nil, List.nil_append, List.append_nil]
  | cons index rest ih =>
    obtain ⟨hroot, child, hchild, hreaches⟩ := reaches_cons.mp h
    obtain ⟨before, after, heq, hwrites⟩ := ih hreaches
    let own : Located Showing :=
      ([], .enter root.isContainer root) :: here (root.head ++ root.opening)
    refine ⟨own ++ locatedAll decide 0 (root.children.take index) ++ before.below [index],
      after.below [index] ++ locatedAll decide (index + 1) (root.children.drop (index + 1)) ++
        here (root.closing ++ root.lineEnd) ++ [([], .leave root)], ?_, ?_⟩
    · have hbelow : (located decide child).below [index] =
          before.below [index] ++ (located decide entity).below (index :: rest) ++
            after.below [index] := by
        rw [heq, Located.below, List.map_append, List.map_append]
        exact congrArg (_ ++ · ++ _) (Located.below_below _ _ _)
      rw [located_of_definition hroot.1 hroot.2, locatedAll_around hchild, hbelow]
      simp only [own, List.append_assoc, List.cons_append]
    · have hown : own.writes = root.head ++ root.opening := writes_here _
      rw [writtenBefore_cons hchild, Located.writes_append, Located.writes_append, hown,
        writes_locatedAll, Located.writes_below, hwrites]

/-- Among what is shown for an entity and everything below it, the decision about the entity comes
first, and no other one is about it. -/
theorem located_eq_cons (decide : Entity → Detail) (entity : Entity) :
    ∃ later : Located Showing,
      located decide entity = ([], .enter entity.isContainer entity) :: later ∧
      ∀ container other, ([], .enter container other) ∉ later := by
  have hhere (container : Bool) (other : Entity) (ws : List Write) :
      ([], .enter container other) ∉ here ws := by simp [here]
  have hbelow (container : Bool) (other : Entity) :
      ([], .enter container other) ∉ locatedAll decide 0 entity.children := by
    rw [locatedAll_eq]
    simp [Located.numbered, Located.below]
  refine ⟨_, located_eq decide entity, fun container other => ?_⟩
  cases (decide entity).isWritten with
  | false => exact List.not_mem_nil
  | true =>
    rw [if_pos rfl, locatedInside]
    split <;> split <;> simp [hhere, hbelow]

/-- Wherever a decision is asked for, its entity is reached, and the steps before it are taken. -/
theorem located_split_at_enter {before after : Located Showing} {container : Bool}
    (h : located decide root = before ++ (position, .enter container entity) :: after) :
    Reaches decide root position entity ∧ before.writes = writtenBefore decide root position := by
  obtain ⟨reached, hreaches⟩ : ∃ reached, Reaches decide root position reached := by
    by_contra hnone
    have hnil := within_located_of_not_reaches (not_exists.mp hnone)
    rw [h, Located.within, List.filter_eq_nil_iff] at hnil
    exact hnil _ (List.mem_append_right _ List.mem_cons_self) (by simp)
  obtain ⟨before', after', hsplit, hwrites⟩ := located_around hreaches
  obtain ⟨later, hlater, hnone⟩ := located_eq_cons decide reached
  have houtside : Located.within before' position = [] ∧ Located.within after' position = [] := by
    rw [← within_located_of_reaches hreaches] at hsplit
    exact Located.outside_within hsplit
  -- There is only one decision at the position, so that both splits are the same.
  have hmissing {things : Located Showing} (hw : things.within position = []) :
      (position, .enter container entity) ∉ things :=
    fun hm => List.filter_eq_nil_iff.mp hw _ hm (by simp)
  have hlaterBelow : (position, .enter container entity) ∉ later.below position := by
    intro hm
    obtain ⟨⟨inner, shown⟩, hm, heq⟩ := List.mem_map.mp hm
    obtain ⟨hposition, rfl⟩ := Prod.mk.inj heq
    obtain rfl := List.append_right_eq_self.mp hposition
    exact hnone container entity hm
  have hboth : before' ++ (position, .enter reached.isContainer reached) ::
      (later.below position ++ after') = before ++ (position, .enter container entity) :: after := by
    rw [← h, hsplit, hlater]
    simp [Located.below]
  obtain ⟨rfl, hsame, -⟩ := (List.append_cons_inj_of_notMem (hmissing houtside.1)
    (List.not_mem_append hlaterBelow (hmissing houtside.2))).mp hboth
  obtain ⟨-, rfl⟩ : reached.isContainer = container ∧ reached = entity := by simpa using hsame
  exact ⟨hreaches, hwrites⟩

end HeaderSynopsis.Generation
