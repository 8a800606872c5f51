import HeaderSynopsis.Proofs.Generation.Trace
import Mathlib.Data.List.Basic

namespace HeaderSynopsis.Generation

open Declaration Writing

def Showing.entered? : Showing → Option Entity
  | .enter _ entity => some entity
  | _ => none

theorem filterMap_entered?_write (ws : List Write) :
    (ws.map Showing.write).filterMap Showing.entered? = [] := by
  rw [List.filterMap_map, List.filterMap_eq_nil_iff]
  exact fun _ _ => rfl

def visits (decide : Entity → Detail) (entity : Entity) : List Entity :=
  (showings decide entity).filterMap Showing.entered?

theorem visits_eq (decide : Entity → Detail) (entity : Entity) :
    visits decide entity =
      entity :: if decide entity = .definition ∧ entity.isContainer then
        entity.children.flatMap (visits decide) else [] := by
  have henter (later : List Showing) :
      (Showing.enter entity.isContainer entity :: later).filterMap Showing.entered? =
        entity :: later.filterMap Showing.entered? := rfl
  have hleave : [Showing.leave entity].filterMap Showing.entered? = [] := rfl
  rw [visits]
  by_cases ho : decide entity = .omitted
  · rw [showings_of_omitted ho, henter, if_neg (by simp [ho])]
    rfl
  by_cases hd : decide entity = .definition ∧ entity.isContainer
  · rw [showings_of_definition hd.1 hd.2, henter, if_pos hd]
    simp only [List.filterMap_append, filterMap_entered?_write, hleave, List.nil_append,
      List.append_nil, List.filterMap_flatMap]
    rfl
  · rw [showings_of_declaration ho hd, henter, if_neg hd, List.filterMap_append,
      filterMap_entered?_write]
    cases entity.isContainer <;> rfl

/-- Decisions are asked about entities in the order of the tree, each once at most. -/
theorem visits_sublist_walk (decide : Entity → Detail) (entity : Entity) :
    (visits decide entity).Sublist entity.walk := by
  induction entity using Entity.tree_induction with
  | node entity ih =>
    rw [visits_eq, Entity.walk_eq]
    refine List.Sublist.cons_cons _ ?_
    split
    · generalize entity.children = children at ih
      induction children with
      | nil => exact List.Sublist.refl _
      | cons child rest ihrest =>
        rw [List.flatMap_cons, List.flatMap_cons]
        have hrest := ihrest fun c hc => ih c (List.mem_cons_of_mem _ hc)
        exact (ih child List.mem_cons_self).append hrest
    · exact List.nil_sublist _

/-- If everything is defined and only containers have children, decisions are asked about all. -/
theorem visits_eq_walk {decide : Entity → Detail} {entity : Entity}
    (hd : ∀ e ∈ entity.walk, decide e = .definition)
    (hc : ∀ e ∈ entity.walk, e.children ≠ [] → e.isContainer = true) :
    visits decide entity = entity.walk := by
  induction entity using Entity.tree_induction with
  | node entity ih =>
    have hchildren : entity.children.flatMap (visits decide) =
        entity.children.flatMap Entity.walk := by
      refine List.flatMap_congr fun child hm => ih child hm (fun e he => ?_) fun e he => ?_
      · exact hd e (Entity.mem_walk_of_child hm he)
      · exact hc e (Entity.mem_walk_of_child hm he)
    rw [visits_eq, Entity.walk_eq, hchildren, hd entity entity.self_mem_walk]
    -- Without children it makes no difference whether the entity is a container.
    by_cases hnil : entity.children = []
    · rw [hnil, List.flatMap_nil, ite_self]
    · rw [if_pos ⟨rfl, hc entity entity.self_mem_walk hnil⟩]

def Generator.noting {σ : Type} (g : Generator σ) : Generator (σ × List (Entity × Detail)) where
  enter container entity s :=
    let (decision, next) := g.enter container entity s.1
    (decision, next, s.2 ++ decision.toList.map fun detail => (entity, detail))
  leave entity s := (g.leave entity s.1, s.2)
  write w s := (g.write w s.1, s.2)

def decisionsTaken {σ : Type} (g : Generator σ) (entity : Entity) (s : σ) :
    List (Entity × Detail) :=
  (generate g.noting entity (s, [])).state.2

namespace Generator

variable {σ : Type} {g : Generator σ} {decide : Entity → Detail}

theorem Decides.noting (hg : g.Decides decide) : g.noting.Decides decide :=
  fun container entity s => hg container entity s.1

theorem Decides.attendAll_noting (hg : g.Decides decide) (shown : List Showing)
    (s : σ × List (Entity × Detail)) :
    (g.noting.attendAll shown s).2 =
      s.2 ++ (shown.filterMap Showing.entered?).map fun entity => (entity, decide entity) := by
  induction shown generalizing s with
  | nil => exact (List.append_nil _).symm
  | cons o rest ih =>
    rw [attendAll_cons, ih]
    cases o with
    | enter container entity =>
      have hlog : (g.noting.attend (.enter container entity) s).2 =
          s.2 ++ [(entity, decide entity)] := by
        change s.2 ++ (g.enter container entity s.1).1.toList.map _ = _
        rw [hg container entity s.1]
        rfl
      rw [hlog, List.append_assoc]
      rfl
    | leave entity => rfl
    | write w => rfl

/-- A generator with decisions of its own takes them about the entities that it is asked about. -/
theorem Decides.decisionsTaken_eq (hg : g.Decides decide) (entity : Entity) (s : σ) :
    decisionsTaken g entity s =
      (visits decide entity).map fun visited => (visited, decide visited) := by
  rw [decisionsTaken, hg.noting.generate_eq]
  exact hg.attendAll_noting _ _

end Generator

end HeaderSynopsis.Generation
