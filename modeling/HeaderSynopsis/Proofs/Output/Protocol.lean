import HeaderSynopsis.Proofs.Generation.Attribution
import HeaderSynopsis.Proofs.Output.Recording

/-!
The protocol of decisions and ends. Every event of a record belongs to the entity at one position of
the tree, and the events of an entity and of everything below it begin with its decision. How they
go on, and when they end, depends on the decision and on whether the entity is a container.
-/

namespace HeaderSynopsis.Output

open Declaration Writing Generation

namespace Recorder

/-- A position leads to an entity through definitions of containers only. -/
abbrev Reaches (r : Recorder) (root : Entity) (position : Position) (entity : Entity) : Prop :=
  Generation.Reaches (fun visited => r.detail visited.id) root position entity

def steps (position : Position) (ws : List Write) : Located Event :=
  ws.map fun w => (position, .write w)

/-- Events of a tree, each with the position of the entity that it belongs to, keep to the
protocol. -/
structure Protocol (r : Recorder) (root : Entity) (events : Located Event) : Prop where
  -- Nothing comes between the events of an entity and those of the entities below it.
  contiguous : ∀ position, events.within position <:+: events
  -- Below an omitted entity, a mere declaration or an entity that is no container, nothing is
  -- recorded.
  unreached : ∀ position, (∀ entity, ¬r.Reaches root position entity) → events.within position = []
  -- Of an omitted entity there is the decision and nothing else.
  omitted : ∀ position entity, r.Reaches root position entity → r.detail entity.id = .omitted →
    events.within position = [(position, .of (.enter entity.isContainer entity))]
  -- Of an entity that is no container there is one decision, and no beginning or end.
  leaf : ∀ position entity, r.Reaches root position entity → r.detail entity.id ≠ .omitted →
    entity.isContainer = false →
    events.within position = (position, .leaf entity.id) ::
      steps position (entity.head ++ entity.declarationEnd ++ entity.lineEnd)
  -- A declared container ends after its line.
  declaration : ∀ position entity, r.Reaches root position entity →
    r.detail entity.id = .declaration → entity.isContainer = true →
    events.within position = (position, .containerBegin entity.id) ::
      steps position (entity.head ++ entity.declarationEnd ++ entity.lineEnd) ++
        [(position, .containerEnd entity.id)]
  -- A defined container has the events of its children in their order, then its own closing and the
  -- break of its line, and then its end.
  definition : ∀ position entity, r.Reaches root position entity →
    r.detail entity.id = .definition → entity.isContainer = true →
    events.within position = (position, .containerBegin entity.id) ::
      steps position (entity.head ++ entity.opening) ++
        (List.range entity.children.length).flatMap
          (fun index => events.within (position ++ [index])) ++
        steps position (entity.closing ++ entity.lineEnd) ++ [(position, .containerEnd entity.id)]

variable (r : Recorder) {root entity : Entity} {position : Position}

def locatedEvents (root : Entity) : Located Event :=
  (located (fun visited => r.detail visited.id) root).map (Prod.map id Event.of)

theorem map_snd_locatedEvents (root : Entity) :
    (r.locatedEvents root).map Prod.snd = r.events root := by
  rw [events, ← map_snd_located, locatedEvents, List.map_map, List.map_map]
  rfl

theorem map_of_here (position : Position) (ws : List Write) :
    ((here ws).below position).map (Prod.map id Event.of) = steps position ws := by
  rw [here, Located.below, List.map_map, List.map_map, steps]
  refine List.map_congr_left fun w _ => ?_
  exact Prod.ext (List.append_nil position) rfl

variable {r}

theorem within_locatedEvents (h : r.Reaches root position entity) :
    (r.locatedEvents root).within position =
      ((located (fun visited => r.detail visited.id) entity).below position).map
        (Prod.map id Event.of) := by
  rw [locatedEvents, Located.within_map, within_located_of_reaches h]

/-- The events of the children of an entity that is reached, one after the other. -/
theorem map_of_locatedAll (h : r.Reaches root position entity)
    (hd : r.detail entity.id = .definition ∧ entity.isContainer) :
    ((locatedAll (fun visited => r.detail visited.id) 0 entity.children).below position).map
        (Prod.map id Event.of) =
      (List.range entity.children.length).flatMap fun index =>
        (r.locatedEvents root).within (position ++ [index]) := by
  rw [below_locatedAll h hd, List.map_flatMap]
  exact List.flatMap_congr fun index _ => (Located.within_map _ _ _).symm

/-- The events of a tree, at their positions, keep to the protocol. -/
theorem protocol_locatedEvents (r : Recorder) (root : Entity) :
    r.Protocol root (r.locatedEvents root) where
  contiguous position := by
    rw [locatedEvents, Located.within_map]
    exact (isInfix_within_located root position).map _
  unreached position h := by
    rw [locatedEvents, Located.within_map, within_located_of_not_reaches h]
    rfl
  omitted position entity h hd := by
    rw [within_locatedEvents h, located_of_omitted hd]
    simp [Located.below]
  leaf position entity h hd hc := by
    rw [within_locatedEvents h, located_of_declaration hd (by simp [hc]), hc]
    simp only [Bool.false_eq_true, if_false, List.append_nil]
    rw [← map_of_here]
    simp [Located.below, Event.of]
  declaration position entity h hd hc := by
    have hwritten : r.detail entity.id ≠ .omitted := by simp [hd]
    rw [within_locatedEvents h, located_of_declaration hwritten (by simp [hd]), hc, if_pos rfl,
      ← map_of_here]
    simp [Located.below, Event.of]
  definition position entity h hd hc := by
    rw [within_locatedEvents h, located_of_definition hd hc, hc, ← map_of_locatedAll h ⟨hd, hc⟩,
      ← map_of_here, ← map_of_here]
    simp [Located.below, Event.of]

/-- Whatever a recorder omits or reduces to declarations, it records every tree to the end, and the
record keeps to the protocol. -/
theorem record_keeps_protocol (omitted declarations : List Id) (root : Entity) :
    let r : Recorder := { omitted, declarations }
    r.record root = ((r.locatedEvents root).map Prod.snd, none) ∧
      r.Protocol root (r.locatedEvents root) := by
  intro r
  refine ⟨?_, r.protocol_locatedEvents root⟩
  rw [map_snd_locatedEvents]
  exact record_of_willing rfl root

end Recorder

end HeaderSynopsis.Output
