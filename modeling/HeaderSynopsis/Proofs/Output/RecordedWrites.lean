import HeaderSynopsis.Proofs.Generation.Placement
import HeaderSynopsis.Proofs.Output.Protocol

namespace HeaderSynopsis.Output

open Declaration Writing Generation

def Event.write? : Event → Option Write
  | .write w => some w
  | _ => none

def recordedWrites (events : Located Event) : List Write := events.filterMap (·.2.write?)

@[simp]
theorem recordedWrites_append (events later : Located Event) :
    recordedWrites (events ++ later) = recordedWrites events ++ recordedWrites later := by
  simp [recordedWrites]

theorem recordedWrites_map_of (shown : Located Showing) :
    recordedWrites (shown.map (Prod.map id Event.of)) = shown.writes := by
  rw [recordedWrites, List.filterMap_map, Located.writes, writesOf, List.filterMap_map]
  refine List.filterMap_congr fun shown _ => ?_
  obtain ⟨position, thing⟩ := shown
  cases thing with
  | enter container entity => cases container <;> rfl
  | _ => rfl

/-- An event about which a decision was asked is that of an entity that was shown. -/
theorem Event.exists_enter_of_decided {thing : Showing} (h : (Event.of thing).decided?.isSome) :
    ∃ container entity, thing = .enter container entity := by
  cases thing with
  | enter container entity => exact ⟨container, entity, rfl⟩
  | _ => exact absurd h Bool.false_ne_true

namespace Recorder

variable {r : Recorder} {root entity : Entity} {position : Position}

@[simp]
theorem recordedWrites_steps (position : Position) (ws : List Write) :
    recordedWrites (steps position ws) = ws := by
  simp [recordedWrites, steps, List.filterMap_map, Event.write?]

abbrev writtenBefore (r : Recorder) (root : Entity) (position : Position) : List Write :=
  Generation.writtenBefore (fun visited => r.detail visited.id) root position

/-- Wherever a decision was asked for, its position reaches an entity, and the steps before that
entity are recorded. -/
theorem split_at_decision {before after : Located Event} {event : Event}
    (h : r.locatedEvents root = before ++ (position, event) :: after)
    (hd : event.decided?.isSome) :
    (∃ entity, r.Reaches root position entity) ∧
      recordedWrites before = r.writtenBefore root position := by
  obtain ⟨before, shown, hsplit, rfl, hshown⟩ := List.map_eq_append_iff.mp h
  obtain ⟨⟨position, thing⟩, after, rfl, hthing, rfl⟩ := List.map_eq_cons_iff.mp hshown
  obtain ⟨rfl, rfl⟩ := Prod.mk.inj hthing
  obtain ⟨container, entity, rfl⟩ := Event.exists_enter_of_decided hd
  obtain ⟨hreaches, hwrites⟩ := located_split_at_enter hsplit
  exact ⟨⟨entity, hreaches⟩, by rw [recordedWrites_map_of, hwrites]; rfl⟩

/-- The record stands around the part of each entity that is reached, with the steps before that
entity in front of it. -/
theorem locatedEvents_around (h : r.Reaches root position entity) :
    ∃ before after, r.locatedEvents root = before ++ (r.locatedEvents root).within position ++ after ∧
      recordedWrites before = r.writtenBefore root position := by
  obtain ⟨before, after, hsplit, hwrites⟩ := located_around h
  refine ⟨before.map (Prod.map id Event.of), after.map (Prod.map id Event.of), ?_, ?_⟩
  · rw [within_locatedEvents h, locatedEvents, hsplit, List.map_append, List.map_append]
  · rw [recordedWrites_map_of, hwrites]

/-- A recorder that refuses nothing records the events of a tree to the end. -/
theorem record_eq_locatedEvents (hr : r.refused = none) (root : Entity) :
    r.record root = ((r.locatedEvents root).map Prod.snd, none) := by
  rw [map_snd_locatedEvents]
  exact record_of_willing hr root

/-- The steps among the events of an entity that is reached, and of everything below it. -/
theorem recordedWrites_within (h : r.Reaches root position entity) :
    recordedWrites ((r.locatedEvents root).within position) =
      written (fun visited => r.detail visited.id) entity := by
  rw [within_locatedEvents h, recordedWrites_map_of, Located.writes_below, writes_located]

end Recorder

end HeaderSynopsis.Output
