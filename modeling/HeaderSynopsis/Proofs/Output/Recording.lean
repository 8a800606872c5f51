import HeaderSynopsis.Output.Recorder
import HeaderSynopsis.Proofs.Generation.Trace

namespace HeaderSynopsis.Output

open Declaration Writing Generation

def Event.of : Showing → Event
  | .enter container entity => if container then .containerBegin entity.id else .leaf entity.id
  | .leave entity => .containerEnd entity.id
  | .write w => .write w

theorem Event.decided?_of_enter (container : Bool) (entity : Entity) :
    (Event.of (.enter container entity)).decided? = some entity.id := by
  cases container <;> rfl

@[simp]
theorem visited_cons (event : Event) (events : List Event) :
    visited (event :: events) = event.decided?.toList ++ visited events := by
  rw [visited, List.filterMap_cons]
  cases event.decided? <;> rfl

@[simp]
theorem visited_map_write (ws : List Write) : visited (ws.map .write) = [] := by
  induction ws with
  | nil => rfl
  | cons w ws ih =>
    rw [List.map_cons, visited_cons, ih]
    rfl

namespace Recorder

def detail (r : Recorder) (id : Id) : Detail :=
  if id ∈ r.omitted then .omitted else if id ∈ r.declarations then .declaration else .definition

theorem decision_eq (r : Recorder) (id : Id) :
    r.decision id = if r.refused = some id then none else some (r.detail id) := by
  unfold decision detail
  split
  · rfl
  · split
    · rfl
    · split <;> rfl

def events (r : Recorder) (entity : Entity) : List Event :=
  (showings (fun visited => r.detail visited.id) entity).map Event.of

def eventsInside (r : Recorder) (entity : Entity) : List Event :=
  if r.detail entity.id = .definition ∧ entity.isContainer then
    (entity.head ++ entity.opening).map .write ++ entity.children.flatMap r.events ++
      (entity.closing ++ entity.lineEnd).map .write
  else (entity.head ++ entity.declarationEnd ++ entity.lineEnd).map .write

theorem map_of_flatMap_showings (r : Recorder) (entities : List Entity) :
    (entities.flatMap (showings fun visited => r.detail visited.id)).map Event.of =
      entities.flatMap r.events := by
  rw [List.map_flatMap]
  rfl

theorem map_of_write (ws : List Write) : (ws.map Showing.write).map Event.of = ws.map .write := by
  rw [List.map_map]
  rfl

theorem events_eq (r : Recorder) (entity : Entity) :
    r.events entity =
      Event.of (.enter entity.isContainer entity) ::
        if (r.detail entity.id).isWritten then
          r.eventsInside entity ++
            if entity.isContainer then [.containerEnd entity.id] else []
        else [] := by
  have hinside : (showingsInside (r.detail entity.id) entity
      (entity.children.flatMap (showings fun visited => r.detail visited.id))).map Event.of =
        r.eventsInside entity := by
    unfold showingsInside eventsInside
    split
    · simp only [List.map_append, map_of_write, map_of_flatMap_showings]
    · rw [map_of_write]
  rw [events, showings_eq, List.map_cons, ← hinside]
  cases (r.detail entity.id).isWritten with
  | false => rfl
  | true =>
    cases entity.isContainer <;> simp [Event.of]

theorem toList_writeAll (r : Recorder) (ws : List Write) (s : Array Event) :
    (r.generator.writeAll ws s).toList = s.toList ++ ws.map .write := by
  induction ws generalizing s with
  | nil => simp
  | cons w ws ih =>
    rw [Generator.writeAll_cons, ih]
    simp [generator]

theorem toList_attendAll (r : Recorder) (shown : List Showing) (s : Array Event) :
    (r.generator.attendAll shown s).toList = s.toList ++ shown.map Event.of := by
  induction shown generalizing s with
  | nil => simp
  | cons o rest ih =>
    rw [Generator.attendAll_cons, ih]
    cases o <;> simp [Generator.attend, generator, Event.of]

/-- A recorder that refuses nothing decides about every entity by its identity. -/
theorem decides_of_willing {r : Recorder} (hr : r.refused = none) :
    r.generator.Decides fun entity => r.detail entity.id := by
  intro container entity s
  have hwilling : ¬r.refused = some entity.id := by simp [hr]
  change r.decision entity.id = _
  rw [decision_eq, if_neg hwilling]

def record (r : Recorder) (entity : Entity) : List Event × Option Id :=
  let o := generate r.generator entity #[]
  (o.state.toList, o.stoppedAt)

theorem record_of_willing {r : Recorder} (hr : r.refused = none) (entity : Entity) :
    r.record entity = (r.events entity, none) := by
  rw [record, (decides_of_willing hr).generate_eq]
  dsimp only
  rw [toList_attendAll]
  rfl

end Recorder

end HeaderSynopsis.Output
