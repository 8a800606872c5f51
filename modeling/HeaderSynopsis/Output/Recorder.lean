import HeaderSynopsis.Generation.Generator

namespace HeaderSynopsis.Output

open Declaration Writing Generation

inductive Event where
  | containerBegin (id : Id)
  | containerEnd (id : Id)
  | leaf (id : Id)
  | write (write : Write)
deriving DecidableEq, Repr

namespace Event

def decided? : Event → Option Id
  | containerBegin id | leaf id => some id
  | _ => none

def text : Event → String
  | write w => w.text
  | _ => ""

end Event

structure Recorder where
  omitted : List Id := []
  declarations : List Id := []
  -- The entity at which the generation stops.
  refused : Option Id := none

namespace Recorder

def decision (r : Recorder) (id : Id) : Option Detail :=
  if r.refused = some id then none
  else if id ∈ r.omitted then some .omitted
  else if id ∈ r.declarations then some .declaration
  else some .definition

/-- Records every event; the record is kept in order. -/
def generator (r : Recorder) : Generator (Array Event) where
  enter container entity events :=
    let event := if container then Event.containerBegin entity.id else Event.leaf entity.id
    (r.decision entity.id, events.push event)
  leave entity events := events.push (.containerEnd entity.id)
  write w events := events.push (.write w)

end Recorder

def visited (events : List Event) : List Id := events.filterMap Event.decided?

def recordedText (events : List Event) : String := String.join (events.map Event.text)

@[simp]
theorem visited_append (before after : List Event) :
    visited (before ++ after) = visited before ++ visited after := by
  simp [visited]

@[simp]
theorem recordedText_append (before after : List Event) :
    recordedText (before ++ after) = recordedText before ++ recordedText after := by
  simp [recordedText, String.join_append]

def refusalText (id : Id) : String := "refusing to generate \x60" ++ id.text ++ "\x60"

end HeaderSynopsis.Output
