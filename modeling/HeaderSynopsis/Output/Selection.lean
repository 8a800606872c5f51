import HeaderSynopsis.Generation.Generator

namespace HeaderSynopsis.Output

open Declaration Generation

structure Selection where
  -- Entities omitted together with what is inside them.
  omitted : List Id := []
  -- Entities of which only the declaration is written.
  declarations : List Id := []
  -- Words of kinds that are omitted altogether.
  omittedKinds : List String := []

namespace Selection

def isEmpty (selection : Selection) : Bool :=
  selection.omitted.isEmpty && selection.declarations.isEmpty && selection.omittedKinds.isEmpty

/-- The most that the selection allows of an entity. -/
def limit (selection : Selection) (entity : Entity) : Detail :=
  if entity.id ∈ selection.omitted ∨ entity.kind.word ∈ selection.omittedKinds then .omitted
  else if entity.id ∈ selection.declarations then .declaration
  else .definition

def narrow {σ : Type} (selection : Selection) (g : Generator σ) : Generator σ where
  enter container entity s :=
    match selection.limit entity with
    | .omitted => (some .omitted, s)
    | limit =>
        let (detail, s) := g.enter container entity s
        (detail.map (·.min limit), s)
  leave := g.leave
  write := g.write

end Selection

end HeaderSynopsis.Output
