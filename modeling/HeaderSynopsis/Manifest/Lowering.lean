import HeaderSynopsis.Manifest.Definition
import HeaderSynopsis.Manifest.Problem

/-!
From the definitions of a manifest to a tree of entities. Every entity gets an identity, and the
first definition that breaks a rule, each one before those inside it, stops the lowering.
-/

namespace HeaderSynopsis.Manifest

open Declaration

/-- Where definitions stand: the identity and kind of the entity around them, and the names of all
entities around them. -/
structure Place where
  parent : Id
  kind : EntityKind
  path : List String

def Place.file : Place := ⟨⟨""⟩, .file, []⟩

def home? (kind parent : EntityKind) : Option Home :=
  match kind, parent with
  | .file, _ => some .fileTable
  | .accessLabel _, .classType .. => none
  | .accessLabel _, _ => some .classType
  | .enumerator _, .enumeration .. => none
  | .enumerator _, _ => some .enumeration
  | _, .enumeration .. => some .outsideEnumeration
  | _, _ => none

namespace Definition

/-- The identity of a definition: its own choice, or else its name inside its parent. One without a
name is called by its index. -/
def assignedId (place : Place) (index : Nat) (d : Definition) : Id :=
  match d.id with
  | some id => id
  | none => place.parent.child (if d.name = "" then "@" ++ toString index else d.name)

def needle (d : Definition) : String := (d.id.map Id.text).getD d.name

def placementProblem? (source : Source) (place : Place) (d : Definition) : Option Problem :=
  (home? d.kind place.kind).map fun home =>
    let parent := if place.parent.text = "" then source.filename else place.parent.text
    .misplaced d.kind.word parent home (source.firstSpan? d.name)

def namingProblem? (source : Source) (place : Place) (d : Definition) : Option Problem :=
  if d.kind.isAnonymous then none
  else if d.name = "" then
    if d.kind.mayBeUnnamed then none else some (.nameMissing (describe place.path d.kind.word))
  else nameProblem? source place.path d.name d.kind.word

def identityProblem? (source : Source) (seen : List Id) (id : Id) (d : Definition) :
    Option Problem :=
  if id ∈ seen then
    some (.duplicateId id (source.firstSpan? d.needle) (source.lastSpan? d.needle))
  else none

def childrenProblem? (source : Source) (id : Id) (d : Definition) : Option Problem :=
  if !d.children.isEmpty && !d.kind.acceptsChildren then
    some (.unexpectedChildren d.kind.word id (source.firstSpan? d.needle))
  else none

def templateProblem? (source : Source) (id : Id) (d : Definition) : Option Problem :=
  if d.template.isSome && d.specialization.isSome then
    some (.templateAndSpecialization id (source.firstSpan? d.needle))
  else none

/-- The first rule that a definition breaks by itself; `seen` are the identities before it. -/
def problem? (source : Source) (place : Place) (seen : List Id) (id : Id) (d : Definition) :
    Option Problem :=
  (d.placementProblem? source place).or <|
  (d.namingProblem? source place).or <|
  (d.identityProblem? source seen id).or <|
  (d.childrenProblem? source id).or <|
  d.templateProblem? source id

def templateHead (d : Definition) : Option TemplateHead :=
  match d.template with
  | some parameters => some (.primary parameters)
  | none => d.specialization.map .specialization

def pathSegment (d : Definition) : String := if d.name = "" then "<anonymous>" else d.name

mutual

def lower (source : Source) (place : Place) (index : Nat) (seen : List Id) :
    Definition → Except Problem (Entity × List Id)
  | d@⟨name, _, kind, comment, _, _, children⟩ =>
      let id := d.assignedId place index
      match d.problem? source place seen id with
      | some problem => .error problem
      | none => do
          let inside : Place := ⟨id, kind, place.path ++ [d.pathSegment]⟩
          let (entities, seen) ← lowerAll source inside 0 (seen ++ [id]) children
          return (⟨id, name, kind, d.templateHead, comment, entities⟩, seen)

def lowerAll (source : Source) (place : Place) (index : Nat) (seen : List Id) :
    List Definition → Except Problem (List Entity × List Id)
  | [] => .ok ([], seen)
  | d :: rest => do
      let (entity, seen) ← lower source place index seen d
      let (entities, seen) ← lowerAll source place (index + 1) seen rest
      return (entity :: entities, seen)

end

end Definition

/-- The entity of a file, and the identities of all entities in it. Its own is its name. -/
def FileDefinition.lower (source : Source) (file : FileDefinition) :
    Except Problem (Entity × List Id) := do
  let (entities, seen) ← Definition.lowerAll source .file 0 [] file.entities
  let entity := Entity.ofKind .file file.name
  return ({ entity with comment := file.comment, children := entities }, seen)

end HeaderSynopsis.Manifest
