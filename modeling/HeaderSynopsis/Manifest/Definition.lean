import HeaderSynopsis.Coding.Entity
import HeaderSynopsis.Manifest.Options

namespace HeaderSynopsis.Manifest

open Data Declaration

structure Definition where
  name : String
  -- An identity of its own choice.
  id : Option Id
  kind : EntityKind
  comment : Option String
  -- The parameters of a template.
  template : Option (List TemplateParameter)
  -- What a full specialization is for.
  specialization : Option Specialization
  children : List Definition

structure FileDefinition where
  name : String
  comment : Option String
  entities : List Definition

structure Document where
  options : Options
  file : FileDefinition

def Definition.fieldNames : List String :=
  ["name", "id", "comment", "template", "specialization", "children"]

mutual

def Definition.decode : Datum → Option Definition
  | .table fields => do
      let name ← Fields.defaulted fields "name" "" Datum.text?
      let id ← Fields.optional fields "id" Id.decode
      let kind ← EntityKind.ofTable .word fields
      let comment ← Fields.optional fields "comment" Datum.text?
      let template ← Fields.optional fields "template" (TemplateHead.decodeParameters .word)
      let specialization ← Fields.optional fields "specialization" Specialization.decode
      let children ← Definition.decodeField fields
      if otherFieldsFit Definition.fieldNames fields then
        return ⟨name, id, kind, comment, template, specialization, children⟩
      else none
  | _ => none

def Definition.decodeField : List (String × Datum) → Option (List Definition)
  | [] => some []
  | (word, .list items) :: rest =>
      if word = "children" then Definition.decodeAll items else Definition.decodeField rest
  | (word, _) :: rest => if word = "children" then none else Definition.decodeField rest

def Definition.decodeAll : List Datum → Option (List Definition)
  | [] => some []
  | item :: rest => do
      let definition ← Definition.decode item
      let definitions ← Definition.decodeAll rest
      return definition :: definitions

end

namespace FileDefinition

def fieldNames : List String := ["name", "comment", "entities"]

/-- The file from its fields; no others may occur. -/
def ofFields (fields : Fields) : Option FileDefinition := do
  let name ← fields.required "name" Datum.text?
  let comment ← fields.optional "comment" Datum.text?
  let entities ← fields.defaulted "entities" [] (Datum.list? Definition.decode)
  if fields.all (·.1 ∈ fieldNames) then return ⟨name, comment, entities⟩ else none

def decode (datum : Datum) : Option FileDefinition :=
  (datum.record? fieldNames).bind ofFields

end FileDefinition

/-- A manifest from the fields of its document; no others may occur. -/
def Document.ofFields (fields : Fields) : Option Document := do
  let options ← fields.defaulted "render" {} (Options.decode .emptyTableOrList)
  let file ← fields.required "file" FileDefinition.decode
  if fields.all (·.1 ∈ ["render", "file"]) then return ⟨options, file⟩ else none

end HeaderSynopsis.Manifest
