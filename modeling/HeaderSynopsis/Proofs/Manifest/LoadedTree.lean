import HeaderSynopsis.Proofs.Manifest.Identities
import HeaderSynopsis.Proofs.Manifest.Nesting

namespace HeaderSynopsis.Declaration.Entity

/-- What may hold others is a container, unless it is a function, which holds statements only. -/
theorem isContainer_of_acceptsChildren {entity : Entity}
    (h : entity.kind.acceptsChildren = true) : entity.isContainer = true := by
  unfold isContainer
  cases hk : entity.kind <;> simp_all [EntityKind.acceptsChildren]

theorem occupiesLine_iff {entity : Entity} :
    entity.occupiesLine = true ↔ entity.kind.word ≠ "file" := by
  unfold occupiesLine
  cases entity.kind <;> simp [EntityKind.word]

end HeaderSynopsis.Declaration.Entity

namespace HeaderSynopsis.Manifest

open Declaration

structure LoadedTree (file : Entity) : Prop where
  isFile : file.kind = .file
  noOtherFile : ∀ e ∈ file.walk.tail, e.kind.word ≠ "file"
  distinct : (file.walk.tail.map Entity.id).Nodup
  containers : ∀ e ∈ file.walk, e.children ≠ [] → e.isContainer = true

namespace Loaded

variable {source : Source} {manifest : Loaded}

theorem loadedTree (h : ofSource source = .ok manifest) : LoadedTree manifest.file := by
  obtain ⟨document, -, hdocument⟩ := ofSource_eq_ok_iff.mp h
  obtain ⟨-, tree, declared, hlower, rfl⟩ := ofDocument_eq_ok_iff.mp hdocument
  have horderly := FileDefinition.orderly_of_lower hlower
  obtain ⟨haccepted, hresult⟩ := FileDefinition.lower_eq_ok.mp hlower
  obtain ⟨rfl, rfl⟩ := Prod.mk.inj hresult
  have htail : document.file.entity.walk.tail = document.file.placed.map Placed.entity := by
    rw [document.file.walk_entity_eq, List.tail_cons]
  have hfile := document.file.accepted_iff_wellFormed.mp haccepted
  refine ⟨rfl, ?_, ?_, fun e he hne => ?_⟩
  · rw [htail, List.forall_mem_map]
    intro p hp
    rw [Placed.entity, Definition.entity_eq]
    exact (hfile.allowed p hp).notFile
  · rw [htail, Placed.map_id_entity]
    exact hfile.nodup
  · exact Entity.isContainer_of_acceptsChildren ((horderly e he).leaf hne)

/-- Everywhere in the tree the children may stand where they do. -/
theorem orderly (h : ofSource source = .ok manifest) : ∀ e ∈ manifest.file.walk, e.Orderly := by
  obtain ⟨document, -, hdocument⟩ := ofSource_eq_ok_iff.mp h
  obtain ⟨-, tree, declared, hlower, rfl⟩ := ofDocument_eq_ok_iff.mp hdocument
  exact FileDefinition.orderly_of_lower hlower

/-- The warnings of a manifest are about identities that are not among those below its file. -/
theorem warnings_eq (h : ofSource source = .ok manifest) :
    manifest.warnings =
      unresolvedReferences (manifest.file.walk.tail.map Entity.id) manifest.file ++
        unknownIds (manifest.file.walk.tail.map Entity.id) manifest.options := by
  obtain ⟨document, -, hdocument⟩ := ofSource_eq_ok_iff.mp h
  obtain ⟨-, tree, declared, hlower, rfl⟩ := ofDocument_eq_ok_iff.mp hdocument
  obtain ⟨-, hresult⟩ := FileDefinition.lower_eq_ok.mp hlower
  obtain ⟨rfl, rfl⟩ := Prod.mk.inj hresult
  rw [document.file.walk_entity_eq, List.tail_cons, Placed.map_id_entity]

def declared (manifest : Loaded) : List Id := manifest.file.walk.tail.map Entity.id

/-- The file is called by its name. -/
theorem id_file (h : ofSource source = .ok manifest) :
    manifest.file.id.text = manifest.file.name := by
  obtain ⟨file, -, he⟩ := exists_wellFormed_of_ofSource h
  rw [he]
  rfl

theorem template_file (h : ofSource source = .ok manifest) : manifest.file.template = none := by
  obtain ⟨file, -, he⟩ := exists_wellFormed_of_ofSource h
  rw [he]
  rfl

/-- The file itself mentions nothing. -/
theorem references_file (h : ofSource source = .ok manifest) : manifest.file.references = [] := by
  rw [Entity.references, template_file h, (loadedTree h).isFile]
  rfl

end Loaded

end HeaderSynopsis.Manifest
