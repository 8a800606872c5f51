import HeaderSynopsis.Manifest.Loaded
import HeaderSynopsis.Proofs.Manifest.Acceptance

namespace HeaderSynopsis.Manifest

open Declaration

namespace Loaded

theorem ofDocument_eq_ok_iff {source : Source} {document : Document} {manifest : Loaded} :
    ofDocument source document = .ok manifest ↔
      document.options.unknownKind? = none ∧
        ∃ file declared, document.file.lower source = .ok (file, declared) ∧
          manifest = ⟨document.options, file,
            unresolvedReferences declared file ++ unknownIds declared document.options⟩ := by
  rw [ofDocument]
  cases document.options.unknownKind? with
  | some word => simp
  | none =>
    dsimp only
    rw [bind_eq_ok]
    constructor
    · rintro ⟨⟨file, declared⟩, hlower, h⟩
      exact ⟨rfl, file, declared, hlower, (Except.ok.inj h).symm⟩
    · rintro ⟨-, file, declared, hlower, rfl⟩
      exact ⟨(file, declared), hlower, rfl⟩

theorem ofDocument_eq_error_iff {source : Source} {document : Document} {problem : Problem}
    (h : document.options.unknownKind? = none) :
    ofDocument source document = .error problem ↔ document.file.lower source = .error problem := by
  rw [ofDocument, h]
  dsimp only
  cases document.file.lower source with
  | error other =>
    constructor
    · intro h
      exact congrArg Except.error (Except.error.inj h)
    · intro h
      exact congrArg Except.error (Except.error.inj h)
  | ok result =>
    constructor
    · intro h
      cases h
    · intro h
      cases h

theorem ofSource_eq_ok_iff {source : Source} {manifest : Loaded} :
    ofSource source = .ok manifest ↔
      ∃ document, (Toml.read source.text).bind Document.ofFields = some document ∧
        ofDocument source document = .ok manifest := by
  rw [ofSource]
  cases (Toml.read source.text).bind Document.ofFields with
  | none => simp
  | some document => simp

/-- The file of a manifest that loads is what some well-formed definition of a file is lowered to. -/
theorem exists_wellFormed_of_ofSource {source : Source} {manifest : Loaded}
    (h : ofSource source = .ok manifest) :
    ∃ file : FileDefinition, file.WellFormed ∧ manifest.file = file.entity := by
  obtain ⟨document, -, hdocument⟩ := ofSource_eq_ok_iff.mp h
  obtain ⟨-, tree, declared, hlower, rfl⟩ := ofDocument_eq_ok_iff.mp hdocument
  obtain ⟨haccepted, hresult⟩ := FileDefinition.lower_eq_ok.mp hlower
  exact ⟨document.file, document.file.accepted_iff_wellFormed.mp haccepted,
    (Prod.mk.inj hresult).1⟩

end Loaded

end HeaderSynopsis.Manifest
