import HeaderSynopsis.Manifest.Rendering
import HeaderSynopsis.Proofs.Manifest.LoadedTree
import HeaderSynopsis.Proofs.Output.Rendering

/-!
Options about identities that are not declared. Main result: an identity that there is a warning
about can be removed from its option without any effect, unless it is that of the file, which is
then not rendered at all.
-/

namespace HeaderSynopsis.Output

open Declaration Generation

/-- The definition of an entity is not allowed if the entity is named at all. -/
theorem Selection.limit_ne_definition {selection : Selection} {entity : Entity}
    (h : entity.id ∈ selection.omitted ∨ entity.id ∈ selection.declarations) :
    selection.limit entity ≠ .definition := by
  unfold Selection.limit
  split
  · exact Detail.noConfusion
  · rename_i hexcluded
    have hd := h.resolve_left fun ho => hexcluded (Or.inl ho)
    rw [if_pos hd]
    exact Detail.noConfusion

end HeaderSynopsis.Output

namespace HeaderSynopsis.Manifest

open Declaration Generation Output

def Options.ids (options : Options) : IdOption → List Id
  | .omitted => options.omitted
  | .declarations => options.declarations

def Options.without (options : Options) (option : IdOption) (id : Id) : Options :=
  match option with
  | .omitted => { options with omitted := options.omitted.filter (· ≠ id) }
  | .declarations => { options with declarations := options.declarations.filter (· ≠ id) }

def Options.emptyDocument (options : Options) : String :=
  match options.format with
  | .text => ""
  | .html => Markup.finish {}

variable {option : IdOption} {id : Id}

/-- What a selection allows of an entity does not depend on other identities. -/
theorem Options.limit_without (options : Options) {entity : Entity} (h : entity.id ≠ id) :
    (options.without option id).selection.limit entity = options.selection.limit entity := by
  have hmem (ids : List Id) : entity.id ∈ ids.filter (· ≠ id) ↔ entity.id ∈ ids := by
    rw [List.mem_filter]
    exact and_iff_left (decide_eq_true h)
  cases option with
  | omitted => exact Selection.limit_congr (hmem _) Iff.rfl Iff.rfl
  | declarations => exact Selection.limit_congr Iff.rfl (hmem _) Iff.rfl

theorem mem_unknownIds_iff {declared : List Id} {options : Options} :
    .unknownId option id ∈ unknownIds declared options ↔
      id ∈ options.ids option ∧ id ∉ declared := by
  cases option <;> simp [unknownIds, Options.ids]

namespace Loaded

variable {source : Source} {manifest : Loaded}

theorem unknownId_mem_warnings_iff (h : ofSource source = .ok manifest) :
    .unknownId option id ∈ manifest.warnings ↔
      id ∈ manifest.options.ids option ∧ id ∉ manifest.declared := by
  have hreference : .unknownId option id ∉
      unresolvedReferences manifest.declared manifest.file := by
    simp only [unresolvedReferences, List.mem_flatMap, not_exists, not_and]
    intro e _ r _ hm
    split at hm
    · exact List.not_mem_nil hm
    · simp at hm
  rw [warnings_eq h, List.mem_append, ← mem_unknownIds_iff]
  exact or_iff_right hreference

/-- An identity that is not declared belongs to no entity of the tree but the file. -/
theorem id_ne_of_not_declared (h : ofSource source = .ok manifest) (hd : id ∉ manifest.declared)
    (hf : id.text ≠ manifest.file.name) {e : Entity} (he : e ∈ manifest.file.walk) : e.id ≠ id := by
  rintro rfl
  rw [Entity.walk_eq] at he
  rcases List.mem_cons.mp he with rfl | hb
  · exact hf (id_file h)
  · refine hd (List.mem_map.mpr ⟨e, ?_, rfl⟩)
    rwa [Entity.walk_eq]

/-- A file without its definition is nothing to a generator that takes no notice of it. -/
theorem generate_file_eq {σ : Type} (h : ofSource source = .ok manifest) {selection : Selection}
    (hlimit : selection.limit manifest.file ≠ .definition) {g : Generator σ} {s : σ}
    (henter : ∀ container, g.enter container manifest.file s = (some .definition, s))
    (hleave : g.leave manifest.file s = s) :
    generate (selection.narrow g) manifest.file s = ⟨s, none⟩ := by
  have hwrites :
      manifest.file.head ++ manifest.file.declarationEnd ++ manifest.file.lineEnd = [] := by
    have hkind := (loadedTree h).isFile
    simp [Entity.head, Entity.signature, Entity.declarationEnd, Entity.lineEnd,
      Entity.occupiesLine, hkind, template_file h]
  have hentered (container : Bool) : (selection.narrow g).enter container manifest.file s =
      (some (selection.limit manifest.file), s) := by
    have hnext := congrArg Prod.snd (henter container)
    have hdecision := congrArg Prod.fst (henter container)
    dsimp only [Selection.narrow]
    cases selection.limit manifest.file with
    | omitted => rfl
    | declaration => exact Prod.ext (congrArg (Option.map _) hdecision) hnext
    | definition => exact Prod.ext (congrArg (Option.map _) hdecision) hnext
  have hleft : (selection.narrow g).leave manifest.file s = s := hleave
  have hd : ¬(selection.limit manifest.file = .definition ∧ manifest.file.isContainer = true) :=
    fun hd => hlimit hd.1
  rw [generate_eq_scope, scope, hentered]
  dsimp only
  cases hw : (selection.limit manifest.file).isWritten with
  | false => simp [generateInside_of_omitted hw]
  | true => simp [generateInside_of_declaration hw hd, hwrites, Outcome.afterwards, hleft]

/-- An identity that there is a warning about can be removed from its option without any effect on
what is rendered, with these options or others, unless it is that of the file. With that one the
document is empty. -/
theorem render_without_unknown (h : ofSource source = .ok manifest)
    (hw : .unknownId option id ∈ manifest.warnings) (options : Options) :
    (id.text ≠ manifest.file.name →
      manifest.render (options.without option id) = manifest.render options) ∧
    (id.text = manifest.file.name → options.unknownKind? = none → id ∈ options.ids option →
      manifest.render options = .ok options.emptyDocument) := by
  obtain ⟨-, hundeclared⟩ := (unknownId_mem_warnings_iff h).mp hw
  constructor
  · intro hf
    -- No entity below the file has the identity, as it was not declared.
    have hlimit : ∀ e ∈ manifest.file.walk,
        (options.without option id).selection.limit e = options.selection.limit e :=
      fun e he => options.limit_without (id_ne_of_not_declared h hundeclared hf he)
    have hkinds : (options.without option id).unknownKind? = options.unknownKind? := by
      cases option <;> rfl
    have hformat : (options.without option id).format = options.format := by
      cases option <;> rfl
    have hindentation : (options.without option id).indentation = options.indentation := by
      cases option <;> rfl
    rw [render, render, hkinds, Options.renderEntity, Options.renderEntity, hformat, hindentation]
    simp only [renderText, renderHtml, Selection.generate_narrow_congr hlimit]
  · intro hf hkinds hmem
    have hid : manifest.file.id = id := by
      obtain ⟨text⟩ := id
      exact congrArg Id.mk ((id_file h).trans hf.symm)
    have hlimit : options.selection.limit manifest.file ≠ .definition :=
      Selection.limit_ne_definition (by
        rw [hid]
        cases option with
        | omitted => exact Or.inl hmem
        | declarations => exact Or.inr hmem)
    have hkind := (loadedTree h).isFile
    -- The file itself is reduced, and a file that is not defined writes nothing.
    have htext : generate (options.selection.narrow (Layout.generator options.indentation))
        manifest.file {} = ⟨{}, none⟩ := generate_file_eq h hlimit (fun _ => rfl) rfl
    have hanchor : Markup.enter manifest.file {} = {} := by
      simp [Markup.enter, Entity.occupiesLine, hkind]
    have hhtml : generate (options.selection.narrow (Markup.generator options.indentation))
        manifest.file {} = ⟨{}, none⟩ :=
      generate_file_eq h hlimit (fun _ => congrArg (Prod.mk _) hanchor) rfl
    have hdocument : options.renderEntity manifest.file = options.emptyDocument := by
      unfold Options.renderEntity Options.emptyDocument
      cases options.format with
      | text => exact congrArg (fun o => o.state.text) htext
      | html => exact congrArg (fun o => o.state.finish) hhtml
    rw [render, hkinds]
    exact congrArg Except.ok hdocument

-- A manifest that names its file and something that is nowhere.

def hiddenSource : Source where
  text :=
    "[render]\nexclude = [\"geo.hpp\"]\ndeclarations = [\"lost\"]\n\n" ++
    "[file]\nname = \"geo.hpp\"\n\n[[file.entities]]\nkind = \"namespace\"\nname = \"geo\"\n"
  filename := "synops.toml"

def hiddenFields : Data.Fields :=
  [("render", .table [("exclude", .list [.text "geo.hpp"]),
      ("declarations", .list [.text "lost"])]),
    ("file", .table [("name", .text "geo.hpp"), ("entities", .list [
      .table [("kind", .text "namespace"), ("name", .text "geo")]])])]

def hidden : Loaded where
  options := { omitted := [⟨"geo.hpp"⟩], declarations := [⟨"lost"⟩] }
  file :=
    { Entity.ofKind .file "geo.hpp" with
      children := [Entity.ofKind (.namespaceScope false) "geo"] }
  warnings := [.unknownId .omitted ⟨"geo.hpp"⟩, .unknownId .declarations ⟨"lost"⟩]

theorem read_hiddenSource : Toml.read hiddenSource.text = some hiddenFields := by decide +kernel

theorem ofSource_hiddenSource : ofSource hiddenSource = .ok hidden := by
  rw [ofSource, read_hiddenSource]
  rfl

/-- What is nowhere has no effect, while the name of the file hides everything. -/
theorem render_without_unknown_hidden :
    ofSource hiddenSource = .ok hidden ∧
      hidden.render (hidden.options.without .declarations ⟨"lost"⟩) =
        hidden.render hidden.options ∧
      hidden.render hidden.options = .ok "" := by
  have hlostWarned : .unknownId .declarations ⟨"lost"⟩ ∈ hidden.warnings := by decide
  have hfileWarned : .unknownId .omitted ⟨"geo.hpp"⟩ ∈ hidden.warnings := by decide
  have hlost := render_without_unknown ofSource_hiddenSource hlostWarned hidden.options
  have hfile := render_without_unknown ofSource_hiddenSource hfileWarned hidden.options
  exact ⟨ofSource_hiddenSource, hlost.1 (by decide), hfile.2 rfl rfl List.mem_cons_self⟩

/-- Removing an identity that there is a warning about brings the whole text back. -/
theorem exists_unknown_with_effect :
    ∃ source manifest option id, ofSource source = .ok manifest ∧
      .unknownId option id ∈ manifest.warnings ∧
      manifest.render (manifest.options.without option id) ≠ manifest.render manifest.options := by
  refine ⟨hiddenSource, hidden, .omitted, ⟨"geo.hpp"⟩, ofSource_hiddenSource, by decide, ?_⟩
  have hshown : hidden.render (hidden.options.without .omitted ⟨"geo.hpp"⟩) =
      .ok "namespace geo \x7b\n\x7d\n" := by decide
  have hhidden : hidden.render hidden.options = .ok "" := rfl
  rw [hshown, hhidden]
  intro h
  exact absurd (Except.ok.inj h) (by decide)

end Loaded

end HeaderSynopsis.Manifest
