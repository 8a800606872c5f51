import HeaderSynopsis.Proofs.Output.AnchorPlaces
import HeaderSynopsis.Proofs.Writing.References

namespace HeaderSynopsis.Manifest

open Declaration

/-- A reference without a warning has a declared target, unless it has no target at all. -/
theorem exists_declared_of_noWarning {declared : List Id} {file entity : Entity}
    {reference : Reference} (h : unresolvedReferences declared file = [])
    (he : entity ∈ file.walk) (hr : reference ∈ entity.references) (hne : reference.targets ≠ []) :
    ∃ target ∈ reference.targets, target ∈ declared := by
  have hentity := List.flatMap_eq_nil_iff.mp h entity he
  have hreference := List.flatMap_eq_nil_iff.mp hentity reference hr
  by_contra hnone
  have hany : ¬reference.targets.any (· ∈ declared) = true := by
    simpa using hnone
  rw [if_neg hany, List.map_eq_nil_iff] at hreference
  exact hne hreference

end HeaderSynopsis.Manifest

namespace HeaderSynopsis.Output

open Declaration Writing Generation Manifest

/-- A link leads to the first target of a reference of some entity. -/
theorem exists_reference_of_link {indentation : Indentation} {selection : Selection}
    {file : Entity} {link : String}
    (hl : link ∈ linkTargets (renderHtml indentation selection file)) :
    ∃ e ∈ file.walk, ∃ first others name, ⟨first :: others, name⟩ ∈ e.references ∧
      link = escape first.text := by
  rw [linkTargets_renderHtml, List.mem_map] at hl
  obtain ⟨first, hf, rfl⟩ := hl
  obtain ⟨w, hw, ht⟩ := List.mem_filterMap.mp hf
  obtain ⟨e, he, hown⟩ := exists_ownWrites_of_mem_written hw
  cases w with
  | reference targets name =>
    cases targets with
    | nil => cases ht
    | cons target others =>
      obtain rfl := Option.some.inj ht
      have hlink : ⟨target :: others, name⟩ ∈ links (ownWrites e) :=
        List.mem_filterMap.mpr ⟨_, hown, rfl⟩
      exact ⟨e, he, target, others, name, e.links_ownWrites_subset hlink, rfl⟩
  | _ => cases ht

/-- If everything is defined, every entity below the file has an anchor. -/
theorem anchorIds_of_definition {file : Entity} (h : LoadedTree file) (indentation : Indentation)
    {selection : Selection} (hs : ∀ e ∈ file.walk, selection.limit e = .definition) :
    anchorIds (renderHtml indentation selection file) =
      file.walk.tail.map (escape ·.id.text) := by
  have hvisits : visits selection.limit file = file :: file.walk.tail := by
    rw [visits_eq_walk hs h.containers, Entity.walk_eq, List.tail_cons]
  have hall : file.walk.tail.filter (fun e => (selection.limit e).isWritten) = file.walk.tail := by
    refine List.filter_eq_self.mpr fun e he => ?_
    rw [hs e (List.mem_of_mem_tail he)]
    rfl
  rw [anchorIds_of_visits h indentation hvisits, hall]

/-- In the HTML of a manifest that loads without warnings, with everything defined, a reference has
a target with an anchor. -/
theorem exists_anchored_target {source : Source} {manifest : Loaded}
    (h : Loaded.ofSource source = .ok manifest) (hw : manifest.warnings = [])
    (indentation : Indentation) {selection : Selection}
    (hs : ∀ e ∈ manifest.file.walk, selection.limit e = .definition) {e : Entity}
    (he : e ∈ manifest.file.walk) {reference : Reference} (hr : reference ∈ e.references)
    (hne : reference.targets ≠ []) :
    ∃ target ∈ reference.targets,
      escape target.text ∈ anchorIds (renderHtml indentation selection manifest.file) := by
  have hresolved : unresolvedReferences (manifest.file.walk.tail.map Entity.id) manifest.file = [] :=
    (List.append_eq_nil_iff.mp ((Loaded.warnings_eq h).symm.trans hw)).1
  obtain ⟨target, ht, hdeclared⟩ := exists_declared_of_noWarning hresolved he hr hne
  obtain ⟨declared, hd, rfl⟩ := List.mem_map.mp hdeclared
  refine ⟨declared.id, ht, ?_⟩
  rw [anchorIds_of_definition (Loaded.loadedTree h) indentation hs]
  exact List.mem_map.mpr ⟨declared, hd, rfl⟩

/-- In the HTML of a manifest that loads without warnings, with everything defined, every link leads
to the first target of a reference. Of every reference with targets, the first one is an anchor of
the document, which it is for sure if there are no others, or else another one is. -/
theorem links_lead_to_first_targets {source : Source} {manifest : Loaded}
    (h : Loaded.ofSource source = .ok manifest) (hw : manifest.warnings = [])
    (indentation : Indentation) {selection : Selection}
    (hs : ∀ e ∈ manifest.file.walk, selection.limit e = .definition) :
    let document := renderHtml indentation selection manifest.file
    (∀ link ∈ linkTargets document,
      ∃ e ∈ manifest.file.walk, ∃ first others name, ⟨first :: others, name⟩ ∈ e.references ∧
        link = escape first.text ∧
        (link ∈ anchorIds document ∨
          ∃ other ∈ others, escape other.text ∈ anchorIds document)) ∧
    ∀ e ∈ manifest.file.walk, ∀ first others name, ⟨first :: others, name⟩ ∈ e.references →
      escape first.text ∈ anchorIds document ∨
        ∃ other ∈ others, escape other.text ∈ anchorIds document := by
  intro document
  have hanchored : ∀ e ∈ manifest.file.walk, ∀ first others name,
      ⟨first :: others, name⟩ ∈ e.references →
        escape first.text ∈ anchorIds document ∨
          ∃ other ∈ others, escape other.text ∈ anchorIds document := by
    intro e he first others name hr
    obtain ⟨target, ht, hanchor⟩ :=
      exists_anchored_target h hw indentation hs he hr (List.cons_ne_nil _ _)
    -- The target with the anchor is not always the one that the link leads to.
    rcases List.mem_cons.mp ht with rfl | ho
    · exact Or.inl hanchor
    · exact Or.inr ⟨target, ho, hanchor⟩
  refine ⟨?_, hanchored⟩
  intro link hl
  obtain ⟨e, he, first, others, name, hr, rfl⟩ := exists_reference_of_link hl
  exact ⟨e, he, first, others, name, hr, rfl, hanchored e he first others name hr⟩

-- A class and an alias that refers to it by its second target.

def placeSource : Source where
  text :=
    "[file]\nname = \"geo.hpp\"\n\n[[file.entities]]\nkind = \"class\"\nname = \"point\"\n\n" ++
    "[[file.entities]]\nkind = \"alias\"\nname = \"place\"\n" ++
    "type = \x7b ref = [\"missing\", \"point\"], name = \"point\" \x7d\n"
  filename := "synops.toml"

def placeFields : Data.Fields :=
  [("file", .table [("name", .text "geo.hpp"), ("entities", .list [
    .table [("kind", .text "class"), ("name", .text "point")],
    .table [("kind", .text "alias"), ("name", .text "place"),
      ("type", .table [("ref", .list [.text "missing", .text "point"]),
        ("name", .text "point")])]])])]

def pointReference : Reference := ⟨[⟨"missing"⟩, ⟨"point"⟩], "point"⟩

def place : Loaded where
  options := {}
  file :=
    { Entity.ofKind .file "geo.hpp" with
      children :=
        [Entity.ofKind (.classType .classKey false [] false) "point",
          Entity.ofKind (.typeAlias (.named pointReference)) "place"] }
  warnings := []

theorem read_placeSource : Toml.read placeSource.text = some placeFields := by decide +kernel

theorem ofSource_placeSource : Loaded.ofSource placeSource = .ok place := by
  rw [Loaded.ofSource, read_placeSource]
  rfl

theorem linkTargets_place : linkTargets (renderHtml .standard {} place.file) = ["missing"] := by
  rw [linkTargets_renderHtml]
  decide

/-- The link leads to the first target, and the second one is there. -/
theorem links_lead_to_first_targets_place :
    Loaded.ofSource placeSource = .ok place ∧ place.warnings = [] ∧
      ∃ e ∈ place.file.walk, ∃ first others name, ⟨first :: others, name⟩ ∈ e.references ∧
        "missing" = escape first.text ∧
        ("missing" ∈ anchorIds (renderHtml .standard {} place.file) ∨
          ∃ other ∈ others,
            escape other.text ∈ anchorIds (renderHtml .standard {} place.file)) := by
  have hlink : "missing" ∈ linkTargets (renderHtml .standard {} place.file) := by
    rw [linkTargets_place]
    exact List.mem_singleton_self _
  exact ⟨ofSource_placeSource, rfl,
    (links_lead_to_first_targets ofSource_placeSource rfl .standard (fun _ _ => rfl)).1 _ hlink⟩

/-- There is no warning about the link, and no anchor for it. -/
theorem exists_dangling_link :
    ∃ source manifest, Loaded.ofSource source = .ok manifest ∧ manifest.warnings = [] ∧
      ¬∀ link ∈ linkTargets (renderHtml .standard {} manifest.file),
        link ∈ anchorIds (renderHtml .standard {} manifest.file) := by
  refine ⟨placeSource, place, ofSource_placeSource, rfl, fun h => ?_⟩
  have hanchor := h "missing" (by rw [linkTargets_place]; exact List.mem_singleton_self _)
  rw [anchorIds_of_definition (Loaded.loadedTree ofSource_placeSource) .standard
    (fun _ _ => rfl)] at hanchor
  exact absurd hanchor (by decide)

end HeaderSynopsis.Output
