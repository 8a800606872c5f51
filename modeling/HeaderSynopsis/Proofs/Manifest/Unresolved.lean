import HeaderSynopsis.Output.Layout
import HeaderSynopsis.Proofs.Declaration.Mentions
import HeaderSynopsis.Proofs.Generation.Course
import HeaderSynopsis.Proofs.Manifest.LoadedTree

namespace HeaderSynopsis.Manifest

open Declaration Writing Generation

theorem mem_unresolvedReferences_iff {declared : List Id} {file : Entity} {source target : Id} :
    .unresolvedReference source target ∈ unresolvedReferences declared file ↔
      ∃ e ∈ file.walk, e.id = source ∧ ∃ r ∈ e.references, target ∈ r.targets ∧
        ∀ t ∈ r.targets, t ∉ declared := by
  have hreference (e : Entity) (r : Reference) :
      Warning.unresolvedReference source target ∈
          (if r.targets.any (· ∈ declared) then []
            else r.targets.map (Warning.unresolvedReference e.id)) ↔
        e.id = source ∧ target ∈ r.targets ∧ ∀ t ∈ r.targets, t ∉ declared := by
    by_cases hany : r.targets.any (· ∈ declared) = true
    · rw [if_pos hany]
      refine iff_of_false List.not_mem_nil fun h => ?_
      obtain ⟨t, ht, hd⟩ := List.any_eq_true.mp hany
      exact h.2.2 t ht (of_decide_eq_true hd)
    · have hnone : ∀ t ∈ r.targets, t ∉ declared := by simpa using hany
      rw [if_neg hany, List.mem_map]
      constructor
      · rintro ⟨t, ht, heq⟩
        obtain ⟨rfl, rfl⟩ := Warning.unresolvedReference.inj heq
        exact ⟨rfl, ht, hnone⟩
      · rintro ⟨rfl, ht, -⟩
        exact ⟨target, ht, rfl⟩
  rw [unresolvedReferences, List.mem_flatMap]
  constructor
  · rintro ⟨e, he, h⟩
    obtain ⟨r, hr, h⟩ := List.mem_flatMap.mp h
    obtain ⟨hid, htarget⟩ := (hreference e r).mp h
    exact ⟨e, he, hid, r, hr, htarget⟩
  · rintro ⟨e, he, hid, r, hr, htarget⟩
    exact ⟨e, he, List.mem_flatMap.mpr ⟨r, hr, (hreference e r).mpr ⟨hid, htarget⟩⟩⟩

namespace Loaded

variable {source : Source} {manifest : Loaded}

theorem mem_warnings_iff (h : ofSource source = .ok manifest) {entity target : Id} :
    .unresolvedReference entity target ∈ manifest.warnings ↔
      .unresolvedReference entity target ∈
        unresolvedReferences manifest.declared manifest.file := by
  have hoption : .unresolvedReference entity target ∉
      unknownIds manifest.declared manifest.options := by
    simp [unknownIds]
  rw [warnings_eq h, List.mem_append]
  exact or_iff_left hoption

/-- A reference in an entity of the tree has a declared target or there are warnings about all. -/
theorem resolved_or_warned (h : ofSource source = .ok manifest) {e : Entity}
    (he : e ∈ manifest.file.walk) {r : Reference} (hr : r ∈ e.references) :
    (∃ target ∈ r.targets, target ∈ manifest.declared) ∨
      ∀ target ∈ r.targets, .unresolvedReference e.id target ∈ manifest.warnings := by
  by_cases hdeclared : ∃ target ∈ r.targets, target ∈ manifest.declared
  · exact Or.inl hdeclared
  · refine Or.inr fun target ht => (mem_warnings_iff h).mpr ?_
    have hnone : ∀ t ∈ r.targets, t ∉ manifest.declared := fun t ht hd => hdeclared ⟨t, ht, hd⟩
    exact mem_unresolvedReferences_iff.mpr ⟨e, he, rfl, r, hr, ht, hnone⟩

/-- A warning is about a reference without declared targets that stands in the one entity below the
file that has the identity in the warning. -/
theorem mentioned_of_warned (h : ofSource source = .ok manifest) {entity target : Id}
    (hw : .unresolvedReference entity target ∈ manifest.warnings) :
    ∃ e ∈ manifest.file.walk.tail, e.id = entity ∧
      (∀ other ∈ manifest.file.walk.tail, other.id = entity → other = e) ∧
      ∃ r, e.Mentions r ∧ target ∈ r.targets ∧ ∀ t ∈ r.targets, t ∉ manifest.declared := by
  obtain ⟨e, he, rfl, r, hr, ht, hnone⟩ :=
    mem_unresolvedReferences_iff.mp ((mem_warnings_iff h).mp hw)
  have hbelow : e ∈ manifest.file.walk.tail := by
    rw [Entity.walk_eq] at he ⊢
    rcases List.mem_cons.mp he with rfl | hb
    · rw [references_file h] at hr
      exact absurd hr List.not_mem_nil
    · exact hb
  have hunique : ∀ other ∈ manifest.file.walk.tail, other.id = e.id → other = e :=
    fun other ho hid => List.inj_on_of_nodup_map (loadedTree h).distinct ho hbelow hid
  exact ⟨e, hbelow, rfl, hunique, r, e.mem_references_iff.mp hr, ht, hnone⟩

/-- A generator is shown its course. Every reference in it stands in the entity at its position, and
has a declared target unless there are warnings about that entity and all of its targets. Conversely
a warning is about a reference without declared targets that stands in an entity below the file. -/
theorem references_accounted_for (h : ofSource source = .ok manifest) {σ : Type} (g : Generator σ)
    (s : σ) :
    (generate g.listing manifest.file (s, [])).state.2 =
        (course g manifest.file s).map Prod.snd ∧
      (∀ position targets name,
        (position, .write (.reference targets name)) ∈ course g manifest.file s →
          ∃ e, manifest.file.descendant? position = some e ∧ e.Mentions ⟨targets, name⟩ ∧
            ((∃ target ∈ targets, target ∈ manifest.declared) ∨
              ∀ target ∈ targets, .unresolvedReference e.id target ∈ manifest.warnings)) ∧
      ∀ entity target, .unresolvedReference entity target ∈ manifest.warnings →
        ∃ e ∈ manifest.file.walk.tail, e.id = entity ∧
          (∀ other ∈ manifest.file.walk.tail, other.id = entity → other = e) ∧
          ∃ r, e.Mentions r ∧ target ∈ r.targets ∧ ∀ t ∈ r.targets, t ∉ manifest.declared := by
  refine ⟨by rw [generate_listing, List.nil_append], fun position targets name hm => ?_,
    fun entity target hw => mentioned_of_warned h hw⟩
  obtain ⟨e, hleads, hown⟩ := mem_course g hm
  have hr : ⟨targets, name⟩ ∈ e.references :=
    e.links_ownWrites_subset (List.mem_filterMap.mpr ⟨_, hown, rfl⟩)
  have he := Entity.mem_walk_of_descendant? hleads
  exact ⟨e, hleads, e.mem_references_iff.mp hr, resolved_or_warned h he hr⟩

-- A class with two bases, only one of which is declared.

def circleSource : Source where
  text :=
    "[file]\nname = \"geo.hpp\"\n\n[[file.entities]]\nkind = \"class\"\nname = \"point\"\n\n" ++
    "[[file.entities]]\nkind = \"class\"\nname = \"circle\"\n" ++
    "bases = [\x7b type = \x7b ref = \"point\", name = \"point\" \x7d \x7d, " ++
    "\x7b type = \x7b ref = \"shape\", name = \"shape\" \x7d \x7d]\n"
  filename := "synops.toml"

def circleFields : Data.Fields :=
  [("file", .table [("name", .text "geo.hpp"), ("entities", .list [
    .table [("kind", .text "class"), ("name", .text "point")],
    .table [("kind", .text "class"), ("name", .text "circle"), ("bases", .list [
      .table [("type", .table [("ref", .text "point"), ("name", .text "point")])],
      .table [("type", .table [("ref", .text "shape"), ("name", .text "shape")])]])]])])]

def circleBases : List BaseClass :=
  [⟨.named ⟨[⟨"point"⟩], "point"⟩, none, false⟩, ⟨.named ⟨[⟨"shape"⟩], "shape"⟩, none, false⟩]

def circle : Loaded where
  options := {}
  file :=
    { Entity.ofKind .file "geo.hpp" with
      children :=
        [Entity.ofKind (.classType .classKey false [] false) "point",
          Entity.ofKind (.classType .classKey false circleBases false) "circle"] }
  warnings := [.unresolvedReference ⟨"circle"⟩ ⟨"shape"⟩]

theorem read_circleSource : Toml.read circleSource.text = some circleFields := by decide +kernel

theorem ofSource_circleSource : ofSource circleSource = .ok circle := by
  rw [ofSource, read_circleSource]
  rfl

/-- The reference to the second base is shown and warned about. -/
theorem references_accounted_for_circle :
    ofSource circleSource = .ok circle ∧
      ([1], .write (.reference [⟨"shape"⟩] "shape")) ∈ course Output.bareText circle.file "" ∧
      ⟨"shape"⟩ ∉ circle.declared ∧
      ∃ e ∈ circle.file.walk.tail, e.id = ⟨"circle"⟩ ∧
        ∃ r, e.Mentions r ∧ ⟨"shape"⟩ ∈ r.targets ∧ ∀ t ∈ r.targets, t ∉ circle.declared := by
  obtain ⟨-, -, hwarned⟩ := references_accounted_for ofSource_circleSource Output.bareText ""
  have hshown : (course Output.bareText circle.file "")[24]? =
      some ([1], .write (.reference [⟨"shape"⟩] "shape")) := rfl
  obtain ⟨e, he, hid, -, hmentioned⟩ := hwarned ⟨"circle"⟩ ⟨"shape"⟩ List.mem_cons_self
  exact ⟨ofSource_circleSource, List.mem_of_getElem? hshown, by decide, e, he, hid, hmentioned⟩

end Loaded

end HeaderSynopsis.Manifest
