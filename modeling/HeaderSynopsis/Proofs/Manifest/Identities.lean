import HeaderSynopsis.Proofs.Declaration.Tree
import HeaderSynopsis.Proofs.Manifest.Loading
import Mathlib.Data.List.Nodup

namespace HeaderSynopsis.Manifest

open Declaration

def Placed.entity (p : Placed) : Entity := p.definition.entity p.place p.index

theorem Placed.id_entity (p : Placed) : p.entity.id = p.id := by
  rw [entity, Definition.entity_eq, id]

theorem Placed.map_id_entity (ps : List Placed) :
    (ps.map Placed.entity).map Entity.id = ps.map Placed.id := by
  rw [List.map_map]
  exact List.map_congr_left fun p _ => p.id_entity

namespace Definition

theorem walk_entities {ds : List Definition} (hds : ∀ d ∈ ds, ∀ place index,
      (d.entity place index).walk = (d.placed place index).map Placed.entity)
    (place : Place) (index : Nat) :
    (entities place index ds).flatMap Entity.walk =
      (placedAll place index ds).map Placed.entity := by
  induction ds generalizing index with
  | nil => rfl
  | cons d rest ih =>
    have hrest := ih (fun c hc => hds c (List.mem_cons_of_mem _ hc)) (index + 1)
    rw [entities, placedAll, List.flatMap_cons, List.map_append, hrest,
      hds d List.mem_cons_self]

/-- A walk over the entity of a definition visits the entities of the definition and of all below
it, in the order of the definitions. -/
theorem walk_entity (d : Definition) (place : Place) (index : Nat) :
    (d.entity place index).walk = (d.placed place index).map Placed.entity := by
  induction d using nesting_induction generalizing place index with
  | node d ih =>
    have hinside := walk_entities ih (d.inside place index) 0
    rw [placed_eq, List.map_cons, ← hinside, Entity.walk_eq, Placed.entity, entity_eq]

end Definition

namespace FileDefinition

/-- What a walk over the entity of a file visits after the file itself. -/
theorem walk_entity_eq (file : FileDefinition) :
    file.entity.walk = file.entity :: file.placed.map Placed.entity := by
  rw [Entity.walk_eq]
  exact congrArg _ (Definition.walk_entities (fun d _ => d.walk_entity) .file 0)

end FileDefinition

/-- In a list whose members differ in a feature, a member is found by that feature. -/
theorem find?_of_nodup_map {α β : Type} [DecidableEq β] {f : α → β} {l : List α}
    (hl : (l.map f).Nodup) {a : α} (ha : a ∈ l) : l.find? (f · = f a) = some a := by
  have hsome : (l.find? (f · = f a)).isSome = true := by
    rw [List.find?_isSome]
    exact ⟨a, ha, decide_eq_true rfl⟩
  obtain ⟨b, hb⟩ := Option.isSome_iff_exists.mp hsome
  have hf : f b = f a := by simpa using List.find?_some hb
  rw [hb, List.inj_on_of_nodup_map hl (List.mem_of_find?_eq_some hb) ha hf]

namespace Loaded

/-- In a manifest that loads, the identities of the entities below the file differ from each other.
An entity is found under its identity exactly if it is the file or is not called by the file's
name. -/
theorem find?_id_eq_self_iff {source : Source} {manifest : Loaded}
    (h : ofSource source = .ok manifest) :
    ((manifest.file.children.flatMap Entity.walk).map Entity.id).Nodup ∧
      ∀ e ∈ manifest.file.walk,
        manifest.find? e.id = some e ↔ e = manifest.file ∨ e.id.text ≠ manifest.file.name := by
  obtain ⟨file, hfile, he⟩ := exists_wellFormed_of_ofSource h
  have hwalk : manifest.file.walk = manifest.file :: file.placed.map Placed.entity :=
    he ▸ file.walk_entity_eq
  have hids : ((file.placed.map Placed.entity).map Entity.id).Nodup := by
    rw [Placed.map_id_entity]
    exact hfile.nodup
  have hname : manifest.file.id.text = manifest.file.name := by
    rw [he]
    rfl
  have hbelow : manifest.file.children.flatMap Entity.walk = file.placed.map Placed.entity := by
    rw [Entity.walk_eq] at hwalk
    exact (List.cons.inj hwalk).2
  -- The identities below the file differ, so only the file can stand in the way of the search.
  refine ⟨hbelow ▸ hids, fun e hv => ?_⟩
  rw [find?, hwalk]
  by_cases hid : manifest.file.id = e.id
  · -- The search ends at the file.
    rw [List.find?_cons_of_pos (by simpa using hid), Option.some_inj, ← hname, hid]
    simp [eq_comm]
  · rw [List.find?_cons_of_neg (by simpa using hid)]
    have hother : e.id.text ≠ manifest.file.name := by
      intro htext
      rw [← hname] at htext
      exact hid (congrArg Id.mk htext.symm)
    have hmember : e ∈ file.placed.map Placed.entity := by
      rw [hwalk] at hv
      rcases List.mem_cons.mp hv with rfl | hm
      · exact absurd rfl hid
      · exact hm
    exact iff_of_true (find?_of_nodup_map hids hmember) (Or.inr hother)

-- A file that has the name of a namespace in it.

def namesakeSource : Source where
  text :=
    "[file]\nname = \"geo\"\n\n[[file.entities]]\nkind = \"namespace\"\nname = \"geo\"\n\n" ++
    "[[file.entities.children]]\nkind = \"class\"\nname = \"point\"\n"
  filename := "synops.toml"

def namesakeFields : Data.Fields :=
  [("file", .table [("name", .text "geo"), ("entities", .list [.table
    [("kind", .text "namespace"), ("name", .text "geo"), ("children", .list [.table
      [("kind", .text "class"), ("name", .text "point")]])]])])]

def namesakePoint : Entity :=
  { Entity.ofKind (.classType .classKey false [] false) "point" with id := ⟨"geo::point"⟩ }

def namesakeScope : Entity :=
  { Entity.ofKind (.namespaceScope false) "geo" with children := [namesakePoint] }

def namesake : Loaded where
  options := {}
  file := { Entity.ofKind .file "geo" with children := [namesakeScope] }
  warnings := []

theorem read_namesakeSource : Toml.read namesakeSource.text = some namesakeFields := by
  decide +kernel

theorem ofSource_namesakeSource : ofSource namesakeSource = .ok namesake := by
  rw [ofSource, read_namesakeSource]
  rfl

theorem walk_namesake : namesake.file.walk = [namesake.file, namesakeScope, namesakePoint] := rfl

theorem find?_id_eq_self_iff_namesake :
    ofSource namesakeSource = .ok namesake ∧
      namesake.find? ⟨"geo::point"⟩ = some namesakePoint := by
  have hpoint : namesakePoint ∈ namesake.file.walk := by simp [walk_namesake]
  have hfound := (find?_id_eq_self_iff ofSource_namesakeSource).2 namesakePoint hpoint
  exact ⟨ofSource_namesakeSource, hfound.mpr (Or.inr (by decide))⟩

/-- The namespace is not found under its identity. -/
theorem find?_namesakeScope :
    ∃ source manifest, ofSource source = .ok manifest ∧
      ¬∀ e ∈ manifest.file.walk, manifest.find? e.id = some e := by
  refine ⟨namesakeSource, namesake, ofSource_namesakeSource, fun h => ?_⟩
  have hscope : namesakeScope ∈ namesake.file.walk := by simp [walk_namesake]
  have hkind := congrArg (Option.map (·.kind.word)) (h namesakeScope hscope)
  exact absurd hkind (by decide)

end Loaded

end HeaderSynopsis.Manifest
