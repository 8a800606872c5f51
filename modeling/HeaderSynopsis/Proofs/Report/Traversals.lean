import HeaderSynopsis.Proofs.Declaration.Positions
import HeaderSynopsis.Proofs.Generation.Visits
import HeaderSynopsis.Proofs.Manifest.LoadedTree
import HeaderSynopsis.Proofs.Output.Recording
import HeaderSynopsis.Proofs.Report.Counting
import HeaderSynopsis.Report.Outline

/-!
The traversals of a tree: the walk, with and without a stack, the outline, the kinds that are
counted, and the decisions of a generation. In a manifest that loads they go over the same entities
in the same order.
-/

namespace HeaderSynopsis.Declaration.Entity

/-- The stack holds what is still to be walked over. -/
theorem walkStack_eq (stack : List Entity) : walkStack stack = walkAll stack := by
  induction stack using walkStack.induct with
  | case1 => rw [walkStack, walkAll]
  | case2 entity later ih => rw [walkStack, ih, walkAll_cons]

theorem walkStack_singleton (entity : Entity) : walkStack [entity] = entity.walk := by
  rw [walkStack_eq, walkAll, walkAll, List.append_nil]

end HeaderSynopsis.Declaration.Entity

namespace HeaderSynopsis.Output

open Declaration Generation

/-- A recorder that refuses nothing is asked about what its decisions lead to. -/
theorem Recorder.visited_events (r : Recorder) (entity : Entity) :
    visited (r.events entity) =
      (visits (fun visited => r.detail visited.id) entity).map Entity.id := by
  have hshown (shown : Showing) :
      (Event.of shown).decided? = shown.entered?.map Entity.id := by
    cases shown with
    | enter container entered => exact Event.decided?_of_enter container entered
    | leave entity => rfl
    | write w => rfl
  rw [visited, events, visits, List.filterMap_map, List.map_filterMap]
  exact List.filterMap_congr fun shown _ => hshown shown

/-- A recorder without any filter defines everything. -/
theorem Recorder.detail_unfiltered (id : Id) : ({} : Recorder).detail id = .definition := by
  simp [Recorder.detail]

end HeaderSynopsis.Output

namespace HeaderSynopsis.Report

open Declaration Manifest Generation Output

theorem nodesOfAll_eq (depth : Nat) (entities : List Entity) :
    nodesOfAll depth entities = entities.flatMap (nodesOf depth) := by
  induction entities with
  | nil => rfl
  | cons entity rest ih => rw [nodesOfAll, ih, List.flatMap_cons]

theorem nodesOf_eq (depth : Nat) (entity : Entity) :
    nodesOf depth entity =
      Node.ofEntity depth entity :: entity.children.flatMap (nodesOf (depth + 1)) := by
  cases entity
  rw [nodesOf, nodesOfAll_eq]

/-- The nodes of an entity are those of the positions below it, each as deep as there are entities
around it. -/
theorem map_some_nodesOf (depth : Nat) (entity : Entity) :
    (nodesOf depth entity).map some =
      entity.positions.map fun position => (entity.descendant? position).map
        (Node.ofEntity (depth + (entity.around position).length)) := by
  induction entity using Entity.tree_induction generalizing depth with
  | node entity ih =>
    have hbelow : (Entity.positionsAll 0 entity.children).map (fun position =>
        (entity.descendant? position).map
          (Node.ofEntity (depth + (entity.around position).length))) =
        entity.children.flatMap fun child => (nodesOf (depth + 1) child).map some := by
      refine Entity.map_positionsAll fun k child hk => ?_
      rw [ih child (List.mem_of_getElem? hk)]
      refine List.map_congr_left fun rest _ => ?_
      -- The entity itself is around everything below it, one more than the child knows of.
      rw [Entity.descendant?_cons, Entity.around_cons, Nat.zero_add, hk, Option.bind_some,
        Option.elim_some, List.length_cons, Nat.add_right_comm, Nat.add_assoc]
    rw [nodesOf_eq, Entity.positions_eq, List.map_cons, List.map_cons, hbelow, List.map_flatMap]
    rfl

/-- The nodes of an outline are those of the positions below its file, in order. -/
theorem map_some_nodes (manifest : Loaded) :
    (Outline.ofManifest manifest).nodes.map some =
      manifest.file.positions.tail.map fun position =>
        (manifest.file.descendant? position).map
          (Node.ofEntity (manifest.file.around position).tail.length) := by
  rw [Entity.positions_eq, List.tail_cons]
  have hchildren : (nodesOfAll 0 manifest.file.children).map some =
      manifest.file.children.flatMap fun child => (nodesOf 0 child).map some := by
    rw [nodesOfAll_eq, List.map_flatMap]
  -- Here the outermost entity is the file, and it does not count.
  refine hchildren.trans (Entity.map_positionsAll fun k child hk => ?_).symm
  rw [map_some_nodesOf]
  refine List.map_congr_left fun rest _ => ?_
  rw [Entity.descendant?_cons, Entity.around_cons, Nat.zero_add, hk, Option.bind_some,
    Option.elim_some, List.tail_cons, Nat.zero_add]

/-- An outline has a node for each entity below the file. -/
theorem map_id_nodes (manifest : Loaded) :
    (Outline.ofManifest manifest).nodes.map Node.id = manifest.file.walk.tail.map Entity.id := by
  have hwalk : manifest.file.positions.tail.map manifest.file.descendant? =
      manifest.file.walk.tail.map some := by
    rw [List.map_tail, List.map_tail, Entity.map_descendant?_positions]
  have hid (position : Position) : ((manifest.file.descendant? position).map
      (Node.ofEntity (manifest.file.around position).tail.length)).map Node.id =
        (manifest.file.descendant? position).map Entity.id := by
    rw [Option.map_map]
    rfl
  have hsome : ((Outline.ofManifest manifest).nodes.map Node.id).map some =
      (manifest.file.walk.tail.map Entity.id).map some := by
    calc ((Outline.ofManifest manifest).nodes.map Node.id).map some
        = ((Outline.ofManifest manifest).nodes.map some).map (Option.map Node.id) := by
          simp only [List.map_map, Function.comp_def, Option.map_some]
      _ = (manifest.file.positions.tail.map manifest.file.descendant?).map
            (Option.map Entity.id) := by
          rw [map_some_nodes, List.map_map, List.map_map]
          exact List.map_congr_left fun position _ => hid position
      _ = (manifest.file.walk.tail.map Entity.id).map some := by
          rw [hwalk]
          simp only [List.map_map, Function.comp_def, Option.map_some]
  exact List.map_injective_iff.mpr (fun _ _ => Option.some.inj) hsome

/-- In a manifest that loads, an unfiltered recorder is asked about every entity once. -/
theorem visited_unfiltered {file : Entity} (h : LoadedTree file) :
    visited (({} : Recorder).record file).1 = file.walk.map Entity.id := by
  rw [Recorder.record_of_willing rfl, Recorder.visited_events,
    visits_eq_walk (fun e _ => Recorder.detail_unfiltered e.id) h.containers]

/-- No kind that is counted is that of the file, so the file itself does not matter. -/
theorem countP_tail_walk {file : Entity} (h : LoadedTree file) {word : String}
    (hw : word ∈ file.walk.tail.map (·.kind.word)) :
    (file.walk.tail.map (·.kind.word)).count word = file.walk.countP (·.kind.word = word) := by
  obtain ⟨e, he, rfl⟩ := List.mem_map.mp hw
  have hfile : ¬file.kind.word = e.kind.word := by
    rw [h.isFile]
    exact (h.noOtherFile e he).symm
  rw [List.count, List.countP_map, Entity.walk_eq, List.tail_cons,
    List.countP_cons_of_neg (by simpa using hfile)]
  exact List.countP_congr fun _ _ => by simp

structure TraversalsAgree (manifest : Loaded) (summary : Summary) : Prop where
  -- Rendering asks an unfiltered recorder about every entity.
  visited_eq : visited (({} : Recorder).record manifest.file).1 = manifest.file.walk.map Entity.id
  -- It asks about every entity below the file once.
  visited_once : (visited (({} : Recorder).record manifest.file).1).tail.Nodup
  walkStack_eq : Entity.walkStack [manifest.file] = manifest.file.walk
  outlined_eq : manifest.file.id :: (Outline.ofManifest manifest).nodes.map Node.id =
    manifest.file.walk.map Entity.id
  -- A node is as deep as there are entities around it below the file.
  depths : (Outline.ofManifest manifest).nodes.map some =
    manifest.file.positions.tail.map fun position =>
      (manifest.file.descendant? position).map
        (Node.ofEntity (manifest.file.around position).tail.length)
  -- The kinds below the file are listed once each, in ascending order.
  ascending : summary.kinds.Pairwise (·.1 < ·.1)
  kinds_iff : ∀ word n, (word, n) ∈ summary.kinds ↔
    (∃ e ∈ manifest.file.walk.tail, e.kind.word = word) ∧
      n = manifest.file.walk.countP (·.kind.word = word)
  total : summary.entityCount = (Outline.ofManifest manifest).nodes.length

/-- In a manifest that loads, the decisions of an unfiltered recorder, the walks with and without a
stack, the outline and the counts of a check agree. -/
theorem traversals_agree {source : Source} {manifest : Loaded}
    (h : Loaded.ofSource source = .ok manifest) (path : String) :
    TraversalsAgree manifest (Summary.ofManifest path manifest) := by
  have htree := Loaded.loadedTree h
  have hvisited := visited_unfiltered htree
  have hwalk := Entity.walkStack_singleton manifest.file
  have hcounts : Counts (manifest.file.walk.tail.map (·.kind.word))
      (Summary.ofManifest path manifest).kinds := by
    rw [← hwalk]
    exact counts_countKinds _
  refine ⟨hvisited, ?_, hwalk, ?_, map_some_nodes manifest, hcounts.ascending, fun word n => ?_, ?_⟩
  · rw [hvisited, ← List.map_tail]
    exact htree.distinct
  · rw [map_id_nodes, Entity.walk_eq]
    rfl
  · rw [hcounts.mem_iff, List.mem_map]
    refine and_congr_right fun hword => ?_
    rw [countP_tail_walk htree (List.mem_map.mpr hword)]
  · have hlength := congrArg List.length (map_id_nodes manifest)
    rw [List.length_map, List.length_map] at hlength
    rw [hlength, ← List.length_map (·.kind.word), ← hcounts.total_eq]
    rfl

/-- In a file of the same name, a namespace is one more entity with that identity. -/
theorem traversals_agree_namesake :
    Loaded.ofSource Loaded.namesakeSource = .ok Loaded.namesake ∧
      visited (({} : Recorder).record Loaded.namesake.file).1 =
        [⟨"geo"⟩, ⟨"geo"⟩, ⟨"geo::point"⟩] ∧
      (Outline.ofManifest Loaded.namesake).nodes.map Node.depth = [0, 1] ∧
      (Summary.ofManifest "synops.toml" Loaded.namesake).entityCount = 2 := by
  have hagree := traversals_agree Loaded.ofSource_namesakeSource "synops.toml"
  exact ⟨Loaded.ofSource_namesakeSource, hagree.visited_eq, rfl, hagree.total⟩

end HeaderSynopsis.Report
