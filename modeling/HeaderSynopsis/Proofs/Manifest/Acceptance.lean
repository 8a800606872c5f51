import HeaderSynopsis.Manifest.Lowering

/-!
Which files can be lowered, and to what. The rules are stated for each definition beside where it
stands, the tree is built without checking any of them, and the identities are those of all
definitions in order. Lowering then gives the tree and the identities exactly if every definition
follows the rules and no two identities are equal.
-/

namespace HeaderSynopsis.Manifest

open Declaration

namespace Definition

/-- What holds of a definition as soon as it holds of those inside it holds of every definition. -/
@[elab_as_elim]
theorem nesting_induction {motive : Definition → Prop}
    (node : ∀ d, (∀ child ∈ d.children, motive child) → motive d) : ∀ d, motive d
  | ⟨name, id, kind, comment, template, specialization, children⟩ =>
      node ⟨name, id, kind, comment, template, specialization, children⟩ fun child hchild =>
        have : child ∈ children := hchild
        nesting_induction node child
  termination_by d => sizeOf d
  decreasing_by
    have h := List.sizeOf_lt_of_mem this
    simp only [mk.sizeOf_spec]
    omega

/-- The identity that a definition has to get as the sibling with that index: the one that is
written, or else its name inside the parent, or else its index there. -/
def expectedId (parent : Id) (index : Nat) (d : Definition) : Id :=
  match d.id, d.name with
  | some id, _ => id
  | none, "" => parent.child ("@" ++ toString index)
  | none, name => parent.child name

def expectedHead (d : Definition) : Option TemplateHead :=
  match d.template, d.specialization with
  | some parameters, _ => some (.primary parameters)
  | none, some specialization => some (.specialization specialization)
  | none, none => none

theorem assignedId_eq_expectedId (place : Place) (index : Nat) (d : Definition) :
    d.assignedId place index = d.expectedId place.parent index := by
  unfold assignedId expectedId
  cases d.id with
  | some id => rfl
  | none =>
    by_cases hname : d.name = ""
    · rw [hname]
      rfl
    · simp [hname]

theorem templateHead_eq_expectedHead (d : Definition) : d.templateHead = d.expectedHead := by
  unfold templateHead expectedHead
  cases d.template with
  | some parameters => rfl
  | none => cases d.specialization <;> rfl

def inside (place : Place) (index : Nat) (d : Definition) : Place :=
  ⟨d.expectedId place.parent index, d.kind, place.path ++ [d.pathSegment]⟩

mutual

def entity (place : Place) (index : Nat) : Definition → Entity
  | d@⟨name, _, kind, comment, _, _, children⟩ =>
      ⟨d.expectedId place.parent index, name, kind, d.expectedHead, comment,
        entities (d.inside place index) 0 children⟩

def entities (place : Place) (index : Nat) : List Definition → List Entity
  | [] => []
  | d :: rest => entity place index d :: entities place (index + 1) rest

end

end Definition

structure Placed where
  place : Place
  index : Nat
  definition : Definition

namespace Placed

def id (p : Placed) : Id := p.definition.expectedId p.place.parent p.index

/-- The rules that a definition has to follow where it stands. -/
structure Allowed (p : Placed) : Prop where
  notFile : p.definition.kind.word ≠ "file"
  access : p.definition.kind.word = "access" → p.place.kind.word = "class"
  enumerator : p.definition.kind.word = "enumerator" ↔ p.place.kind.word = "enum"
  name : p.definition.kind.isAnonymous = false →
    nameFault? p.definition.name = none ∨
      p.definition.name = "" ∧ p.definition.kind.word ∈ ["namespace", "class", "enum"]
  children : p.definition.children ≠ [] → p.definition.kind.acceptsChildren = true
  heads : p.definition.template = none ∨ p.definition.specialization = none

end Placed

namespace Definition

mutual

def placed (place : Place) (index : Nat) : Definition → List Placed
  | d@⟨_, _, _, _, _, _, children⟩ =>
      ⟨place, index, d⟩ :: placedAll (d.inside place index) 0 children

def placedAll (place : Place) (index : Nat) : List Definition → List Placed
  | [] => []
  | d :: rest => placed place index d ++ placedAll place (index + 1) rest

end

theorem entity_eq (place : Place) (index : Nat) (d : Definition) :
    d.entity place index = ⟨d.expectedId place.parent index, d.name, d.kind, d.expectedHead,
      d.comment, entities (d.inside place index) 0 d.children⟩ := by
  cases d
  rw [entity]

theorem placed_eq (place : Place) (index : Nat) (d : Definition) :
    d.placed place index = ⟨place, index, d⟩ :: placedAll (d.inside place index) 0 d.children := by
  cases d
  rw [placed]

theorem lower_eq (source : Source) (place : Place) (index : Nat) (seen : List Id)
    (d : Definition) :
    lower source place index seen d =
      match d.problem? source place seen (d.expectedId place.parent index) with
      | some problem => .error problem
      | none => do
          let (entities, seen) ← lowerAll source (d.inside place index) 0
            (seen ++ [d.expectedId place.parent index]) d.children
          return (⟨d.expectedId place.parent index, d.name, d.kind, d.expectedHead, d.comment,
            entities⟩, seen) := by
  rw [inside, ← assignedId_eq_expectedId, ← templateHead_eq_expectedHead]
  cases d
  unfold lower
  rfl

theorem placementProblem?_eq_none {source : Source} {place : Place} {d : Definition} :
    d.placementProblem? source place = none ↔
      d.kind.word ≠ "file" ∧ (d.kind.word = "access" → place.kind.word = "class") ∧
        (d.kind.word = "enumerator" ↔ place.kind.word = "enum") := by
  rw [placementProblem?, Option.map_eq_none_iff]
  cases d.kind <;> cases place.kind <;> simp [home?, EntityKind.word]

theorem namingProblem?_eq_none {source : Source} {place : Place} {d : Definition} :
    d.namingProblem? source place = none ↔
      (d.kind.isAnonymous = false → nameFault? d.name = none ∨
        d.name = "" ∧ d.kind.word ∈ ["namespace", "class", "enum"]) := by
  have hunnamed : d.kind.mayBeUnnamed = true ↔ d.kind.word ∈ ["namespace", "class", "enum"] := by
    cases d.kind <;> simp [EntityKind.mayBeUnnamed, EntityKind.word]
  rw [namingProblem?]
  cases d.kind.isAnonymous with
  | true => simp
  | false =>
    by_cases hname : d.name = ""
    · -- No empty name passes for an identifier, so that only the kind can allow it.
      have hempty : nameFault? "" ≠ none := by decide
      simp [hname, hempty, ← hunnamed]
    · simp [hname, nameProblem?]

theorem identityProblem?_eq_none {source : Source} {seen : List Id} {id : Id} {d : Definition} :
    d.identityProblem? source seen id = none ↔ id ∉ seen := by
  simp [identityProblem?]

theorem childrenProblem?_eq_none {source : Source} {id : Id} {d : Definition} :
    d.childrenProblem? source id = none ↔
      (d.children ≠ [] → d.kind.acceptsChildren = true) := by
  simp [childrenProblem?]

theorem templateProblem?_eq_none {source : Source} {id : Id} {d : Definition} :
    d.templateProblem? source id = none ↔ d.template = none ∨ d.specialization = none := by
  cases ht : d.template <;> cases hs : d.specialization <;> simp [templateProblem?, ht, hs]

/-- There is nothing wrong with a definition if it follows the rules and its identity is new. -/
theorem problem?_eq_none {source : Source} {place : Place} {index : Nat} {seen : List Id}
    {d : Definition} :
    d.problem? source place seen (d.expectedId place.parent index) = none ↔
      Placed.Allowed ⟨place, index, d⟩ ∧ d.expectedId place.parent index ∉ seen := by
  simp only [problem?, Option.or_eq_none_iff, placementProblem?_eq_none, namingProblem?_eq_none,
    identityProblem?_eq_none, childrenProblem?_eq_none, templateProblem?_eq_none]
  constructor
  · rintro ⟨⟨hfile, haccess, henumerator⟩, hname, hid, hchildren, hheads⟩
    exact ⟨⟨hfile, haccess, henumerator, hname, hchildren, hheads⟩, hid⟩
  · rintro ⟨⟨hfile, haccess, henumerator, hname, hchildren, hheads⟩, hid⟩
    exact ⟨⟨hfile, haccess, henumerator⟩, hname, hid, hchildren, hheads⟩

end Definition

instance (p : Placed) : Decidable p.Allowed :=
  decidable_of_iff (p.definition.problem? ⟨"", ""⟩ p.place [] p.id = none)
    (Definition.problem?_eq_none.trans (and_iff_left List.not_mem_nil))

structure Fresh (seen ids : List Id) : Prop where
  nodup : ids.Nodup
  unseen : ∀ id ∈ ids, id ∉ seen

theorem fresh_nil (seen : List Id) : Fresh seen [] := ⟨List.nodup_nil, by simp⟩

/-- Identities are new if the first of them are and the others are after these. -/
theorem fresh_append {seen ids later : List Id} :
    Fresh seen (ids ++ later) ↔ Fresh seen ids ∧ Fresh (seen ++ ids) later := by
  constructor
  · rintro ⟨hnodup, hunseen⟩
    rw [List.nodup_append] at hnodup
    refine ⟨⟨hnodup.1, fun id hid => hunseen id (List.mem_append_left _ hid)⟩,
      hnodup.2.1, fun id hid hseen => ?_⟩
    rcases List.mem_append.mp hseen with hs | hi
    · exact hunseen id (List.mem_append_right _ hid) hs
    · exact hnodup.2.2 id hi id hid rfl
  · rintro ⟨⟨hnodup, hunseen⟩, hlater, hnew⟩
    refine ⟨List.nodup_append.mpr ⟨hnodup, hlater, fun id hid other hother he => ?_⟩,
      fun id hid => ?_⟩
    · exact hnew other hother (List.mem_append_right _ (he ▸ hid))
    · rcases List.mem_append.mp hid with hi | hl
      · exact hunseen id hi
      · exact fun hs => hnew id hl (List.mem_append_left _ hs)

theorem fresh_cons {seen later : List Id} {id : Id} :
    Fresh seen (id :: later) ↔ id ∉ seen ∧ Fresh (seen ++ [id]) later := by
  have hone : Fresh seen [id] ↔ id ∉ seen :=
    ⟨fun h => h.unseen id List.mem_cons_self, fun h => ⟨by simp, by simpa using h⟩⟩
  rw [← hone]
  exact @fresh_append seen [id] later

theorem fresh_of_none {ids : List Id} : Fresh [] ids ↔ ids.Nodup :=
  ⟨Fresh.nodup, fun h => ⟨h, fun _ _ => List.not_mem_nil⟩⟩

structure Accepted (seen : List Id) (ps : List Placed) : Prop where
  allowed : ∀ p ∈ ps, p.Allowed
  fresh : Fresh seen (ps.map Placed.id)

theorem accepted_nil (seen : List Id) : Accepted seen [] := ⟨by simp, fresh_nil seen⟩

theorem accepted_cons {seen : List Id} {p : Placed} {ps : List Placed} :
    Accepted seen (p :: ps) ↔ (p.Allowed ∧ p.id ∉ seen) ∧ Accepted (seen ++ [p.id]) ps := by
  constructor
  · rintro ⟨hallowed, hfresh⟩
    rw [List.map_cons, fresh_cons] at hfresh
    rw [List.forall_mem_cons] at hallowed
    exact ⟨⟨hallowed.1, hfresh.1⟩, hallowed.2, hfresh.2⟩
  · rintro ⟨⟨hfirst, hunseen⟩, hallowed, hfresh⟩
    exact ⟨List.forall_mem_cons.mpr ⟨hfirst, hallowed⟩, fresh_cons.mpr ⟨hunseen, hfresh⟩⟩

theorem accepted_append {seen : List Id} {ps later : List Placed} :
    Accepted seen (ps ++ later) ↔
      Accepted seen ps ∧ Accepted (seen ++ ps.map Placed.id) later := by
  constructor
  · rintro ⟨hallowed, hfresh⟩
    rw [List.map_append, fresh_append] at hfresh
    rw [List.forall_mem_append] at hallowed
    exact ⟨⟨hallowed.1, hfresh.1⟩, hallowed.2, hfresh.2⟩
  · rintro ⟨⟨hfirst, hunseen⟩, hallowed, hfresh⟩
    refine ⟨List.forall_mem_append.mpr ⟨hfirst, hallowed⟩, ?_⟩
    rw [List.map_append, fresh_append]
    exact ⟨hunseen, hfresh⟩

theorem bind_eq_ok {ε α β : Type} {x : Except ε α} {f : α → Except ε β} {b : β} :
    (x >>= f) = .ok b ↔ ∃ a, x = .ok a ∧ f a = .ok b := by
  cases x <;> simp [bind, Except.bind]

namespace Definition

/-- Definitions that are lowered one by one, each as it should be, are lowered as a list. -/
theorem lowerAll_eq_ok_iff (source : Source) {ds : List Definition}
    (hds : ∀ d ∈ ds, ∀ place index seen result,
      lower source place index seen d = .ok result ↔
        Accepted seen (d.placed place index) ∧
          result = (d.entity place index, seen ++ (d.placed place index).map Placed.id))
    (place : Place) (index : Nat) (seen : List Id) (result : List Entity × List Id) :
    lowerAll source place index seen ds = .ok result ↔
      Accepted seen (placedAll place index ds) ∧
        result = (entities place index ds, seen ++ (placedAll place index ds).map Placed.id) := by
  induction ds generalizing index seen result with
  | nil =>
    rw [lowerAll, placedAll, entities, List.map_nil, List.append_nil]
    simp [accepted_nil, eq_comm]
  | cons d rest ih =>
    have hd := hds d List.mem_cons_self
    have hrest := ih fun c hc => hds c (List.mem_cons_of_mem _ hc)
    rw [lowerAll, placedAll, entities, accepted_append, bind_eq_ok]
    constructor
    · rintro ⟨first, hfirst, h⟩
      obtain ⟨others, hothers, h⟩ := bind_eq_ok.mp h
      obtain ⟨hok, rfl⟩ := (hd _ _ _ _).mp hfirst
      obtain ⟨hoks, rfl⟩ := (hrest _ _ _).mp hothers
      refine ⟨⟨hok, hoks⟩, ?_⟩
      rw [List.map_append, ← List.append_assoc]
      exact (Except.ok.inj h).symm
    · rintro ⟨⟨hok, hoks⟩, rfl⟩
      refine ⟨_, (hd _ _ _ _).mpr ⟨hok, rfl⟩, ?_⟩
      refine bind_eq_ok.mpr ⟨_, (hrest _ _ _).mpr ⟨hoks, rfl⟩, ?_⟩
      rw [List.map_append, ← List.append_assoc]
      rfl

/-- A definition is lowered to its entity exactly if everything in it is accepted. -/
theorem lower_eq_ok_iff (source : Source) (d : Definition) (place : Place) (index : Nat)
    (seen : List Id) (result : Entity × List Id) :
    lower source place index seen d = .ok result ↔
      Accepted seen (d.placed place index) ∧
        result = (d.entity place index, seen ++ (d.placed place index).map Placed.id) := by
  induction d using nesting_induction generalizing place index seen result with
  | node d ih =>
    have hall := lowerAll_eq_ok_iff source ih
    have hproblem : d.problem? source place seen (d.expectedId place.parent index) = none ↔ _ :=
      problem?_eq_none
    have hids (ps : List Placed) : seen ++ (⟨place, index, d⟩ :: ps).map Placed.id =
        seen ++ [d.expectedId place.parent index] ++ ps.map Placed.id := List.append_cons _ _ _
    rw [lower_eq, placed_eq, entity_eq, accepted_cons, hids, Placed.id, ← hproblem]
    cases d.problem? source place seen (d.expectedId place.parent index) with
    | some problem => simp
    | none =>
      -- What is inside is lowered with the identity of the definition among those seen before.
      dsimp only
      rw [bind_eq_ok]
      constructor
      · rintro ⟨inner, hinner, h⟩
        obtain ⟨hok, rfl⟩ := (hall _ _ _ _).mp hinner
        exact ⟨⟨rfl, hok⟩, (Except.ok.inj h).symm⟩
      · rintro ⟨⟨-, hok⟩, rfl⟩
        exact ⟨_, (hall _ _ _ _).mpr ⟨hok, rfl⟩, rfl⟩

end Definition

namespace FileDefinition

def placed (file : FileDefinition) : List Placed := Definition.placedAll .file 0 file.entities

def entity (file : FileDefinition) : Entity :=
  { Entity.ofKind .file file.name with
    comment := file.comment
    children := Definition.entities .file 0 file.entities }

/-- Every definition follows the rules, and no two have one identity. -/
structure WellFormed (file : FileDefinition) : Prop where
  allowed : ∀ p ∈ file.placed, p.Allowed
  nodup : (file.placed.map Placed.id).Nodup

instance (file : FileDefinition) : Decidable file.WellFormed :=
  decidable_of_iff ((∀ p ∈ file.placed, p.Allowed) ∧ (file.placed.map Placed.id).Nodup)
    ⟨fun ⟨hallowed, hnodup⟩ => ⟨hallowed, hnodup⟩, fun h => ⟨h.allowed, h.nodup⟩⟩

theorem lower_eq_ok {source : Source} {file : FileDefinition} {result : Entity × List Id} :
    file.lower source = .ok result ↔
      Accepted [] file.placed ∧ result = (file.entity, file.placed.map Placed.id) := by
  have hall := Definition.lowerAll_eq_ok_iff source
    fun d (_ : d ∈ file.entities) => d.lower_eq_ok_iff source
  rw [lower, bind_eq_ok]
  constructor
  · rintro ⟨inner, hinner, h⟩
    obtain ⟨hok, rfl⟩ := (hall _ _ _ _).mp hinner
    exact ⟨hok, (Except.ok.inj h).symm⟩
  · rintro ⟨hok, rfl⟩
    exact ⟨_, (hall _ _ _ _).mpr ⟨hok, rfl⟩, rfl⟩

theorem accepted_iff_wellFormed (file : FileDefinition) :
    Accepted [] file.placed ↔ file.WellFormed := by
  constructor
  · rintro ⟨hallowed, hfresh⟩
    exact ⟨hallowed, fresh_of_none.mp hfresh⟩
  · rintro ⟨hallowed, hnodup⟩
    exact ⟨hallowed, fresh_of_none.mpr hnodup⟩

/-- Exactly the well-formed files can be lowered. The tree has an entity for every definition, in
the same order and nesting, and the identities are those of all definitions in order. -/
theorem lower_succeeds_iff (source : Source) (file : FileDefinition) (tree : Entity)
    (ids : List Id) :
    file.lower source = .ok (tree, ids) ↔
      file.WellFormed ∧ tree = file.entity ∧ ids = file.placed.map Placed.id := by
  rw [lower_eq_ok, accepted_iff_wellFormed, Prod.mk.injEq]

-- A file with an anonymous namespace, a template in it and two functions of one name, one of them a
-- specialization with an identity of its own.

def sceneFile : FileDefinition where
  name := "scene.hpp"
  comment := some "Shapes."
  entities :=
    [⟨"", none, .namespaceScope true, none, none, none,
        [⟨"shape", none, .classType .classKey false [] false, none,
          some [.type "T" .typename false none], none, []⟩]⟩,
      ⟨"draw", none, .functionDecl {}, some "Draws.", none, none, []⟩,
      ⟨"draw", some ⟨"draw#int"⟩, .functionDecl {}, none, none,
        some ⟨.toTarget ⟨"draw"⟩, [.type (.builtin "int")]⟩, []⟩]

def sceneTree : Entity where
  id := ⟨"scene.hpp"⟩
  name := "scene.hpp"
  kind := .file
  template := none
  comment := some "Shapes."
  children :=
    [⟨⟨"@0"⟩, "", .namespaceScope true, none, none,
        [⟨⟨"@0::shape"⟩, "shape", .classType .classKey false [] false,
          some (.primary [.type "T" .typename false none]), none, []⟩]⟩,
      ⟨⟨"draw"⟩, "draw", .functionDecl {}, none, some "Draws.", []⟩,
      ⟨⟨"draw#int"⟩, "draw", .functionDecl {},
        some (.specialization ⟨.toTarget ⟨"draw"⟩, [.type (.builtin "int")]⟩), none, []⟩]

/-- An index, two names and a choice of its own become the identities in this file. -/
theorem lower_succeeds_iff_scene :
    sceneFile.lower ⟨"", "synops.toml"⟩ =
      .ok (sceneTree, [⟨"@0"⟩, ⟨"@0::shape"⟩, ⟨"draw"⟩, ⟨"draw#int"⟩]) := by
  have hrules : sceneFile.WellFormed := by decide
  exact (lower_succeeds_iff _ sceneFile _ _).mpr ⟨hrules, rfl, rfl⟩

-- Overloads of a function need identities of their own.
example :
    let draw : Definition := ⟨"draw", none, .functionDecl {}, none, none, none, []⟩
    ¬(FileDefinition.mk "shape.hpp" none [draw, draw]).WellFormed ∧
      (FileDefinition.mk "shape.hpp" none [draw, { draw with id := some ⟨"draw#2"⟩ }]).WellFormed :=
  by decide

end FileDefinition

end HeaderSynopsis.Manifest
