import HeaderSynopsis.Proofs.Manifest.Complaints
import Mathlib.Data.List.Infix

/-!
Why a manifest is refused. The rules for definitions have an order, and so have the definitions of a
file: each stands before those inside it. Main result: apart from unknown kinds in the options,
which come first, the problem is that of the first rule that is broken by the first definition that
breaks any.
-/

namespace HeaderSynopsis.Manifest

open Declaration

namespace Definition

mutual

def enclosed (around : List Definition) (place : Place) (index : Nat) : Definition → List Enclosed
  | d@⟨_, _, _, _, _, _, children⟩ =>
      ⟨around, place, index, d⟩ :: enclosedAll (around ++ [d]) (d.inside place index) 0 children

def enclosedAll (around : List Definition) (place : Place) (index : Nat) :
    List Definition → List Enclosed
  | [] => []
  | d :: rest => enclosed around place index d ++ enclosedAll around place (index + 1) rest

end

theorem enclosed_eq (around : List Definition) (place : Place) (index : Nat) (d : Definition) :
    d.enclosed around place index =
      ⟨around, place, index, d⟩ ::
        enclosedAll (around ++ [d]) (d.inside place index) 0 d.children := by
  cases d
  rw [enclosed]

end Definition

def FileDefinition.enclosed (file : FileDefinition) : List Enclosed :=
  Definition.enclosedAll [] .file 0 file.entities

/-- A definition with others before it is the first that breaks a rule, and that rule is the first
one that it breaks. -/
structure FirstFault (file : FileDefinition) (before : List Enclosed) (e : Enclosed) (rule : Rule) :
    Prop where
  order : before ++ [e] <+: file.enclosed
  sound : ∀ earlier c, earlier ++ [c] <+: before →
    ∀ other, ¬c.placed.Breaks (earlier.map Enclosed.id) other
  broken : e.placed.Breaks (before.map Enclosed.id) rule
  first : ∀ other ∈ Rule.inOrder.takeWhile (· ≠ rule),
    ¬e.placed.Breaks (before.map Enclosed.id) other

-- What is placed, one after the other.

/-- The problem of the first of several placed definitions that has one; `seen` are the identities
before them. -/
def firstProblem? (source : Source) (seen : List Id) : List Placed → Option Problem
  | [] => none
  | p :: rest =>
      (p.definition.problem? source p.place seen p.id).or
        (firstProblem? source (seen ++ [p.id]) rest)

theorem firstProblem?_append (source : Source) (seen : List Id) (ps later : List Placed) :
    firstProblem? source seen (ps ++ later) =
      (firstProblem? source seen ps).or
        (firstProblem? source (seen ++ ps.map Placed.id) later) := by
  induction ps generalizing seen with
  | nil => simp [firstProblem?]
  | cons p rest ih =>
    rw [List.cons_append, firstProblem?, firstProblem?, ih, Option.or_assoc, List.map_cons,
      ← List.append_cons]

def loweredTo {α : Type} (source : Source) (seen : List Id) (ps : List Placed) (result : α) :
    Except Problem (α × List Id) :=
  match firstProblem? source seen ps with
  | some problem => .error problem
  | none => .ok (result, seen ++ ps.map Placed.id)

namespace Definition

theorem lowerAll_eq_loweredTo (source : Source) {ds : List Definition}
    (hds : ∀ d ∈ ds, ∀ place index seen, lower source place index seen d =
      loweredTo source seen (d.placed place index) (d.entity place index))
    (place : Place) (index : Nat) (seen : List Id) :
    lowerAll source place index seen ds =
      loweredTo source seen (placedAll place index ds) (entities place index ds) := by
  induction ds generalizing index seen with
  | nil => simp [lowerAll, loweredTo, firstProblem?, placedAll, entities]
  | cons d rest ih =>
    rw [List.forall_mem_cons] at hds
    rw [lowerAll, hds.1, placedAll, entities, loweredTo, loweredTo, firstProblem?_append]
    cases firstProblem? source seen (d.placed place index) with
    | some problem => rfl
    | none =>
      dsimp only [Option.none_or]
      change lowerAll source place (index + 1) (seen ++ (d.placed place index).map Placed.id) rest
        >>= _ = _
      rw [ih hds.2, loweredTo, List.map_append, List.append_assoc]
      cases firstProblem? source (seen ++ (d.placed place index).map Placed.id)
        (placedAll place (index + 1) rest) <;> rfl

/-- A definition is lowered to its entity unless there is a problem with what is placed. -/
theorem lower_eq_loweredTo (source : Source) (d : Definition) (place : Place) (index : Nat)
    (seen : List Id) :
    lower source place index seen d =
      loweredTo source seen (d.placed place index) (d.entity place index) := by
  induction d using nesting_induction generalizing place index seen with
  | node d ih =>
    rw [lower_eq, placed_eq, entity_eq, loweredTo, firstProblem?, Placed.id]
    cases d.problem? source place seen (d.expectedId place.parent index) with
    | some problem => rfl
    | none =>
      -- What is inside comes after the definition, with its identity among those seen.
      let inside := placedAll (d.inside place index) 0 d.children
      have hids : seen ++ (⟨place, index, d⟩ :: inside).map Placed.id =
          seen ++ [d.expectedId place.parent index] ++ inside.map Placed.id :=
        List.append_cons _ _ _
      dsimp only [Option.none_or]
      rw [lowerAll_eq_loweredTo source ih, loweredTo, hids]
      cases firstProblem? source (seen ++ [d.expectedId place.parent index]) inside <;> rfl

theorem map_placed_enclosedAll {ds : List Definition}
    (hds : ∀ d ∈ ds, ∀ around place index,
      (d.enclosed around place index).map Enclosed.placed = d.placed place index)
    (around : List Definition) (place : Place) (index : Nat) :
    (enclosedAll around place index ds).map Enclosed.placed = placedAll place index ds := by
  induction ds generalizing index with
  | nil => rfl
  | cons d rest ih =>
    rw [List.forall_mem_cons] at hds
    rw [enclosedAll, placedAll, List.map_append, hds.1, ih hds.2]

theorem map_placed_enclosed (d : Definition) (around : List Definition) (place : Place)
    (index : Nat) : (d.enclosed around place index).map Enclosed.placed = d.placed place index := by
  induction d using nesting_induction generalizing around place index with
  | node d ih =>
    rw [enclosed_eq, placed_eq, List.map_cons, map_placed_enclosedAll ih]

theorem path_of_mem_enclosedAll {ds : List Definition}
    (hds : ∀ d ∈ ds, ∀ around place index, place.path = around.map pathSegment →
      ∀ e ∈ d.enclosed around place index, e.placed.place.path = e.around.map pathSegment)
    {around : List Definition} {place : Place} (hpath : place.path = around.map pathSegment)
    (index : Nat) :
    ∀ e ∈ enclosedAll around place index ds,
      e.placed.place.path = e.around.map pathSegment := by
  induction ds generalizing index with
  | nil => exact fun _ h => absurd h List.not_mem_nil
  | cons d rest ih =>
    rw [List.forall_mem_cons] at hds
    rw [enclosedAll, List.forall_mem_append]
    exact ⟨hds.1 around place index hpath, ih hds.2 (index + 1)⟩

/-- The path of a definition is made of the names of the definitions around it. -/
theorem path_of_mem_enclosed (d : Definition) {around : List Definition} {place : Place}
    (hpath : place.path = around.map pathSegment) (index : Nat) :
    ∀ e ∈ d.enclosed around place index, e.placed.place.path = e.around.map pathSegment := by
  induction d using nesting_induction generalizing around place index with
  | node d ih =>
    have hinside : (d.inside place index).path = (around ++ [d]).map pathSegment := by
      rw [List.map_append, ← hpath]
      rfl
    rw [enclosed_eq, List.forall_mem_cons]
    refine ⟨hpath, path_of_mem_enclosedAll ?_ hinside 0⟩
    intro child hchild around place index h
    exact ih child hchild h index

end Definition

-- Items of a list together with the items before them.

theorem exists_prefix_cons {α : Type} {x : α} {l : List α} {P : List α → α → Prop} :
    (∃ before y, before ++ [y] <+: x :: l ∧ P before y) ↔
      P [] x ∨ ∃ before y, before ++ [y] <+: l ∧ P (x :: before) y := by
  constructor
  · rintro ⟨before, y, hprefix, hP⟩
    cases before with
    | nil =>
      obtain ⟨rfl, -⟩ := List.cons_prefix_cons.mp hprefix
      exact .inl hP
    | cons z before =>
      obtain ⟨rfl, hrest⟩ := List.cons_prefix_cons.mp hprefix
      exact .inr ⟨before, y, hrest, hP⟩
  · rintro (hP | ⟨before, y, hprefix, hP⟩)
    · exact ⟨[], x, List.cons_prefix_cons.mpr ⟨rfl, List.nil_prefix⟩, hP⟩
    · exact ⟨x :: before, y, List.cons_prefix_cons.mpr ⟨rfl, hprefix⟩, hP⟩

theorem forall_prefix_cons {α : Type} {x : α} {l : List α} {P : List α → α → Prop} :
    (∀ before y, before ++ [y] <+: x :: l → P before y) ↔
      P [] x ∧ ∀ before y, before ++ [y] <+: l → P (x :: before) y := by
  constructor
  · intro h
    refine ⟨h [] x (List.cons_prefix_cons.mpr ⟨rfl, List.nil_prefix⟩), ?_⟩
    intro before y hprefix
    exact h (x :: before) y (List.cons_prefix_cons.mpr ⟨rfl, hprefix⟩)
  · rintro ⟨hx, hl⟩ before y hprefix
    cases before with
    | nil =>
      obtain ⟨rfl, -⟩ := List.cons_prefix_cons.mp hprefix
      exact hx
    | cons z before =>
      obtain ⟨rfl, hrest⟩ := List.cons_prefix_cons.mp hprefix
      exact hl before y hrest

theorem append_singleton_not_prefix_nil {α : Type} {before : List α} {y : α} :
    ¬before ++ [y] <+: [] := by
  simp

/-- The first problem is that of a definition before which there is none. -/
theorem firstProblem?_eq_some_iff {source : Source} {seen : List Id} {es : List Enclosed}
    {problem : Problem} :
    firstProblem? source seen (es.map Enclosed.placed) = some problem ↔
      ∃ before e, before ++ [e] <+: es ∧
        (∀ earlier c, earlier ++ [c] <+: before →
          c.problem? source (seen ++ earlier.map Enclosed.id) = none) ∧
        e.problem? source (seen ++ before.map Enclosed.id) = some problem := by
  induction es generalizing seen with
  | nil =>
    constructor
    · intro h
      cases h
    · rintro ⟨before, e, hprefix, -⟩
      exact absurd hprefix append_singleton_not_prefix_nil
  | cons x rest ih =>
    have hx : x.definition.problem? source x.placed.place seen x.placed.id =
        x.problem? source seen := rfl
    have hseen (before : List Enclosed) : seen ++ (x :: before).map Enclosed.id =
        seen ++ [x.placed.id] ++ before.map Enclosed.id := List.append_cons _ _ _
    rw [List.map_cons, firstProblem?, Option.or_eq_some_iff, hx, ih, exists_prefix_cons]
    simp only [forall_prefix_cons, hseen, List.map_nil, List.append_nil]
    constructor
    · rintro (h | ⟨hnone, before, e, hprefix, hbefore, he⟩)
      · refine .inl ⟨?_, h⟩
        intro earlier c hprefix
        exact absurd hprefix append_singleton_not_prefix_nil
      · exact .inr ⟨before, e, hprefix, ⟨hnone, hbefore⟩, he⟩
    · rintro (⟨-, h⟩ | ⟨before, e, hprefix, ⟨hnone, hbefore⟩, he⟩)
      · exact .inl h
      · exact .inr ⟨hnone, before, e, hprefix, hbefore, he⟩

namespace FileDefinition

theorem map_placed_enclosed (file : FileDefinition) :
    file.enclosed.map Enclosed.placed = file.placed :=
  Definition.map_placed_enclosedAll (fun d _ => d.map_placed_enclosed) [] .file 0

theorem path_of_mem_enclosed (file : FileDefinition) :
    ∀ e ∈ file.enclosed, e.placed.place.path = e.around.map Definition.pathSegment :=
  Definition.path_of_mem_enclosedAll
    (fun d _ _ _ index hpath => d.path_of_mem_enclosed hpath index) rfl 0

/-- A file is refused for the first rule that is broken by the first definition that breaks any. -/
theorem lower_eq_error_iff {source : Source} {file : FileDefinition} {problem : Problem} :
    file.lower source = .error problem ↔
      ∃ before e rule, FirstFault file before e rule ∧ e.Complaint source rule problem := by
  have hlower : file.lower source = .error problem ↔
      firstProblem? source [] (file.enclosed.map Enclosed.placed) = some problem := by
    have hloweredTo : Definition.lowerAll source .file 0 [] file.entities =
        loweredTo source [] file.placed (Definition.entities .file 0 file.entities) :=
      Definition.lowerAll_eq_loweredTo source (fun d _ => d.lower_eq_loweredTo source) .file 0 []
    -- Lowering stops at the first problem that the traversal meets, and has no other error.
    rw [file.map_placed_enclosed, lower, hloweredTo, loweredTo]
    cases firstProblem? source [] file.placed with
    | some other =>
      constructor
      · intro h
        exact congrArg some (Except.error.inj h)
      · intro h
        exact congrArg Except.error (Option.some.inj h)
    | none =>
      constructor
      · intro h
        cases h
      · intro h
        cases h
  rw [hlower, firstProblem?_eq_some_iff]
  simp only [List.nil_append, Enclosed.problem?_eq_none_iff]
  constructor
  · rintro ⟨before, e, horder, hsound, he⟩
    have hmem : e ∈ file.enclosed := horder.subset (List.mem_append_right _ List.mem_cons_self)
    rw [Enclosed.problem?_eq_some_iff (file.path_of_mem_enclosed e hmem)] at he
    obtain ⟨rule, hbroken, hfirst, hcomplaint⟩ := he
    exact ⟨before, e, rule, ⟨horder, hsound, hbroken, hfirst⟩, hcomplaint⟩
  · rintro ⟨before, e, rule, hfault, hcomplaint⟩
    have hmem : e ∈ file.enclosed :=
      hfault.order.subset (List.mem_append_right _ List.mem_cons_self)
    refine ⟨before, e, hfault.order, hfault.sound, ?_⟩
    rw [Enclosed.problem?_eq_some_iff (file.path_of_mem_enclosed e hmem)]
    exact ⟨rule, hfault.broken, hfault.first, hcomplaint⟩

end FileDefinition

namespace Options

theorem unknownKind?_eq_some_iff {options : Options} {word : String} :
    options.unknownKind? = some word ↔
      ∃ known rest, options.omittedKinds = known ++ word :: rest ∧
        (∀ w ∈ known, w ∈ EntityKind.words) ∧ word ∉ EntityKind.words := by
  rw [unknownKind?, List.find?_eq_some_iff_append]
  constructor
  · rintro ⟨hword, known, rest, hkinds, hknown⟩
    refine ⟨known, rest, hkinds, ?_, by simpa using hword⟩
    intro w hw
    simpa using hknown w hw
  · rintro ⟨known, rest, hkinds, hknown, hword⟩
    refine ⟨by simpa using hword, known, rest, hkinds, ?_⟩
    intro w hw
    simpa using hknown w hw

theorem unknownKind?_eq_none_iff {options : Options} :
    options.unknownKind? = none ↔ ∀ word ∈ options.omittedKinds, word ∈ EntityKind.words := by
  simp [unknownKind?]

end Options

namespace Loaded

end Loaded

end HeaderSynopsis.Manifest
