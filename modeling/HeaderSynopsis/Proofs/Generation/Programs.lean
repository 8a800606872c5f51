import HeaderSynopsis.Generation.Steps
import HeaderSynopsis.Proofs.Generation.Attribution

/-!
What a generator with decisions of its own is shown by steps that are taken one by one. Scopes are
nested at will, so that everything is shown beside the position of the step that shows it. Main
result: a scope shows its decision, then what each of its steps shows by itself, in their order, and
then its end, if it is a container and not omitted.
-/

namespace HeaderSynopsis.Generation

open Declaration Writing

namespace Located

variable {α β : Type} (things : Located α) (position : Position)

theorem below_map (f : α → β) :
    Located.below position (things.map (Prod.map id f)) =
      (things.below position).map (Prod.map id f) := by
  rw [below, below, List.map_map, List.map_map]
  rfl

/-- Everything at a position is there in one piece. -/
def Contiguous (things : Located α) : Prop := ∀ position, things.within position <:+: things

def exactly (things : Located α) (position : Position) : Located α :=
  things.filter (·.1 = position)

theorem exactly_map (f : α → β) :
    Located.exactly (things.map (Prod.map id f)) position =
      (things.exactly position).map (Prod.map id f) := by
  rw [exactly, List.filter_map]
  rfl

theorem exactly_within : (things.within position).exactly position = things.exactly position := by
  rw [exactly, within, List.filter_filter]
  refine List.filter_congr fun thing _ => ?_
  by_cases h : thing.1 = position <;> simp [h]

theorem exactly_below : (things.below position).exactly position =
    (things.exactly []).below position := by
  rw [exactly, below, List.filter_map]
  refine congrArg _ (List.filter_congr fun thing _ => ?_)
  simp

theorem exactly_append (later : Located α) :
    exactly (things ++ later) position = things.exactly position ++ later.exactly position :=
  List.filter_append _ _

theorem exactly_numbered (index : Nat) (parts : List (Located α)) :
    (numbered index parts).exactly [] = [] := by
  induction parts generalizing index with
  | nil => rfl
  | cons part rest ih =>
    have hpart : (part.below [index]).exactly [] = [] := by
      rw [exactly, List.filter_eq_nil_iff]
      intro thing hm
      obtain ⟨inner, -, rfl⟩ := List.mem_map.mp hm
      simp
    rw [numbered_cons, exactly_append, hpart, ih, List.nil_append]

theorem within_within_append (rest : Position) :
    (things.within position).within (position ++ rest) = things.within (position ++ rest) := by
  rw [within, within, within, List.filter_filter]
  refine List.filter_congr fun thing _ => ?_
  by_cases h : position ++ rest <+: thing.1
  · simp [h, (List.prefix_append position rest).trans h]
  · simp [h]

theorem map_snd_numbered (index : Nat) (parts : List (Located α)) :
    (numbered index parts).map Prod.snd = parts.flatMap (·.map Prod.snd) := by
  induction parts generalizing index with
  | nil => rfl
  | cons part rest ih =>
    rw [numbered_cons, List.map_append, map_snd_below, ih, List.flatMap_cons]

variable {things}

/-- What is about the outermost scope only is not found further down. -/
theorem within_cons_of_own (h : ∀ thing ∈ things, thing.1 = []) (index : Nat) (rest : Position) :
    things.within (index :: rest) = [] := by
  rw [within, List.filter_eq_nil_iff]
  intro thing hm
  simp [h thing hm]

theorem contiguous_of_own (h : ∀ thing ∈ things, thing.1 = []) : Contiguous things := by
  intro position
  cases position with
  | nil => simp
  | cons index rest =>
    rw [within_cons_of_own h]
    exact List.nil_infix

/-- Several parts are contiguous as soon as each of them is, also with something around them. -/
theorem Contiguous.numbered {first last : Located α} {parts : List (Located α)}
    (h : ∀ part ∈ parts, Contiguous part) (hfirst : ∀ thing ∈ first, thing.1 = [])
    (hlast : ∀ thing ∈ last, thing.1 = []) :
    Contiguous (first ++ Located.numbered 0 parts ++ last) := by
  intro position
  cases position with
  | nil => simp
  | cons index rest =>
    rw [within_append, within_append, within_cons_of_own hfirst, within_cons_of_own hlast,
      List.nil_append, List.append_nil, within_numbered_zero]
    cases hpart : parts[index]? with
    | none => exact List.nil_infix
    | some part =>
      have hinside : (part.within rest).below [index] <:+: part.below [index] :=
        (h part (List.mem_of_getElem? hpart) rest).map _
      have hall : part.below [index] <:+: Located.numbered 0 parts := by
        rw [← Nat.zero_add index]
        exact isInfix_numbered hpart
      exact (hinside.trans hall).trans (List.infix_append _ _ _)

end Located

namespace Step

/-- What holds of every step that opens no scope, and of a scope as soon as it holds of the steps
inside it, holds of every step. -/
@[elab_as_elim]
theorem step_induction {motive : Step → Prop} (query : motive .query)
    (write : ∀ writes, motive (.write writes)) (generate : ∀ entity, motive (.generate entity))
    (nested : ∀ container entity steps, (∀ step ∈ steps, motive step) →
      motive (.nested container entity steps)) : ∀ step, motive step
  | .query => query
  | .write writes => write writes
  | .generate entity => generate entity
  | .nested container entity steps =>
      nested container entity steps fun step hstep =>
        have : step ∈ steps := hstep
        step_induction query write generate nested step
  termination_by step => sizeOf step
  decreasing_by
    have h := List.sizeOf_lt_of_mem this
    simp only [Step.nested.sizeOf_spec]
    omega

/-- The step that a position leads to: the index of a step in a scope, and on from there. -/
def inside? : Step → Position → Option Step
  | step, [] => some step
  | .nested _ _ steps, index :: rest => steps[index]?.bind fun step => step.inside? rest
  | _, _ :: _ => none

mutual

def located (decide : Entity → Detail) (detail : Detail) : Step → Located Showing
  | .query => []
  | .write writes => if detail.isWritten then here writes else []
  | .generate entity => Generation.located decide entity
  | .nested container entity steps =>
      [([], .enter container entity)] ++
        Located.numbered 0 (located.parts decide (decide entity) steps) ++
        if container && (decide entity).isWritten then [([], .leave entity)] else []

def located.parts (decide : Entity → Detail) (detail : Detail) : List Step → List (Located Showing)
  | [] => []
  | step :: rest => located decide detail step :: located.parts decide detail rest

end

section

variable {decide : Entity → Detail} {detail : Detail} {container : Bool} {entity : Entity}
  {steps : List Step}

theorem located_parts_eq (steps : List Step) :
    located.parts decide detail steps = steps.map (located decide detail) := by
  induction steps with
  | nil => rfl
  | cons step rest ih => rw [located.parts, ih, List.map_cons]

theorem located_nested :
    located decide detail (.nested container entity steps) =
      [([], .enter container entity)] ++
        Located.numbered 0 (steps.map (located decide (decide entity))) ++
        if container && (decide entity).isWritten then [([], .leave entity)] else [] := by
  rw [located, located_parts_eq]

/-- What is shown by a scope and by everything inside it is shown without anything in between. -/
theorem contiguous_located (step : Step) : (step.located decide detail).Contiguous := by
  induction step using step_induction generalizing detail with
  | query => exact Located.contiguous_of_own fun _ h => absurd h List.not_mem_nil
  | write writes =>
    rw [located]
    split
    · exact Located.contiguous_of_own (by simp [here])
    · exact Located.contiguous_of_own fun _ h => absurd h List.not_mem_nil
  | generate entity => exact isInfix_within_located entity
  | nested container entity steps ih =>
    rw [located_nested]
    refine Located.Contiguous.numbered ?_ (by simp) (by split <;> simp)
    exact List.forall_mem_map.mpr fun step hm => ih step hm

/-- At the position of a step inside a scope is what the step shows, after the decision about the
scope. -/
theorem within_located_nested (index : Nat) (rest : Position) :
    (located decide detail (.nested container entity steps)).within (index :: rest) =
      steps[index]?.elim [] fun step =>
        ((step.located decide (decide entity)).within rest).below [index] := by
  have hend : Located.within (if container && (decide entity).isWritten then
      [([], Showing.leave entity)] else []) (index :: rest) = [] :=
    Located.within_cons_of_own (by split <;> simp) index rest
  rw [located_nested, Located.within_append, Located.within_append, hend, List.append_nil,
    Located.within_cons_of_own (by simp), List.nil_append, Located.within_numbered_zero,
    List.getElem?_map]
  cases steps[index]? <;> rfl

/-- What a scope inside shows does not depend on the scopes around it. -/
theorem within_located_of_inside {program : Step} {position : Position}
    (h : program.inside? position = some (.nested container entity steps)) (other : Detail) :
    (program.located decide detail).within position =
      (located decide other (.nested container entity steps)).below position := by
  induction position generalizing program detail with
  | nil =>
    obtain rfl := Option.some.inj h
    rw [Located.within_nil, Located.below_nil, located_nested, located_nested]
  | cons index rest ih =>
    cases program with
    | nested outer around outerSteps =>
      obtain ⟨step, hstep, hinside⟩ := Option.bind_eq_some_iff.mp h
      rw [within_located_nested, hstep, Option.elim_some, ih hinside]
      exact Located.below_below _ _ _
    | _ => exact absurd h (by simp [inside?])

/-- Further inside a scope that a position leads to, things are as in that scope by itself. -/
theorem within_append_of_inside {program : Step} {position : Position}
    (h : program.inside? position = some (.nested container entity steps)) (rest : Position) :
    (program.located decide detail).within (position ++ rest) =
      ((located decide detail (.nested container entity steps)).within rest).below position := by
  rw [← Located.within_within_append, within_located_of_inside h detail,
    Located.within_below_append]

/-- What a step shows that is taken in a scope inside. -/
theorem within_located_of_step {program step : Step} {position : Position} {index : Nat}
    (h : program.inside? position = some (.nested container entity steps))
    (hstep : steps[index]? = some step) :
    (program.located decide detail).within (position ++ [index]) =
      (step.located decide (decide entity)).below (position ++ [index]) := by
  rw [within_append_of_inside h, within_located_nested, hstep, Option.elim_some,
    Located.within_nil, Located.below_below]

/-- A scope inside shows its decision, what its steps show, and its end. -/
theorem within_located_of_scope {program : Step} {position : Position}
    (h : program.inside? position = some (.nested container entity steps)) :
    (program.located decide detail).within position =
      [(position, .enter container entity)] ++
        (List.range steps.length).flatMap
          (fun index => (program.located decide detail).within (position ++ [index])) ++
        if container && (decide entity).isWritten then [(position, .leave entity)] else [] := by
  have hsteps (index : Nat) : (program.located decide detail).within (position ++ [index]) =
      ((Located.numbered 0 (steps.map (located decide (decide entity)))).within [index]).below
        position := by
    rw [within_append_of_inside h, within_located_nested, Located.within_numbered_zero,
      List.getElem?_map]
    cases steps[index]? <;> rfl
  rw [within_located_of_inside h detail, located_nested, Located.numbered_eq_flatMap_within,
    List.length_map]
  simp only [hsteps, Located.below, List.map_append, List.map_flatMap]
  cases container && (decide entity).isWritten <;> simp

/-- At the very position of a scope inside there is nothing but its decision and its end. -/
theorem exactly_located_of_scope {program : Step} {position : Position}
    (h : program.inside? position = some (.nested container entity steps)) :
    (program.located decide detail).exactly position =
      [(position, .enter container entity)] ++
        if container && (decide entity).isWritten then [(position, .leave entity)] else [] := by
  rw [← Located.exactly_within, within_located_of_inside h detail, Located.exactly_below,
    located_nested, Located.exactly_append, Located.exactly_append, Located.exactly_numbered,
    List.append_nil]
  cases container && (decide entity).isWritten <;> simp [Located.exactly, Located.below]

end

section

variable {σ : Type} {g : Generator σ} {decide : Entity → Detail}

theorem runAll_eq_attendAll {steps : List Step}
    (hsteps : ∀ step ∈ steps, ∀ detail s, ∃ notes, Step.run g detail step s =
      ⟨(g.attendAll ((step.located decide detail).map Prod.snd) s.1, notes), none⟩)
    (detail : Detail) (s : Noted σ) :
    ∃ notes, Step.runAll g detail steps s =
      ⟨(g.attendAll (steps.flatMap fun step => (step.located decide detail).map Prod.snd) s.1,
        notes), none⟩ := by
  induction steps generalizing s with
  | nil => exact ⟨s.2, rfl⟩
  | cons step rest ih =>
    obtain ⟨notes, hstep⟩ := hsteps step List.mem_cons_self detail s
    obtain ⟨later, hrest⟩ := ih (fun other hm => hsteps other (List.mem_cons_of_mem _ hm))
      (g.attendAll ((step.located decide detail).map Prod.snd) s.1, notes)
    refine ⟨later, ?_⟩
    rw [Step.runAll, hstep, List.flatMap_cons, Generator.attendAll_append]
    exact hrest

/-- A generator with decisions of its own takes notice of exactly what a step shows. -/
theorem run_eq_attendAll (hg : g.Decides decide) (step : Step) (detail : Detail) (s : Noted σ) :
    ∃ notes, Step.run g detail step s =
      ⟨(g.attendAll ((step.located decide detail).map Prod.snd) s.1, notes), none⟩ := by
  induction step using step_induction generalizing detail s with
  | query => exact ⟨s.2 ++ [detail], rfl⟩
  | write writes =>
    refine ⟨s.2, ?_⟩
    rw [Step.run, located]
    split
    · rw [map_snd_here, Generator.attendAll_map_write]
    · rfl
  | generate entity =>
    refine ⟨s.2, ?_⟩
    rw [Step.run, located, hg.generate_eq, map_snd_located]
    rfl
  | nested container entity steps ih =>
    -- The inner steps see the decision on this scope, whatever the one around it was.
    obtain ⟨notes, hsteps⟩ := runAll_eq_attendAll ih (decide entity)
      ((g.enter container entity s.1).2, s.2)
    refine ⟨notes, ?_⟩
    have henter : g.noted.enter container entity s =
        (some (decide entity), (g.enter container entity s.1).2, s.2) := by
      rw [← hg container entity s.1]
      rfl
    have hall : (located decide detail (.nested container entity steps)).map Prod.snd =
        [.enter container entity] ++
          steps.flatMap (fun step => (step.located decide (decide entity)).map Prod.snd) ++
          if container && (decide entity).isWritten then [.leave entity] else [] := by
      rw [located_nested, List.map_append, List.map_append, Located.map_snd_numbered,
        List.flatMap_map]
      cases container && (decide entity).isWritten <;> rfl
    rw [Step.run, scope, henter, hall]
    dsimp only
    rw [hsteps, Generator.attendAll_append, Generator.attendAll_append]
    cases container && (decide entity).isWritten <;> rfl

end

end Step

end HeaderSynopsis.Generation
