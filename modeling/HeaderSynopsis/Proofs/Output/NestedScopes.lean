import HeaderSynopsis.Proofs.Generation.Programs
import HeaderSynopsis.Proofs.Output.Protocol

namespace HeaderSynopsis.Output

open Declaration Writing Generation

namespace Recorder

def stepEvents (r : Recorder) (step : Step) : Located Event :=
  (step.located (fun visited => r.detail visited.id) .definition).map (Prod.map id Event.of)

def eventsBelow (events : Located Event) (position : Position) (steps : List Step) :
    Located Event :=
  (List.range steps.length).flatMap fun index => events.within (position ++ [index])

/-- Events of a program of nested scopes, each with the position of the step that it belongs to, keep
to the protocol. -/
structure ScopeProtocol (r : Recorder) (program : Step) (events : Located Event) : Prop where
  -- Nothing comes between the events of a step and those of the steps inside it.
  contiguous : ∀ position, events.within position <:+: events
  -- Each scope has one decision, and one end if it is a container and not omitted.
  once : ∀ position container entity steps,
    program.inside? position = some (.nested container entity steps) →
    events.exactly position = (position, .of (.enter container entity)) ::
      if container && (r.detail entity.id).isWritten then [(position, .containerEnd entity.id)]
      else []
  -- An omitted scope has no end, whether it is a container or not.
  omitted : ∀ position container entity steps,
    program.inside? position = some (.nested container entity steps) →
    r.detail entity.id = .omitted →
    events.within position =
      (position, .of (.enter container entity)) :: eventsBelow events position steps
  -- The end of a container comes after all events of its steps.
  container : ∀ position entity steps,
    program.inside? position = some (.nested true entity steps) →
    r.detail entity.id ≠ .omitted →
    events.within position = (position, .containerBegin entity.id) ::
      eventsBelow events position steps ++ [(position, .containerEnd entity.id)]
  -- A scope that is no container has no end, whatever its entity is.
  leaf : ∀ position entity steps,
    program.inside? position = some (.nested false entity steps) →
    r.detail entity.id ≠ .omitted →
    events.within position = (position, .leaf entity.id) :: eventsBelow events position steps
  -- In an omitted scope writing leaves no event.
  silent : ∀ position container entity steps index ws,
    program.inside? position = some (.nested container entity steps) →
    r.detail entity.id = .omitted → steps[index]? = some (.write ws) →
    events.within (position ++ [index]) = []
  -- In any other scope it leaves all of its events.
  written : ∀ position container entity steps index ws,
    program.inside? position = some (.nested container entity steps) →
    r.detail entity.id ≠ .omitted → steps[index]? = some (.write ws) →
    events.within (position ++ [index]) = Recorder.steps (position ++ [index]) ws
  -- Asking for the decision of a scope leaves no event.
  query : ∀ position container entity steps index,
    program.inside? position = some (.nested container entity steps) →
    steps[index]? = some .query → events.within (position ++ [index]) = []
  -- What is generated in a scope leaves the events that it leaves by itself.
  generated : ∀ position container entity steps index inner,
    program.inside? position = some (.nested container entity steps) →
    steps[index]? = some (.generate inner) →
    events.within (position ++ [index]) = (r.locatedEvents inner).below (position ++ [index])
  -- After the decision about an omitted scope everything in it is generated or belongs to a scope
  -- inside it.
  inner : ∀ position container entity steps,
    program.inside? position = some (.nested container entity steps) →
    r.detail entity.id = .omitted →
    ∀ thing ∈ eventsBelow events position steps, ∃ index,
      thing ∈ events.within (position ++ [index]) ∧
      ((∃ inner, steps[index]? = some (.generate inner)) ∨
        ∃ nested shown inside, steps[index]? = some (.nested nested shown inside))

variable {r : Recorder} {program step : Step} {position : Position} {container : Bool}
  {entity : Entity} {steps : List Step}

theorem eventsBelow_eq (r : Recorder) (program : Step) (position : Position) (steps : List Step) :
    eventsBelow (r.stepEvents program) position steps =
      ((List.range steps.length).flatMap fun index =>
        (program.located (fun visited => r.detail visited.id) .definition).within
          (position ++ [index])).map (Prod.map id Event.of) := by
  rw [eventsBelow, List.map_flatMap]
  exact List.flatMap_congr fun index _ => Located.within_map _ _ _

theorem within_stepEvents_of_scope
    (h : program.inside? position = some (.nested container entity steps)) :
    (r.stepEvents program).within position =
      (position, .of (.enter container entity)) :: eventsBelow (r.stepEvents program) position steps
        ++ if container && (r.detail entity.id).isWritten then
          [(position, .containerEnd entity.id)] else [] := by
  rw [eventsBelow_eq, stepEvents, Located.within_map, Step.within_located_of_scope h]
  cases container && (r.detail entity.id).isWritten <;> simp [Event.of]

theorem within_stepEvents_of_step {index : Nat}
    (h : program.inside? position = some (.nested container entity steps))
    (hstep : steps[index]? = some step) :
    (r.stepEvents program).within (position ++ [index]) =
      ((step.located (fun visited => r.detail visited.id) (r.detail entity.id)).below
        (position ++ [index])).map (Prod.map id Event.of) := by
  rw [stepEvents, Located.within_map, Step.within_located_of_step h hstep]

/-- The events of a program, at their positions, keep to the protocol. -/
theorem scopeProtocol_stepEvents (r : Recorder) (program : Step) :
    r.ScopeProtocol program (r.stepEvents program) where
  contiguous position := by
    rw [stepEvents, Located.within_map]
    exact (program.contiguous_located position).map _
  once position container entity steps h := by
    rw [stepEvents, Located.exactly_map, Step.exactly_located_of_scope h]
    cases container && (r.detail entity.id).isWritten <;> rfl
  omitted position container entity steps h hd := by
    rw [within_stepEvents_of_scope h, hd]
    simp [Detail.isWritten]
  container position entity steps h hd := by
    rw [within_stepEvents_of_scope h, Detail.isWritten_iff.mpr hd]
    rfl
  leaf position entity steps h hd := by
    rw [within_stepEvents_of_scope h]
    exact List.append_nil _
  silent position container entity steps index ws h hd hstep := by
    rw [within_stepEvents_of_step h hstep, Step.located, hd]
    rfl
  written position container entity steps index ws h hd hstep := by
    rw [within_stepEvents_of_step h hstep, Step.located, if_pos (Detail.isWritten_iff.mpr hd),
      map_of_here]
  query position container entity steps index h hstep := by
    rw [within_stepEvents_of_step h hstep, Step.located]
    rfl
  generated position container entity steps index inner h hstep := by
    rw [within_stepEvents_of_step h hstep, Step.located, ← Located.below_map]
    rfl
  inner position container entity steps h hd thing hm := by
    obtain ⟨index, hindex, hwithin⟩ := List.mem_flatMap.mp hm
    obtain ⟨step, hstep⟩ : ∃ step, steps[index]? = some step :=
      ⟨_, List.getElem?_eq_getElem (List.mem_range.mp hindex)⟩
    refine ⟨index, hwithin, ?_⟩
    rw [within_stepEvents_of_step h hstep] at hwithin
    cases step with
    | query =>
      rw [Step.located] at hwithin
      exact absurd hwithin List.not_mem_nil
    | write ws =>
      rw [Step.located, hd] at hwithin
      exact absurd hwithin List.not_mem_nil
    | generate inner => exact Or.inl ⟨inner, hstep⟩
    | nested nested shown inside => exact Or.inr ⟨nested, shown, inside, hstep⟩

/-- Whatever a recorder omits or reduces to declarations, it records every program of nested scopes
to the end, and the record keeps to the protocol. -/
theorem runScope_keeps_protocol (omitted declarations : List Id) (container : Bool)
    (entity : Entity) (steps : List Step) :
    let r : Recorder := { omitted, declarations }
    let program := Step.nested container entity steps
    let outcome := runScope r.generator container entity steps #[]
    outcome.state.1.toList = (r.stepEvents program).map Prod.snd ∧ outcome.stoppedAt = none ∧
      r.ScopeProtocol program (r.stepEvents program) := by
  intro r program outcome
  obtain ⟨notes, hrun⟩ :=
    Step.run_eq_attendAll (r.decides_of_willing rfl) program .definition (#[], [])
  have houtcome : outcome = Step.run r.generator .definition program (#[], []) := by
    rw [Step.run]
    rfl
  refine ⟨?_, by rw [houtcome, hrun], r.scopeProtocol_stepEvents program⟩
  rw [houtcome, hrun, toList_attendAll, stepEvents, List.map_map, List.map_map]
  rfl

end Recorder

end HeaderSynopsis.Output
