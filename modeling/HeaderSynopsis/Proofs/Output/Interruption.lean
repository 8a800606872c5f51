import HeaderSynopsis.Proofs.Generation.Unfolding
import HeaderSynopsis.Proofs.Output.Recording

/-!
What a recorder holds that refuses an entity. It is the record of a recorder that refuses nothing
up to the first decision about that entity, and then the ends of all containers that are open by
then.
-/

namespace HeaderSynopsis.Output

open Declaration Writing Generation

namespace Recorder

variable {r : Recorder} {p : Id}

/-- Follows which containers are open, innermost first. Omitted ones are never opened. -/
def track (r : Recorder) (opened : List Id) : Event → List Id
  | .containerBegin id => if (r.detail id).isWritten then id :: opened else opened
  | .containerEnd id => opened.erase id
  | .leaf _ | .write _ => opened

def openAfter (r : Recorder) (opened : List Id) (events : List Event) : List Id :=
  events.foldl r.track opened

@[simp]
theorem openAfter_nil (opened : List Id) : r.openAfter opened [] = opened := rfl

@[simp]
theorem openAfter_cons (opened : List Id) (event : Event) (events : List Event) :
    r.openAfter opened (event :: events) = r.openAfter (r.track opened event) events := rfl

@[simp]
theorem openAfter_append (opened : List Id) (events later : List Event) :
    r.openAfter opened (events ++ later) = r.openAfter (r.openAfter opened events) later :=
  List.foldl_append

@[simp]
theorem openAfter_map_write (opened : List Id) (ws : List Write) :
    r.openAfter opened (ws.map .write) = opened := by
  induction ws with
  | nil => rfl
  | cons w ws ih => exact ih

/-- What is recorded of some events by a recorder that refuses `p`, if one of them is a decision
about `p`: `inner` are the containers opened among them that are still open at the first one. -/
def CutShort (r : Recorder) (p : Id) (events cut : List Event) : Prop :=
  ∃ before event after inner, events = before ++ event :: after ∧ event.decided? = some p ∧
    p ∉ visited before ∧ (∀ opened, r.openAfter opened before = inner ++ opened) ∧
    cut = before ++ event :: inner.map .containerEnd

theorem CutShort.first {event : Event} (he : event.decided? = some p) (after : List Event) :
    CutShort r p (event :: after) [event] :=
  ⟨[], event, after, [], rfl, he, List.not_mem_nil, fun _ => rfl, rfl⟩

theorem CutShort.followed {events cut : List Event} (h : CutShort r p events cut)
    (later : List Event) : CutShort r p (events ++ later) cut := by
  obtain ⟨before, event, after, inner, rfl, he, hb, ho, rfl⟩ := h
  exact ⟨before, event, after ++ later, inner, by simp, he, hb, ho, rfl⟩

theorem CutShort.preceded {events cut earlier : List Event} (h : CutShort r p events cut)
    (hp : p ∉ visited earlier) (hc : ∀ opened, r.openAfter opened earlier = opened) :
    CutShort r p (earlier ++ events) (earlier ++ cut) := by
  obtain ⟨before, event, after, inner, rfl, he, hb, ho, rfl⟩ := h
  refine ⟨earlier ++ before, event, after, inner, by simp, he, ?_, fun opened => ?_, by simp⟩
  · rw [visited_append, List.mem_append]
    exact fun hm => hm.elim hp hb
  · rw [openAfter_append, hc, ho]

/-- The end of a container is recorded after those of the containers inside it. -/
theorem CutShort.enclosed {events cut : List Event} {id : Id} (h : CutShort r p events cut)
    (hp : id ≠ p) (hw : (r.detail id).isWritten = true) :
    CutShort r p (.containerBegin id :: events) (.containerBegin id :: cut ++ [.containerEnd id]) := by
  obtain ⟨before, event, after, inner, rfl, he, hb, ho, rfl⟩ := h
  refine ⟨.containerBegin id :: before, event, after, inner ++ [id], rfl, he, ?_, fun opened => ?_,
    by simp⟩
  · rw [visited_cons]
    intro hm
    rcases List.mem_append.mp hm with hf | hl
    · exact hp (List.mem_singleton.mp hf).symm
    · exact hb hl
  · rw [openAfter_cons, track, if_pos hw, ho, List.append_assoc, List.singleton_append]

/-- Whether a part of a generation has some events: it leaves no container open, and a recorder that
refuses `p` records all of them or, if one is a decision about `p`, cuts them short. -/
structure Records (r : Recorder) (p : Id) (part : Array Event → Outcome (Array Event))
    (events : List Event) : Prop where
  balanced : ∀ opened, r.openAfter opened events = opened
  run : ∀ s,
    (p ∉ visited events ∧ (part s).stoppedAt = none ∧ (part s).state.toList = s.toList ++ events) ∨
      ∃ cut, CutShort r p events cut ∧ (part s).stoppedAt = some p ∧
        (part s).state.toList = s.toList ++ cut

namespace Records

variable {part next : Array Event → Outcome (Array Event)} {events later : List Event}

theorem nil : Records r p (fun s => ⟨s, none⟩) [] where
  balanced _ := rfl
  run s := .inl ⟨List.not_mem_nil, rfl, by simp⟩

theorem andThen (h : Records r p part events) (h' : Records r p next later) :
    Records r p (fun s => (part s).andThen next) (events ++ later) where
  balanced opened := by rw [openAfter_append, h.balanced, h'.balanced]
  run s := by
    rcases h.run s with ⟨hp, hnone, hs⟩ | ⟨cut, hcut, hsome, hs⟩
    · have hnext : (part s).andThen next = next (part s).state := by rw [Outcome.andThen, hnone]
      rw [hnext]
      rcases h'.run (part s).state with ⟨hp', hnone', hs'⟩ | ⟨cut, hcut, hsome, hs'⟩
      · refine .inl ⟨?_, hnone', by rw [hs', hs, List.append_assoc]⟩
        rw [visited_append, List.mem_append]
        exact fun hm => hm.elim hp hp'
      · exact .inr ⟨events ++ cut, hcut.preceded hp h.balanced, hsome,
          by rw [hs', hs, List.append_assoc]⟩
    · -- What has stopped is not gone on with.
      have hstopped : (part s).andThen next = part s := by rw [Outcome.andThen, hsome]
      rw [hstopped]
      exact .inr ⟨cut, hcut.followed later, hsome, hs⟩

theorem writes {q : Recorder} (ws : List Write) :
    Records r p (fun s => ⟨q.generator.writeAll ws s, none⟩) (ws.map .write) where
  balanced opened := openAfter_map_write opened ws
  run s := .inl ⟨by simp, rfl, q.toList_writeAll ws s⟩

end Records

def refusing (r : Recorder) (p : Id) : Recorder := { r with refused := some p }

/-- The decision about a container that is not omitted opens it, and no other decision opens
anything. -/
theorem track_of_enter (opened : List Id) (container : Bool) (entity : Entity) :
    r.track opened (.of (.enter container entity)) =
      if container && (r.detail entity.id).isWritten then entity.id :: opened else opened := by
  cases container with
  | false => rfl
  | true => simp [Event.of, track]

section

variable {container : Bool} {entity : Entity} {inside : Detail → Array Event → Outcome (Array Event)}

theorem scope_of_refused (hp : entity.id = p) (s : Array Event) :
    Generation.scope (r.refusing p).generator container entity inside s =
      ⟨s.push (.of (.enter container entity)), some p⟩ := by
  have hdecision : (r.refusing p).decision entity.id = none := by
    rw [decision_eq, hp]
    exact if_pos rfl
  subst hp
  unfold Generation.scope generator
  dsimp only
  rw [hdecision]
  rfl

theorem scope_of_ne (hp : entity.id ≠ p) (s : Array Event) :
    Generation.scope (r.refusing p).generator container entity inside s =
      let o := inside (r.detail entity.id) (s.push (.of (.enter container entity)))
      if container && (r.detail entity.id).isWritten then
        o.afterwards (·.push (.containerEnd entity.id))
      else o := by
  have hdecision : (r.refusing p).decision entity.id = some (r.detail entity.id) := by
    rw [decision_eq]
    exact if_neg fun he => hp (Option.some_inj.mp he).symm
  unfold Generation.scope generator
  dsimp only
  rw [hdecision]
  rfl

/-- The scope of an entity records the decision, what is inside it and, for a container that is not
omitted, its end. -/
theorem Records.scope {events : List Event} (container : Bool)
    (h : Records r p (inside (r.detail entity.id)) events) :
    Records r p (Generation.scope (r.refusing p).generator container entity inside)
      (.of (.enter container entity) :: events ++
        if container && (r.detail entity.id).isWritten then [.containerEnd entity.id] else []) where
  balanced opened := by
    rw [openAfter_append, openAfter_cons, track_of_enter, h.balanced]
    split
    · simp [track]
    · rfl
  run s := by
    have hdecided := Event.decided?_of_enter container entity
    by_cases hp : entity.id = p
    · -- The decision about the entity is the first one about `p`, and nothing else is recorded.
      rw [scope_of_refused hp]
      exact .inr ⟨_, CutShort.first (hp ▸ hdecided) _, rfl, Array.toList_push⟩
    · rw [scope_of_ne hp]
      have hfirst : p ∉ visited [.of (.enter container entity)] := by
        simp [visited, hdecided, Ne.symm hp]
      have hpush : (s.push (.of (.enter container entity))).toList =
          s.toList ++ [.of (.enter container entity)] := Array.toList_push
      rcases h.run (s.push (.of (.enter container entity))) with
        ⟨hnot, hnone, hall⟩ | ⟨cut, hcut, hsome, hall⟩
      · left
        have hevents : p ∉ visited (.of (.enter container entity) :: events) := by
          rw [← List.singleton_append, visited_append, List.mem_append]
          exact fun hm => hm.elim hfirst hnot
        cases container && (r.detail entity.id).isWritten with
        | false => exact ⟨by simpa using hevents, hnone, by simp [hall]⟩
        | true =>
          refine ⟨?_, hnone, ?_⟩
          · rw [visited_append, List.mem_append]
            exact fun hm => hm.elim hevents List.not_mem_nil
          · simp [Outcome.afterwards, hall]
      · right
        cases hw : container && (r.detail entity.id).isWritten with
        | false =>
          -- Nothing was opened, so the decision just comes before what is cut short.
          have hbalanced : ∀ opened,
              r.openAfter opened [.of (.enter container entity)] = opened := by
            intro opened
            rw [openAfter_cons, track_of_enter, hw]
            rfl
          exact ⟨_, (hcut.preceded hfirst hbalanced).followed [], hsome, by simp [hall]⟩
        | true =>
          obtain ⟨rfl, hwritten⟩ := Bool.and_eq_true_iff.mp hw
          refine ⟨_, (hcut.enclosed hp hwritten).followed _, hsome, ?_⟩
          dsimp only [Outcome.afterwards]
          rw [if_pos rfl, Array.toList_push, hall, hpush]
          simp [Event.of]

end

/-- What is inside an entity is recorded as its decision asks. -/
theorem Records.inside {entity : Entity}
    (hall : Records r p (generateAll (r.refusing p).generator entity.children)
      (entity.children.flatMap r.events)) (hw : (r.detail entity.id).isWritten = true) :
    Records r p (generateInside (r.refusing p).generator entity (r.detail entity.id))
      (r.eventsInside entity) := by
  unfold eventsInside
  by_cases hd : r.detail entity.id = .definition ∧ entity.isContainer
  · rw [if_pos hd, generateInside_of_definition hd]
    exact ((writes _).andThen hall).andThen (writes _)
  · rw [if_neg hd, generateInside_of_declaration hw hd]
    exact writes _

/-- A recorder that refuses `p` records a tree like one that does not, up to the first decision
about `p`. -/
theorem records_generate (r : Recorder) (p : Id) (entity : Entity) :
    Records r p (generate (r.refusing p).generator entity) (r.events entity) := by
  induction entity using Entity.tree_induction with
  | node entity ih =>
    have hall : Records r p (generateAll (r.refusing p).generator entity.children)
        (entity.children.flatMap r.events) := by
      generalize entity.children = children at ih
      induction children with
      | nil => exact .nil
      | cons child rest ihrest =>
        have hrest := ihrest fun c hm => ih c (List.mem_cons_of_mem _ hm)
        exact (ih child List.mem_cons_self).andThen hrest
    rw [generate_eq_scope, events_eq]
    cases hw : (r.detail entity.id).isWritten with
    | false =>
      have hinside : Records r p
          (generateInside (r.refusing p).generator entity (r.detail entity.id)) [] := by
        rw [generateInside_of_omitted hw]
        exact .nil
      simpa [hw] using hinside.scope entity.isContainer
    | true => simpa [hw] using (Records.inside hall hw).scope entity.isContainer

/-- The record of a recorder that refuses `p`, compared to the one of the same recorder without a
refusal. Both are the same if no decision about `p` is asked for. Otherwise the generation stops,
and the record goes up to the first such decision and on with the ends of the containers that are
open by then, innermost first. -/
theorem record_refusing (omitted declarations : List Id) (p : Id) (entity : Entity) :
    let willing : Recorder := { omitted, declarations }
    let events := (willing.record entity).1
    let (recorded, stoppedAt) := (willing.refusing p).record entity
    (p ∉ visited events → recorded = events ∧ stoppedAt = none) ∧
      (p ∈ visited events → stoppedAt = some p ∧
        ∃ before event after, events = before ++ event :: after ∧ event.decided? = some p ∧
          p ∉ visited before ∧
          recorded = before ++ event :: (willing.openAfter [] before).map .containerEnd) := by
  intro willing events
  have hevents : events = willing.events entity :=
    congrArg Prod.fst (record_of_willing (r := willing) rfl entity)
  have hrun := (records_generate willing p entity).run #[]
  rw [← hevents] at hrun
  dsimp only [record]
  rcases hrun with ⟨hp, hnone, hall⟩ | ⟨cut, hcut, hsome, hall⟩
  · exact ⟨fun _ => ⟨by simpa using hall, hnone⟩, fun hm => absurd hm hp⟩
  · obtain ⟨before, event, after, inner, hsplit, hdecided, hbefore, hopen, rfl⟩ := hcut
    have hinner : willing.openAfter [] before = inner := by rw [hopen, List.append_nil]
    refine ⟨fun hp => absurd ?_ hp, fun _ => ⟨hsome, before, event, after, hsplit, hdecided,
      hbefore, by simpa [hinner] using hall⟩⟩
    rw [hsplit, visited_append, visited_cons, hdecided]
    simp

-- The namespace is ended although its function is refused.
example :
    let scope := { Entity.ofKind (.namespaceScope false) "n" with
      children := [Entity.ofKind (.functionDecl {}) "f"] }
    (Recorder.refusing {} ⟨"f"⟩).record scope =
      ([.containerBegin ⟨"n"⟩, .write (.keyword "namespace"), .write .space,
        .write (.identifier "n"), .write .space, .write (.punctuation "\x7b"), .write .indent,
        .write .lineBreak, .leaf ⟨"f"⟩, .containerEnd ⟨"n"⟩], some ⟨"f"⟩) := by
  decide

end Recorder

end HeaderSynopsis.Output
