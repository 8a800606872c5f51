import HeaderSynopsis.Output.Layout
import HeaderSynopsis.Proofs.Generation.Course
import HeaderSynopsis.Proofs.Writing.Pairs

namespace HeaderSynopsis.Writing

open Declaration Generation

/-- The brackets still to be closed after one more character, the most recent first. Only the most
recent one can be closed. -/
def bracketStep (pending : List Char) (c : Char) : Option (List Char) :=
  match brackets.lookup c with
  | some closer => some (closer :: pending)
  | none =>
      if isBracket c then
        if pending.head? = some c then some pending.tail else none
      else some pending

def unclosed (texts : List String) (pending : List Char) : Option (List Char) :=
  (texts.flatMap String.toList).foldlM bracketStep pending

/-- Every bracket that is closed is the most recent one, and all of them are closed. -/
def WellBracketed (texts : List String) : Prop := unclosed texts [] = some []

instance (texts : List String) : Decidable (WellBracketed texts) :=
  inferInstanceAs (Decidable (_ = _))

def Write.punctuation? : Write → Option String
  | .token .punctuation text => some text
  | _ => none

def punctuations (ws : List Write) : List String := ws.filterMap Write.punctuation?

theorem punctuations_append (ws vs : List Write) :
    punctuations (ws ++ vs) = punctuations ws ++ punctuations vs := List.filterMap_append

theorem unclosed_append (texts later : List String) (pending : List Char) :
    unclosed (texts ++ later) pending = (unclosed texts pending).bind (unclosed later) := by
  rw [unclosed, List.flatMap_append, List.foldlM_append]
  rfl

/-- What is no bracket leaves everything as it is. -/
theorem bracketStep_of_not_isBracket {c : Char} (h : isBracket c = false) (pending : List Char) :
    bracketStep pending c = some pending := by
  have hlookup : brackets.lookup c = none := by
    rw [List.lookup_eq_none_iff]
    intro pair hpair
    have hother := List.any_eq_false.mp h pair hpair
    simp_all
  rw [bracketStep, hlookup, h]
  rfl

theorem unclosed_of_no_brackets {text : String} (h : text.toList.all (fun c => !isBracket c) = true)
    (pending : List Char) : unclosed [text] pending = some pending := by
  rw [unclosed, List.flatMap_singleton]
  generalize text.toList = cs at h
  induction cs with
  | nil => rfl
  | cons c rest ih =>
    rw [List.all_cons, Bool.and_eq_true, Bool.not_eq_true'] at h
    rw [List.foldlM_cons, bracketStep_of_not_isBracket h.1]
    exact ih h.2

/-- The opener waits for its closer on top of everything that waited before. -/
theorem unclosed_pair {opener closer : Char} (h : (opener, closer) ∈ brackets)
    (pending : List Char) :
    unclosed [String.singleton opener] pending = some (closer :: pending) ∧
      unclosed [String.singleton closer] (closer :: pending) = some pending := by
  have hkinds : brackets.lookup opener = some closer ∧ brackets.lookup closer = none ∧
      isBracket closer = true := by
    simp only [brackets, List.mem_cons, Prod.mk.injEq, List.not_mem_nil, or_false] at h
    rcases h with ⟨rfl, rfl⟩ | ⟨rfl, rfl⟩ | ⟨rfl, rfl⟩ | ⟨rfl, rfl⟩ <;> exact ⟨rfl, rfl, rfl⟩
  obtain ⟨hopener, hcloser, hbracket⟩ := hkinds
  constructor
  · simp [unclosed, bracketStep, hopener]
  · simp [unclosed, bracketStep, hcloser, hbracket]

/-- Steps that are paired close exactly what they open. -/
theorem Paired.unclosed_eq {inside : Bool} {ws : List Write} (h : Paired inside ws)
    (pending : List Char) : unclosed (punctuations ws) pending = some pending := by
  -- By induction on how the run is paired, over what is pending: a group puts its closing bracket
  -- on top and takes it from there again, and everything else leaves the brackets alone.
  induction h generalizing pending with
  | nil => rfl
  | @plain _ w h =>
    cases w with
    | token kind text =>
      cases kind with
      | punctuation => exact unclosed_of_no_brackets h pending
      | _ => rfl
    | indent => exact absurd h Bool.false_ne_true
    | unindent => exact absurd h Bool.false_ne_true
    | _ => rfl
  | append _ _ ih ih' => rw [punctuations_append, unclosed_append, ih, Option.bind_some, ih']
  | @group _ ws opener closer hpair _ ih =>
    obtain ⟨hopen, hclose⟩ := unclosed_pair hpair pending
    calc unclosed (punctuations ([.punctuation (String.singleton opener)] ++ ws ++
            [.punctuation (String.singleton closer)])) pending
        = unclosed ([String.singleton opener] ++ punctuations ws ++ [String.singleton closer])
            pending := by rw [punctuations_append, punctuations_append]; rfl
      _ = unclosed [String.singleton closer] (closer :: pending) := by
          rw [unclosed_append, unclosed_append, hopen, Option.bind_some, ih, Option.bind_some]
      _ = some pending := hclose
  | @block _ ws _ ih =>
    have hsame : punctuations ([.indent] ++ ws ++ [.unindent]) = punctuations ws := by
      rw [punctuations_append, punctuations_append]
      exact List.append_nil _
    rw [hsame, ih]
  | @label ws _ ih =>
    have hsame : punctuations ([.unindent] ++ ws ++ [.indent]) = punctuations ws := by
      rw [punctuations_append, punctuations_append]
      exact List.append_nil _
    rw [hsame, ih]

theorem Paired.wellBracketed {inside : Bool} {ws : List Write} (h : Paired inside ws) :
    WellBracketed (punctuations ws) := h.unclosed_eq []

end HeaderSynopsis.Writing

namespace HeaderSynopsis.Generation

open Declaration Writing

variable {σ : Type} (g : Generator σ)

def Located.punctuation (shown : Located Showing) : List String := punctuations shown.writes

def Completes (ws : List Write) (stop : Option Id) : Prop :=
  ∃ rest, Paired true (ws ++ rest) ∧ (stop = none → rest = [])

theorem Completes.of_paired {ws : List Write} {stop : Option Id} (h : Paired true ws) :
    Completes ws stop :=
  ⟨[], by rwa [List.append_nil], fun _ => rfl⟩

theorem completes_courseAll {children : List Entity} (hc : ∀ child ∈ children, ∀ s,
      Completes (course g child s).writes (generate g child s).stoppedAt) (index : Nat) (s : σ) :
    Completes (courseAll g index children s).writes (generateAll g children s).stoppedAt := by
  induction children generalizing index s with
  | nil => exact .of_paired .nil
  | cons child later ih =>
    have hlater := ih fun c hm => hc c (List.mem_cons_of_mem _ hm)
    have hfinished := stoppedAt_generateAll_cons g child later s
    obtain ⟨rest, hpaired, hrest⟩ := hc child List.mem_cons_self s
    rw [writes_courseAll_cons]
    by_cases hstop : (generate g child s).stoppedAt = none
    · -- The child is finished, so that what is missing is missing in the later ones.
      obtain rfl := hrest hstop
      obtain ⟨missing, hpaired', hmissing⟩ := hlater (index + 1) (generate g child s).state
      refine ⟨missing, ?_, fun h => hmissing (hfinished.mp h).2⟩
      rw [List.append_nil] at hpaired
      rw [if_pos hstop, List.append_assoc]
      exact hpaired.append hpaired'
    · refine ⟨rest, ?_, fun h => absurd (hfinished.mp h).1 hstop⟩
      rwa [if_neg hstop, List.append_nil]

/-- Whatever is decided, the steps of a course are paired, as far as they go. -/
theorem completes_course (entity : Entity) (s : σ) :
    Completes (course g entity s).writes (generate g entity s).stoppedAt := by
  induction entity using Entity.tree_induction generalizing s with
  | node entity ih =>
    rcases writes_course_cases g entity s with h | h | ⟨s', hc, hstop, h⟩
    · rw [h]
      exact .of_paired .nil
    · rw [h]
      exact .of_paired (paired_declared fun _ => rfl)
    · obtain ⟨rest, hpaired, hrest⟩ := completes_courseAll g ih 0 s'
      have hdefined : Paired true (entity.head ++ entity.opening ++
          ((courseAll g 0 entity.children s').writes ++ rest) ++
            (entity.closing ++ entity.lineEnd)) := paired_defined hc hpaired
      rw [h, hstop]
      by_cases hfinished : (generateAll g entity.children s').stoppedAt = none
      · obtain rfl := hrest hfinished
        refine ⟨[], ?_, fun _ => rfl⟩
        rwa [if_pos hfinished, List.append_nil, ← List.append_nil (courseAll g 0 _ s').writes]
      · -- After the child at which the generation stops, the closing is missing as well.
        refine ⟨rest ++ (entity.closing ++ entity.lineEnd), ?_, fun h => absurd h hfinished⟩
        rw [if_neg hfinished, List.append_nil]
        simpa only [List.append_assoc] using hdefined

/-- A generator is shown its course. At every position the part of it that is shown for the entity
there and for everything below is in one piece, and its brackets are closed as soon as the
generation is finished. Brackets that are open when it stops could still be closed. -/
theorem wellBracketed_course (root : Entity) (s : σ) :
    (generate g.listing root (s, [])).state.2 = (course g root s).map Prod.snd ∧
      ∀ position, (course g root s).within position <:+: course g root s ∧
        (∃ rest, WellBracketed (((course g root s).within position).punctuation ++ rest)) ∧
        ((generate g root s).stoppedAt = none →
          WellBracketed ((course g root s).within position).punctuation) := by
  refine ⟨by rw [generate_listing, List.nil_append], fun position => ?_⟩
  rcases within_course g root position s with h | ⟨entity, s', h⟩
  · rw [h]
    exact ⟨List.nil_infix, ⟨[], rfl⟩, fun _ => rfl⟩
  · obtain ⟨rest, hpaired, hrest⟩ := completes_course g entity s'
    have hpunctuation : ((course g root s).within position).punctuation =
        punctuations (course g entity s').writes := by
      rw [h.within_eq, Located.punctuation, Located.writes_below]
    rw [hpunctuation]
    refine ⟨h.within_eq ▸ h.contiguous, ⟨punctuations rest, ?_⟩, fun hfinished => ?_⟩
    · rw [← punctuations_append]
      exact hpaired.wellBracketed
    · rw [hrest (h.finishes hfinished), List.append_nil] at hpaired
      exact hpaired.wellBracketed

-- A class template with a member function that takes an array.

def gridLookup : FunctionDecl where
  parameters := [⟨some "at", .array (.builtin "int") (some (.literal .int "2")), none, false⟩]
  result := some (.named ⟨[⟨"T"⟩], "T"⟩)

def grid : Entity :=
  { Entity.ofKind (.classType .classKey false [] false) "grid" with
    template := some (.primary [.type "T" .typename false none])
    children :=
      [Entity.ofKind (.accessLabel .publicAccess) "public",
        Entity.ofKind (.functionDecl gridLookup) "lookup"] }

theorem wellBracketed_course_grid :
    (generate Output.bareText grid "").stoppedAt = none ∧
      ((course Output.bareText grid "").within []).punctuation =
        ["<", ">", "\x7b", ":", "(", "[", "]", ")", ";", "\x7d", ";"] ∧
      WellBracketed ((course Output.bareText grid "").within []).punctuation :=
  ⟨rfl, by decide, ((wellBracketed_course Output.bareText grid "").2 []).2.2 rfl⟩

end HeaderSynopsis.Generation
