import HeaderSynopsis.Proofs.Generation.Attribution
import HeaderSynopsis.Proofs.Generation.Invariants

/-!
The course of a generation whose decisions may depend on anything the generator has seen: everything
that it is shown, each thing beside the position of the entity that it is shown for. What is shown
for an entity and everything below it is the course of a generation of that entity by itself, from
the state that the generator is in by then.
-/

namespace HeaderSynopsis.Generation

open Declaration Writing

variable {σ : Type} (g : Generator σ)

def Generator.listing (g : Generator σ) : Generator (σ × List Showing) where
  enter container entity s :=
    let (decision, next) := g.enter container entity s.1
    (decision, next, s.2 ++ [.enter container entity])
  leave entity s := (g.leave entity s.1, s.2 ++ [.leave entity])
  write w s := (g.write w s.1, s.2 ++ [.write w])

/-- What is shown of an entity between its decision and its end. `inner` is shown of its children,
and the rest only if the generation does not stop at one of these. -/
def courseInside (detail : Detail) (entity : Entity) (inner : Located Showing) (finished : Bool) :
    Located Showing :=
  if detail = .definition ∧ entity.isContainer then
    here (entity.head ++ entity.opening) ++ inner ++
      if finished then here (entity.closing ++ entity.lineEnd) else []
  else here (entity.head ++ entity.declarationEnd ++ entity.lineEnd)

theorem courseInside_of_definition {detail : Detail} {entity : Entity}
    (hd : detail = .definition ∧ entity.isContainer) (inner : Located Showing) (finished : Bool) :
    courseInside detail entity inner finished =
      here (entity.head ++ entity.opening) ++ inner ++
        if finished then here (entity.closing ++ entity.lineEnd) else [] := if_pos hd

theorem courseInside_of_declaration {detail : Detail} {entity : Entity}
    (hd : ¬(detail = .definition ∧ entity.isContainer)) (inner : Located Showing)
    (finished : Bool) :
    courseInside detail entity inner finished =
      here (entity.head ++ entity.declarationEnd ++ entity.lineEnd) := if_neg hd

mutual

def course (g : Generator σ) : Entity → σ → Located Showing
  | entity@⟨_, _, _, _, _, children⟩, s =>
      ([], .enter entity.isContainer entity) ::
        match g.enter entity.isContainer entity s with
        | (none, _) => []
        | (some detail, s) =>
            if detail.isWritten then
              let s := g.writeAll (entity.head ++ entity.opening) s
              courseInside detail entity (courseAll g 0 children s)
                  (generateAll g children s).stoppedAt.isNone ++
                if entity.isContainer then [([], .leave entity)] else []
            else []

def courseAll (g : Generator σ) (index : Nat) : List Entity → σ → Located Showing
  | [], _ => []
  | child :: rest, s =>
      (course g child s).below [index] ++
        match generate g child s with
        | ⟨s, none⟩ => courseAll g (index + 1) rest s
        | ⟨_, some _⟩ => []

end

theorem course_eq (entity : Entity) (s : σ) :
    course g entity s =
      ([], .enter entity.isContainer entity) ::
        match g.enter entity.isContainer entity s with
        | (none, _) => []
        | (some detail, s) =>
            if detail.isWritten then
              let s := g.writeAll (entity.head ++ entity.opening) s
              courseInside detail entity (courseAll g 0 entity.children s)
                  (generateAll g entity.children s).stoppedAt.isNone ++
                if entity.isContainer then [([], .leave entity)] else []
            else [] := by
  cases entity
  rw [course]

theorem courseAll_cons (index : Nat) (child : Entity) (rest : List Entity) (s : σ) :
    courseAll g index (child :: rest) s =
      (course g child s).below [index] ++
        if (generate g child s).stoppedAt = none then
          courseAll g (index + 1) rest (generate g child s).state
        else [] := by
  rw [courseAll]
  obtain ⟨next, stop⟩ := generate g child s
  cases stop <;> rfl

theorem stoppedAt_generateAll_cons (child : Entity) (rest : List Entity) (s : σ) :
    (generateAll g (child :: rest) s).stoppedAt = none ↔
      (generate g child s).stoppedAt = none ∧
        (generateAll g rest (generate g child s).state).stoppedAt = none := by
  rw [generateAll]
  obtain ⟨next, stop⟩ := generate g child s
  cases stop <;> simp [Outcome.andThen]

/-- What is shown of an entity: nothing behind its decision, its declaration, or its definition with
its children, of which there is only a part if the generation stops at one of them. -/
theorem course_cases (entity : Entity) (s : σ) :
    course g entity s = [([], .enter entity.isContainer entity)] ∨
    course g entity s = ([], .enter entity.isContainer entity) ::
      (here (entity.head ++ entity.declarationEnd ++ entity.lineEnd) ++
        if entity.isContainer then [([], .leave entity)] else []) ∨
    ∃ s', entity.isContainer = true ∧
      (generate g entity s).stoppedAt = (generateAll g entity.children s').stoppedAt ∧
      course g entity s = ([], .enter entity.isContainer entity) ::
        (here (entity.head ++ entity.opening) ++ courseAll g 0 entity.children s' ++
          (if (generateAll g entity.children s').stoppedAt = none then
            here (entity.closing ++ entity.lineEnd) else []) ++ [([], .leave entity)]) := by
  rw [course_eq, generate_eq_scope, scope]
  obtain ⟨decision, next⟩ := g.enter entity.isContainer entity s
  cases decision with
  | none => exact Or.inl rfl
  | some detail =>
    dsimp only
    by_cases hw : detail.isWritten = true
    · rw [if_pos hw]
      by_cases hd : detail = .definition ∧ entity.isContainer
      · -- The generation of a definition stops exactly if that of its children does.
        refine Or.inr (Or.inr ⟨g.writeAll (entity.head ++ entity.opening) next, hd.2, ?_, ?_⟩)
        · rw [generateInside_of_definition hd, if_pos (by rw [hw, hd.2]; rfl)]
          change (Outcome.andThen _ _).stoppedAt = _
          unfold Outcome.andThen
          split
          · rename_i hstop
            exact hstop.symm
          · rfl
        · simp only [courseInside_of_definition hd, if_pos hd.2, Option.isNone_iff_eq_none]
      · refine Or.inr (Or.inl ?_)
        rw [courseInside_of_declaration hd]
    · rw [if_neg hw]
      exact Or.inl rfl

-- The steps of writing in a course.

def Located.writes (shown : Located Showing) : List Write := writesOf (shown.map Prod.snd)

theorem Located.writes_append (shown later : Located Showing) :
    Located.writes (shown ++ later) = shown.writes ++ later.writes := by
  rw [writes, List.map_append, writesOf_append]
  rfl

theorem Located.writes_below (shown : Located Showing) (position : Position) :
    (shown.below position).writes = shown.writes := by
  rw [writes, map_snd_below]
  rfl

theorem writes_here (ws : List Write) : (here ws).writes = ws := by
  rw [Located.writes, map_snd_here, writesOf_map_write]

/-- An entity is written with nothing, with its declaration, or with its definition, of which there
is only a part if the generation stops at one of its children. -/
theorem writes_course_cases (entity : Entity) (s : σ) :
    (course g entity s).writes = [] ∨
    (course g entity s).writes = entity.head ++ entity.declarationEnd ++ entity.lineEnd ∨
    ∃ s', entity.isContainer = true ∧
      (generate g entity s).stoppedAt = (generateAll g entity.children s').stoppedAt ∧
      (course g entity s).writes =
        entity.head ++ entity.opening ++ (courseAll g 0 entity.children s').writes ++
          if (generateAll g entity.children s').stoppedAt = none then
            entity.closing ++ entity.lineEnd else [] := by
  have henter (later : Located Showing) :
      Located.writes (([], .enter entity.isContainer entity) :: later) = later.writes := rfl
  have hleave : Located.writes [([], .leave entity)] = [] := rfl
  rcases course_cases g entity s with h | h | ⟨s', hc, hstop, h⟩
  · exact Or.inl (by rw [h]; rfl)
  · refine Or.inr (Or.inl ?_)
    rw [h, henter, Located.writes_append, writes_here]
    split
    · rw [hleave, List.append_nil]
    · exact List.append_nil _
  · refine Or.inr (Or.inr ⟨s', hc, hstop, ?_⟩)
    rw [h, henter, Located.writes_append, Located.writes_append, Located.writes_append, writes_here,
      hleave, List.append_nil]
    split
    · rw [writes_here]
    · rfl

theorem writes_courseAll_cons (index : Nat) (child : Entity) (rest : List Entity) (s : σ) :
    (courseAll g index (child :: rest) s).writes =
      (course g child s).writes ++
        if (generate g child s).stoppedAt = none then
          (courseAll g (index + 1) rest (generate g child s).state).writes
        else [] := by
  rw [courseAll_cons, Located.writes_append, Located.writes_below]
  split <;> rfl

-- The list that a generator keeps of what it is shown is its course.

theorem writeAll_listing (ws : List Write) (s : σ) (shown : List Showing) :
    g.listing.writeAll ws (s, shown) = (g.writeAll ws s, shown ++ ws.map .write) := by
  induction ws generalizing s shown with
  | nil => rw [List.map_nil, List.append_nil, Generator.writeAll_nil, Generator.writeAll_nil]
  | cons w ws ih =>
    rw [Generator.writeAll_cons, Generator.writeAll_cons, List.map_cons,
      List.append_cons shown]
    exact ih _ _

theorem generateAll_listing {children : List Entity} (hc : ∀ child ∈ children, ∀ s shown,
      generate g.listing child (s, shown) =
        ⟨((generate g child s).state, shown ++ (course g child s).map Prod.snd),
          (generate g child s).stoppedAt⟩)
    (index : Nat) (s : σ) (shown : List Showing) :
    generateAll g.listing children (s, shown) =
      ⟨((generateAll g children s).state, shown ++ (courseAll g index children s).map Prod.snd),
        (generateAll g children s).stoppedAt⟩ := by
  induction children generalizing index s shown with
  | nil =>
    rw [courseAll, List.map_nil, List.append_nil]
    rfl
  | cons child rest ih =>
    have hrest := ih fun c hm => hc c (List.mem_cons_of_mem _ hm)
    rw [generateAll, generateAll, courseAll_cons, hc child List.mem_cons_self, List.map_append,
      Located.map_snd_below, ← List.append_assoc]
    obtain ⟨next, stop⟩ := generate g child s
    cases stop with
    | none => exact hrest (index + 1) next _
    | some id =>
      rw [if_neg (by simp), List.map_nil, List.append_nil]
      rfl

/-- A generation lists its course and is not changed by that. -/
theorem generate_listing (entity : Entity) (s : σ) (shown : List Showing) :
    generate g.listing entity (s, shown) =
      ⟨((generate g entity s).state, shown ++ (course g entity s).map Prod.snd),
        (generate g entity s).stoppedAt⟩ := by
  induction entity using Entity.tree_induction generalizing s shown with
  | node entity ih =>
    have hall := generateAll_listing g ih 0
    have henter : g.listing.enter entity.isContainer entity (s, shown) =
        ((g.enter entity.isContainer entity s).1, (g.enter entity.isContainer entity s).2,
          shown ++ [.enter entity.isContainer entity]) := rfl
    have hleave (s : σ) (shown : List Showing) :
        g.listing.leave entity (s, shown) = (g.leave entity s, shown ++ [.leave entity]) := rfl
    -- Both runs ask the same generator, so they part on the same decisions.
    rw [generate_eq_scope, generate_eq_scope, course_eq, scope, scope, henter]
    obtain ⟨decision, next⟩ := g.enter entity.isContainer entity s
    cases decision with
    | none => rfl
    | some detail =>
      dsimp only
      by_cases hd : detail = .definition ∧ entity.isContainer
      · have hw : detail.isWritten = true := by
          rw [hd.1]
          rfl
        simp only [generateInside_of_definition hd, writeAll_listing, hall, hw, hd.2,
          courseInside_of_definition hd, Bool.and_self, if_true, Outcome.andThen]
        obtain ⟨inner, stop⟩ :=
          generateAll g entity.children (g.writeAll (entity.head ++ entity.opening) next)
        cases stop with
        | none => simp [Outcome.afterwards, hleave, here, Function.comp_def]
        | some id => simp [Outcome.afterwards, hleave, here, Function.comp_def]
      · cases hw : detail.isWritten with
        | false => simp [generateInside_of_omitted hw]
        | true =>
          simp only [generateInside_of_declaration hw hd, writeAll_listing,
            courseInside_of_declaration hd, Bool.and_true, if_true]
          cases entity.isContainer with
          | false => simp [here, Function.comp_def]
          | true => simp [Outcome.afterwards, hleave, here, Function.comp_def]

-- The generation of an entity below is a generation by itself.

structure Generates (root : Entity) (s : σ) (position : Position) (entity : Entity) (s' : σ) :
    Prop where
  leads : root.descendant? position = some entity
  within_eq : (course g root s).within position = (course g entity s').below position
  contiguous : (course g entity s').below position <:+: course g root s
  finishes : (generate g root s).stoppedAt = none → (generate g entity s').stoppedAt = none

theorem within_courseAll_of_lt (children : List Entity) {index other : Nat} (h : other < index)
    (rest : Position) (s : σ) : (courseAll g index children s).within (other :: rest) = [] := by
  induction children generalizing index s with
  | nil => rfl
  | cons child later ih =>
    rw [courseAll_cons, Located.within_append, Located.within_below, if_neg (Nat.ne_of_lt h),
      List.nil_append]
    split
    · exact ih (Nat.lt_succ_of_lt h) _
    · rfl

/-- At a position among several children nothing is shown, or what is shown of the child that it
leads to. -/
theorem within_courseAll (children : List Entity) (index k : Nat) (rest : Position) (s : σ) :
    (courseAll g index children s).within ((index + k) :: rest) = [] ∨
      ∃ child s', children[k]? = some child ∧
        (courseAll g index children s).within ((index + k) :: rest) =
          ((course g child s').within rest).below [index + k] ∧
        (course g child s').below [index + k] <:+: courseAll g index children s ∧
        ((generateAll g children s).stoppedAt = none →
          (generate g child s').stoppedAt = none) := by
  induction children generalizing index k s with
  | nil => exact Or.inl rfl
  | cons child later ih =>
    have hstop := stoppedAt_generateAll_cons g child later s
    rw [courseAll_cons, Located.within_append, Located.within_below]
    cases k with
    | zero =>
      refine Or.inr ⟨child, s, rfl, ?_, List.infix_append' [] _ _, fun h => (hstop.mp h).1⟩
      rw [Nat.add_zero, if_pos rfl]
      split
      · rw [within_courseAll_of_lt g later (Nat.lt_succ_self index), List.append_nil]
      · exact List.append_nil _
    | succ k =>
      have hk : index + (k + 1) = index + 1 + k := by omega
      have hne : ¬index + 1 + k = index := by omega
      rw [hk, if_neg hne, List.nil_append]
      split
      · rcases ih (index + 1) k (generate g child s).state with hnone | ⟨deeper, s', h⟩
        · exact Or.inl hnone
        · obtain ⟨hchild, hwithin, hpart, hfinish⟩ := h
          exact Or.inr ⟨deeper, s', hchild, hwithin, hpart.trans (List.suffix_append _ _).isInfix,
            fun h => hfinish (hstop.mp h).2⟩
      · exact Or.inl rfl

/-- What is shown below an entity is shown of its children. -/
theorem within_course_cons (entity : Entity) (index : Nat) (rest : Position) (s : σ) :
    (course g entity s).within (index :: rest) = [] ∨
      ∃ child s', entity.children[index]? = some child ∧
        (course g entity s).within (index :: rest) =
          ((course g child s').within rest).below [index] ∧
        (course g child s').below [index] <:+: course g entity s ∧
        ((generate g entity s).stoppedAt = none → (generate g child s').stoppedAt = none) := by
  have hown (showing : Showing) (later : Located Showing) :
      Located.within (([], showing) :: later) (index :: rest) = later.within (index :: rest) := by
    simp [Located.within]
  have hclosing (finished : Prop) [Decidable finished] (ws : List Write) :
      Located.within (if finished then here ws else []) (index :: rest) = [] := by
    split
    · exact within_here_cons ws index rest
    · rfl
  -- Only a defined container goes on to its children.
  rcases course_cases g entity s with h | h | ⟨s', hc, hstop, h⟩
  · exact Or.inl (by rw [h, hown]; rfl)
  · refine Or.inl ?_
    rw [h, hown, Located.within_append, within_here_cons, List.nil_append]
    split
    · rw [hown]
      rfl
    · rfl
  · have hwithin : (course g entity s).within (index :: rest) =
        (courseAll g 0 entity.children s').within (index :: rest) := by
      rw [h, hown]
      simp only [Located.within_append, within_here_cons, hclosing, List.nil_append, hown,
        List.append_nil]
      exact List.append_nil _
    have hpart : courseAll g 0 entity.children s' <:+: course g entity s := by
      rw [h, List.append_assoc _ _ [_]]
      exact List.infix_cons (List.infix_append _ _ _)
    have hall := within_courseAll g entity.children 0 index rest s'
    rw [Nat.zero_add] at hall
    rw [hwithin, hstop]
    rcases hall with hnone | ⟨child, s'', hchild, heq, hinfix, hfinish⟩
    · exact Or.inl hnone
    · exact Or.inr ⟨child, s'', hchild, heq, hinfix.trans hpart, hfinish⟩

/-- What is shown at a position is nothing or a whole course. -/
theorem within_course (root : Entity) (position : Position) (s : σ) :
    (course g root s).within position = [] ∨
      ∃ entity s', Generates g root s position entity s' := by
  induction position generalizing root s with
  | nil =>
    refine Or.inr ⟨root, s, rfl, ?_, ?_, id⟩
    · rw [Located.within_nil, Located.below_nil]
    · simp
  | cons index rest ih =>
    rcases within_course_cons g root index rest s with h | ⟨child, s', hchild, heq, hpart, hstop⟩
    · exact Or.inl h
    rcases ih child s' with h | ⟨entity, s'', h⟩
    · exact Or.inl (by rw [heq, h]; rfl)
    · have hbelow : ((course g entity s'').below rest).below [index] =
          (course g entity s'').below (index :: rest) := Located.below_below _ _ _
      refine Or.inr ⟨entity, s'', ?_, ?_, ?_, fun hn => h.finishes (hstop hn)⟩
      · rw [Entity.descendant?_cons, hchild, Option.bind_some, h.leads]
      · rw [heq, h.within_eq, hbelow]
      · rw [← hbelow]
        exact (h.contiguous.map _).trans hpart

theorem ne_nil_of_mem_courseAll (children : List Entity) (index : Nat) (s : σ)
    {thing : Position × Showing} (h : thing ∈ courseAll g index children s) : thing.1 ≠ [] := by
  induction children generalizing index s with
  | nil => exact absurd h List.not_mem_nil
  | cons child rest ih =>
    rw [courseAll_cons, List.mem_append] at h
    rcases h with hchild | hrest
    · obtain ⟨inner, -, rfl⟩ := List.mem_map.mp hchild
      exact List.cons_ne_nil _ _
    · split at hrest
      · exact ih _ _ hrest
      · exact absurd hrest List.not_mem_nil

/-- A step for the entity itself is one of those that it may be written with. -/
theorem mem_ownWrites_of_mem_course {entity : Entity} {s : σ} {w : Write}
    (h : ([], .write w) ∈ course g entity s) : w ∈ ownWrites entity := by
  have hhere {ws : List Write} (hw : ([], .write w) ∈ here ws) : w ∈ ws := by
    simpa [here] using hw
  unfold ownWrites
  rcases course_cases g entity s with heq | heq | ⟨s', -, -, heq⟩
  · simp [heq] at h
  · have hw : ([], .write w) ∈ here (entity.head ++ entity.declarationEnd ++ entity.lineEnd) := by
      cases hc : entity.isContainer <;> simpa [heq, hc] using h
    have hmem := hhere hw
    simp only [List.mem_append] at hmem ⊢
    tauto
  · have hw : ([], .write w) ∈ here (entity.head ++ entity.opening) ∨
        ([], .write w) ∈ here (entity.closing ++ entity.lineEnd) := by
      rw [heq] at h
      simp only [List.mem_cons, List.mem_append] at h
      rcases h with henter | ((hopen | hinner) | hclose) | hleave
      · exact absurd henter (by simp)
      · exact Or.inl hopen
      · exact absurd rfl (ne_nil_of_mem_courseAll g _ _ _ hinner)
      · split at hclose
        · exact Or.inr hclose
        · exact absurd hclose List.not_mem_nil
      · exact absurd hleave (by simp)
    have hmem := hw.imp hhere hhere
    simp only [List.mem_append] at hmem ⊢
    tauto

/-- A step at a position is one that the entity there may be written with. -/
theorem mem_course {root : Entity} {s : σ} {position : Position} {w : Write}
    (h : (position, .write w) ∈ course g root s) :
    ∃ entity, root.descendant? position = some entity ∧ w ∈ ownWrites entity := by
  have hwithin : (position, .write w) ∈ (course g root s).within position := by
    simp [Located.within, h]
  rcases within_course g root position s with hnone | ⟨entity, s', hgenerates⟩
  · rw [hnone] at hwithin
    exact absurd hwithin List.not_mem_nil
  · rw [hgenerates.within_eq] at hwithin
    obtain ⟨⟨inner, shown⟩, hm, heq⟩ := List.mem_map.mp hwithin
    obtain ⟨hposition, rfl⟩ := Prod.mk.inj heq
    obtain rfl := List.append_right_eq_self.mp hposition
    exact ⟨entity, hgenerates.leads, mem_ownWrites_of_mem_course g hm⟩

end HeaderSynopsis.Generation
