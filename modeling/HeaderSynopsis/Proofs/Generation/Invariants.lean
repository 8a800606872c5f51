import HeaderSynopsis.Proofs.Generation.Trace
import HeaderSynopsis.Proofs.Generation.Unfolding

namespace HeaderSynopsis.Generation

open Declaration Writing

variable {σ : Type} {g : Generator σ} {P : Write → Prop} {I : σ → Prop} {entity : Entity}

def ownWrites (entity : Entity) : List Write :=
  entity.head ++ entity.opening ++ entity.closing ++ entity.declarationEnd ++ entity.lineEnd

theorem mem_ownWrites {w : Write} :
    w ∈ ownWrites entity ↔
      w ∈ entity.head ∨ w ∈ entity.opening ∨ w ∈ entity.closing ∨ w ∈ entity.declarationEnd ∨
        w ∈ entity.lineEnd := by
  simp only [ownWrites, List.mem_append, or_assoc]

/-- Whatever is written of a tree is one of the steps that some entity in it is written with. -/
theorem exists_ownWrites_of_mem_written {decide : Entity → Detail} {w : Write}
    (hw : w ∈ written decide entity) : ∃ e ∈ entity.walk, w ∈ ownWrites e := by
  induction entity using decision_induction decide with
  | omitted entity ho =>
    rw [written_of_omitted ho] at hw
    exact absurd hw List.not_mem_nil
  | definition entity hd hc ih =>
    simp only [written_of_definition hd hc, List.mem_append] at hw
    rcases hw with ((hhead | hopening) | hchild) | hclosing | hline
    · exact ⟨entity, entity.self_mem_walk, mem_ownWrites.mpr (by simp [hhead])⟩
    · exact ⟨entity, entity.self_mem_walk, mem_ownWrites.mpr (by simp [hopening])⟩
    · obtain ⟨child, hc, hm⟩ := List.mem_flatMap.mp hchild
      obtain ⟨e, he, hown⟩ := ih child hc hm
      exact ⟨e, Entity.mem_walk_of_child hc he, hown⟩
    · exact ⟨entity, entity.self_mem_walk, mem_ownWrites.mpr (by simp [hclosing])⟩
    · exact ⟨entity, entity.self_mem_walk, mem_ownWrites.mpr (by simp [hline])⟩
  | declaration entity ho hd =>
    simp only [written_of_declaration ho hd, List.mem_append] at hw
    refine ⟨entity, entity.self_mem_walk, mem_ownWrites.mpr ?_⟩
    rcases hw with (hhead | hend) | hline
    · exact Or.inl hhead
    · simp [hend]
    · simp [hline]

/-- Whether a generator keeps `I` in its states while the steps of writing satisfy `P`. -/
structure Generator.Keeps (g : Generator σ) (P : Write → Prop) (I : σ → Prop) : Prop where
  enter : ∀ container entity s, I s → I (g.enter container entity s).2
  leave : ∀ entity s, I s → I (g.leave entity s)
  write : ∀ w s, P w → I s → I (g.write w s)

theorem Outcome.andThen_keeps {o : Outcome σ} {next : σ → Outcome σ} (ho : I o.state)
    (hnext : ∀ s, I s → I (next s).state) : I (o.andThen next).state := by
  unfold andThen
  split
  · exact hnext _ ho
  · exact ho

namespace Generator.Keeps

theorem writeAll (hg : g.Keeps P I) {ws : List Write} (hws : ∀ w ∈ ws, P w) {s : σ} (hs : I s) :
    I (g.writeAll ws s) := by
  induction ws generalizing s with
  | nil => exact hs
  | cons w ws ih =>
    rw [List.forall_mem_cons] at hws
    exact ih hws.2 (hg.write w s hws.1 hs)

theorem scope (hg : g.Keeps P I) {inside : Detail → σ → Outcome σ} (container : Bool)
    (hinside : ∀ detail s, I s → I (inside detail s).state) {s : σ} (hs : I s) :
    I (Generation.scope g container entity inside s).state := by
  have hentered := hg.enter container entity s hs
  unfold Generation.scope
  split
  · rename_i heq
    rwa [heq] at hentered
  · rename_i detail next heq
    rw [heq] at hentered
    have hin := hinside detail next hentered
    dsimp only
    split
    · exact hg.leave entity _ hin
    · exact hin

theorem generateInside (hg : g.Keeps P I) (hw : ∀ w ∈ ownWrites entity, P w)
    (hchildren : ∀ s, I s → I (generateAll g entity.children s).state) (detail : Detail) {s : σ}
    (hs : I s) : I (Generation.generateInside g entity detail s).state := by
  simp only [ownWrites, List.forall_mem_append] at hw
  obtain ⟨⟨⟨⟨hhead, hopening⟩, hclosing⟩, hend⟩, hline⟩ := hw
  unfold Generation.generateInside
  split
  · split
    · have hopened := hg.writeAll (List.forall_mem_append.mpr ⟨hhead, hopening⟩) hs
      exact Outcome.andThen_keeps (hchildren _ hopened) fun s' hs' =>
        hg.writeAll (List.forall_mem_append.mpr ⟨hclosing, hline⟩) hs'
    · have hdeclared : ∀ w ∈ entity.head ++ entity.declarationEnd ++ entity.lineEnd, P w := by
        simp only [List.forall_mem_append]
        exact ⟨⟨hhead, hend⟩, hline⟩
      exact hg.writeAll hdeclared hs
  · exact hs

/-- A generation keeps what the steps of all entities of the tree keep. -/
theorem generate (hg : g.Keeps P I) (hw : ∀ e ∈ entity.walk, ∀ w ∈ ownWrites e, P w) {s : σ}
    (hs : I s) : I (Generation.generate g entity s).state := by
  induction entity using Entity.tree_induction generalizing s with
  | node entity ih =>
    have hall : ∀ s, I s → I (generateAll g entity.children s).state := by
      have hbelow : ∀ child ∈ entity.children, ∀ s, I s → I (Generation.generate g child s).state :=
        fun child hc s => ih child hc fun e he => hw e (Entity.mem_walk_of_child hc he)
      generalize entity.children = children at hbelow
      induction children with
      | nil => exact fun s hs => hs
      | cons child rest ihrest =>
        rw [List.forall_mem_cons] at hbelow
        exact fun s hs => Outcome.andThen_keeps (hbelow.1 s hs) (ihrest hbelow.2)
    rw [generate_eq_scope]
    exact hg.scope _ (fun detail s => hg.generateInside (hw entity entity.self_mem_walk) hall detail)
      hs

end Generator.Keeps

def Generator.logged (g : Generator σ) : Generator (σ × List Write) where
  enter container entity s :=
    let (decision, next) := g.enter container entity s.1
    (decision, next, s.2)
  leave entity s := (g.leave entity s.1, s.2)
  write w s := (g.write w s.1, s.2 ++ [w])

def writesTaken (g : Generator σ) (entity : Entity) (s : σ) : List Write :=
  (generate g.logged entity (s, [])).state.2

/-- All steps of writing are those that some entity of the tree may be written with. -/
theorem forall_mem_writesTaken (hw : ∀ e ∈ entity.walk, ∀ w ∈ ownWrites e, P w) (g : Generator σ)
    (s : σ) : ∀ w ∈ writesTaken g entity s, P w := by
  have hlog : g.logged.Keeps P fun s => ∀ w ∈ s.2, P w := by
    refine ⟨fun _ _ _ h => h, fun _ _ h => h, fun w s hp h => ?_⟩
    exact List.forall_mem_append.mpr ⟨h, List.forall_mem_singleton.mpr hp⟩
  exact hlog.generate hw fun _ h => absurd h List.not_mem_nil

theorem Generator.Decides.logged {decide : Entity → Detail} (hg : g.Decides decide) :
    g.logged.Decides decide :=
  fun container entity s => hg container entity s.1

theorem attendAll_logged (g : Generator σ) (shown : List Showing) (s : σ × List Write) :
    (g.logged.attendAll shown s).2 = s.2 ++ writesOf shown := by
  induction shown generalizing s with
  | nil => exact (List.append_nil _).symm
  | cons o rest ih =>
    rw [Generator.attendAll_cons, ih]
    cases o with
    | enter container entity => rfl
    | leave entity => rfl
    | write w => exact List.append_assoc _ _ _

/-- A generator with decisions of its own is shown what these decisions let through. -/
theorem Generator.Decides.writesTaken_eq {decide : Entity → Detail} (hg : g.Decides decide)
    (entity : Entity) (s : σ) : writesTaken g entity s = written decide entity := by
  rw [writesTaken, hg.logged.generate_eq]
  exact attendAll_logged g _ _

end HeaderSynopsis.Generation
