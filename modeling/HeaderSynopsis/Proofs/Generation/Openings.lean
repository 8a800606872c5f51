import HeaderSynopsis.Proofs.Generation.Invariants

namespace HeaderSynopsis.Generation

open Declaration Writing

variable {σ : Type} {g : Generator σ} {entity : Entity} {detail : Detail} {s next : σ}
  {I : σ → Prop}

/-- A mere declaration is written in one go. Only a container is ended afterwards. -/
theorem generate_of_declaration (henter : g.enter entity.isContainer entity s = (some detail, next))
    (hwritten : detail ≠ .omitted) (hd : ¬(detail = .definition ∧ entity.isContainer)) :
    generate g entity s =
      let declared := g.writeAll (entity.head ++ entity.declarationEnd ++ entity.lineEnd) next
      ⟨if entity.isContainer then g.leave entity declared else declared, none⟩ := by
  have hw : detail.isWritten = true := Detail.isWritten_iff.mpr hwritten
  rw [generate_eq_scope, scope, henter]
  dsimp only
  rw [generateInside_of_declaration hw hd, hw, Bool.and_true]
  cases entity.isContainer with
  | false => rfl
  | true => rfl

theorem Generator.Keeps.generateAll {P : Write → Prop} (hg : g.Keeps P I) {entities : List Entity}
    (hw : ∀ entity ∈ entities, ∀ e ∈ entity.walk, ∀ w ∈ ownWrites e, P w) (hs : I s) :
    I (Generation.generateAll g entities s).state := by
  induction entities generalizing s with
  | nil => exact hs
  | cons entity rest ih =>
    rw [List.forall_mem_cons] at hw
    rw [Generation.generateAll]
    apply Outcome.andThen_keeps
    · exact hg.generate hw.1 hs
    · intro s' hs'
      exact ih hw.2 hs'

/-- What holds as soon as a definition is opened, and is kept from there on, holds at the end. -/
theorem Generator.Keeps.generate_of_definition (hg : g.Keeps (fun _ => True) I)
    (henter : g.enter entity.isContainer entity s = (some .definition, next))
    (hc : entity.isContainer = true) (hs : I (g.writeAll (entity.head ++ entity.opening) next)) :
    I (Generation.generate g entity s).state := by
  have hall (ws : List Write) : ∀ w ∈ ws, True := fun _ _ => trivial
  have hopened : I (Generation.generateInside g entity .definition next).state := by
    rw [generateInside_of_definition ⟨rfl, hc⟩]
    apply Outcome.andThen_keeps
    · exact hg.generateAll (fun _ _ _ _ _ _ => trivial) hs
    · intro s' hs'
      exact hg.writeAll (hall _) hs'
  rw [generate_eq_scope, Generation.scope, henter]
  dsimp only
  split
  · exact hg.leave entity _ hopened
  · exact hopened

/-- What holds as soon as the head is written, and is kept from there on, holds at the end. -/
theorem Generator.Keeps.generate_of_written (hg : g.Keeps (fun _ => True) I)
    (henter : g.enter entity.isContainer entity s = (some detail, next))
    (hwritten : detail ≠ .omitted) (hs : I (g.writeAll entity.head next)) :
    I (Generation.generate g entity s).state := by
  have hall (ws : List Write) : ∀ w ∈ ws, True := fun _ _ => trivial
  by_cases hd : detail = .definition ∧ entity.isContainer
  · obtain ⟨rfl, hc⟩ := hd
    apply hg.generate_of_definition henter hc
    rw [g.writeAll_append]
    exact hg.writeAll (hall _) hs
  · have hdeclared :
        I (g.writeAll (entity.head ++ entity.declarationEnd ++ entity.lineEnd) next) := by
      rw [List.append_assoc, g.writeAll_append]
      exact hg.writeAll (hall _) hs
    rw [generate_of_declaration henter hwritten hd]
    dsimp only
    split
    · exact hg.leave entity _ hdeclared
    · exact hdeclared

-- The same for the log of a generation.

theorem log_writeAll (ws : List Write) (s : σ × List Write) :
    (g.logged.writeAll ws s).2 = s.2 ++ ws := by
  rw [← g.logged.attendAll_map_write, attendAll_logged, writesOf_map_write]

theorem enter_logged (henter : (g.enter entity.isContainer entity s).1 = some detail) :
    ∃ next, g.logged.enter entity.isContainer entity (s, []) = (some detail, next, []) := by
  refine ⟨(g.enter entity.isContainer entity s).2, ?_⟩
  rw [← henter]
  rfl

theorem writesTaken_of_declaration (henter : (g.enter entity.isContainer entity s).1 = some detail)
    (hwritten : detail ≠ .omitted) (hd : ¬(detail = .definition ∧ entity.isContainer)) :
    writesTaken g entity s = entity.head ++ entity.declarationEnd ++ entity.lineEnd := by
  obtain ⟨next, hnext⟩ := enter_logged henter
  have hlog : (g.logged.writeAll (entity.head ++ entity.declarationEnd ++ entity.lineEnd)
      (next, [])).2 = entity.head ++ entity.declarationEnd ++ entity.lineEnd := log_writeAll _ _
  rw [writesTaken, generate_of_declaration hnext hwritten hd]
  cases entity.isContainer with
  | false => exact hlog
  | true => exact hlog

/-- Whatever else is written, the head comes first. -/
theorem head_prefix_writesTaken (henter : (g.enter entity.isContainer entity s).1 = some detail)
    (hwritten : detail ≠ .omitted) : entity.head <+: writesTaken g entity s := by
  obtain ⟨next, hnext⟩ := enter_logged henter
  have hkeeps : g.logged.Keeps (fun _ => True) fun s => entity.head <+: s.2 := by
    refine ⟨fun _ _ _ h => h, fun _ _ h => h, ?_⟩
    intro w s _ h
    exact h.trans (List.prefix_append _ _)
  apply hkeeps.generate_of_written hnext hwritten
  rw [log_writeAll]
  exact List.prefix_refl _

end HeaderSynopsis.Generation
