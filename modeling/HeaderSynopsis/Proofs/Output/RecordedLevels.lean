import HeaderSynopsis.Proofs.Output.Exclusion
import HeaderSynopsis.Proofs.Output.RecordedWrites
import HeaderSynopsis.Proofs.Writing.Depth

namespace HeaderSynopsis.Output

open Declaration Writing Generation

def levelAfter (events : Located Event) : Int := depth (recordedWrites events)

theorem levelAfter_append (events later : Located Event) :
    levelAfter (events ++ later) = levelAfter events + levelAfter later := by
  rw [levelAfter, recordedWrites_append, depth_append]
  rfl

namespace Recorder

def StandsAt (events : Located Event) (position : Position) (decision : Event) (ws : List Write)
    (w : Write) (level : Int) : Prop :=
  ∃ before after,
    events = before ++ (position, decision) :: steps position ws ++ (position, .write w) :: after ∧
    levelAfter (before ++ (position, decision) :: steps position ws) = level

/-- Events of a tree, each with the position of the entity that it belongs to, keep to the levels of
the entities. -/
structure KeepsLevels (r : Recorder) (root : Entity) (events : Located Event) : Prop where
  -- At no point have more steps led outwards than inwards.
  nonneg : ∀ before, before <+: events → 0 ≤ levelAfter before
  -- Every decision is asked for at the level of its entity.
  decision : ∀ before position event after, events = before ++ (position, event) :: after →
    event.decided?.isSome → levelAfter before = root.scopesAround position
  -- The keyword of an access label stands one level further out.
  label : ∀ position entity access, r.Reaches root position entity →
    r.detail entity.id ≠ .omitted → entity.kind = .accessLabel access →
    ∃ ws, entity.head = ws ++ [.keyword access.word, .punctuation ":"] ∧
      StandsAt events position (.leaf entity.id) ws (.keyword access.word)
        (root.scopesAround position - 1)
  -- The statements of a function stand one level further in.
  statement : ∀ position entity function, r.Reaches root position entity →
    r.detail entity.id = .definition → entity.kind = .functionDecl function →
    ∀ ws w later, Entity.statementWrites function.body.lines = ws ++ w :: later →
      StandsAt events position (.containerBegin entity.id) (entity.head ++ Entity.openBrace ++ ws) w
        (root.scopesAround position + 1)
  -- The events of an entity end at the level that they begin at.
  returned : ∀ position entity, r.Reaches root position entity →
    ∃ before after, events = before ++ events.within position ++ after ∧
      levelAfter before = root.scopesAround position ∧
      levelAfter (before ++ events.within position) = root.scopesAround position

variable {r : Recorder} {root entity : Entity} {position : Position}

/-- A step stands as much further in than its entity as the steps before it lead. -/
theorem standsAt_of_within (h : ∀ e ∈ root.walk, e.Orderly)
    (hreaches : r.Reaches root position entity) {decision : Event} (hd : decision.write? = none)
    {all ws later : List Write} {w : Write} {rest : Located Event}
    (hwithin : (r.locatedEvents root).within position =
      (position, decision) :: steps position all ++ rest) (hall : all = ws ++ w :: later) :
    StandsAt (r.locatedEvents root) position decision ws w
      (root.scopesAround position + depth ws) := by
  obtain ⟨before, after, hsplit, hbefore⟩ := locatedEvents_around hreaches
  refine ⟨before, steps position later ++ rest ++ after, ?_, ?_⟩
  · rw [hwithin, hall] at hsplit
    simpa [steps] using hsplit
  · have hown : recordedWrites ((position, decision) :: steps position ws) = ws := by
      rw [← List.singleton_append, recordedWrites_append, recordedWrites_steps]
      simp [recordedWrites, hd]
    rw [levelAfter_append, levelAfter, levelAfter, hbefore, depth_writtenBefore h hreaches, hown]

/-- The steps before the keyword of an access label. -/
theorem head_of_accessLabel {access : Access} (hk : entity.kind = .accessLabel access) :
    ∃ ws, entity.head = ws ++ [.keyword access.word, .punctuation ":"] ∧ depth ws = -1 := by
  have htemplate : Paired false ((entity.template.map TemplateHead.writes).getD []) :=
    .optional paired_templateHead
  refine ⟨(entity.template.map TemplateHead.writes).getD [] ++ [.unindent], ?_, ?_⟩
  · rw [Entity.head, Entity.signature, hk, List.append_assoc]
    rfl
  · rw [depth_append, htemplate.depth_eq]
    rfl

/-- A function with statements is written with them between its braces. -/
theorem opening_of_statements {function : FunctionDecl} (hk : entity.kind = .functionDecl function)
    (hlines : function.body.lines ≠ []) :
    entity.isContainer = true ∧
      entity.opening = Entity.openBrace ++ Entity.statementWrites function.body.lines := by
  have hbody : function.body.isDefinition = true := by
    cases hb : function.body with
    | statements lines => rfl
    | _ => exact absurd (by rw [hb]; rfl) hlines
  constructor
  · rw [Entity.isContainer, hk]
    exact hbody
  · rw [Entity.opening, hk]
    simp [hlines]

theorem keepsLevels_locatedEvents (r : Recorder) (h : ∀ e ∈ root.walk, e.Orderly)
    (hr : root.kind.word ≠ "access") : r.KeepsLevels root (r.locatedEvents root) where
  nonneg before hb := by
    have hall : recordedWrites (r.locatedEvents root) =
        written (fun visited => r.detail visited.id) root := by
      rw [← recordedWrites_within (reaches_nil root), Located.within_nil]
    have hpaired : Paired false (recordedWrites (r.locatedEvents root)) := by
      rw [hall]
      exact paired_written h fun ha => absurd ha hr
    -- A part of the record from its start is a part of a paired run, which never goes below zero.
    exact hpaired.staysAbove _ (hb.filterMap _)
  decision before position event after hsplit hd := by
    obtain ⟨⟨entity, hreaches⟩, hbefore⟩ := split_at_decision hsplit hd
    rw [levelAfter, hbefore, depth_writtenBefore h hreaches]
  label position entity access hreaches hd hk := by
    obtain ⟨ws, hhead, hdepth⟩ := head_of_accessLabel hk
    have hc : entity.isContainer = false := by rw [Entity.isContainer, hk]
    -- A label has nothing inside, so its own steps follow each other in the record.
    have hleaf := (r.protocol_locatedEvents root).leaf position entity hreaches hd hc
    have hall : entity.head ++ entity.declarationEnd ++ entity.lineEnd =
        ws ++ .keyword access.word ::
          (.punctuation ":" :: (entity.declarationEnd ++ entity.lineEnd)) := by
      rw [hhead]
      simp only [List.append_assoc, List.cons_append, List.nil_append]
    have hstands := standsAt_of_within h hreaches rfl (by rw [hleaf, List.append_nil]) hall
    rw [hdepth] at hstands
    exact ⟨ws, hhead, hstands⟩
  statement position entity function hreaches hd hk ws w later hlines := by
    have hne : function.body.lines ≠ [] := by
      intro hnil
      rw [hnil] at hlines
      exact absurd hlines (by simp [Entity.statementWrites])
    obtain ⟨hc, hopening⟩ := opening_of_statements hk hne
    have hdefinition := (r.protocol_locatedEvents root).definition position entity hreaches hd hc
    have hall : entity.head ++ entity.opening =
        entity.head ++ Entity.openBrace ++ ws ++ w :: later := by
      rw [hopening, hlines]
      simp only [List.append_assoc]
    have hdepth : depth (entity.head ++ Entity.openBrace ++ ws) = 1 := by
      have haccess : entity.kind.word ≠ "access" := by simp [hk, EntityKind.word]
      have hhead : Paired false entity.head := paired_head haccess
      have hflat := flat_statementWrites function.body.lines
      rw [hlines, Flat, List.all_append, Bool.and_eq_true] at hflat
      -- The head comes back to where it began, so that only the brace is counted.
      rw [depth_append, depth_append, hhead.depth_eq, depth_of_flat hflat.1]
      rfl
    have hstands := standsAt_of_within h hreaches rfl
      (by rw [hdefinition]; simp only [List.append_assoc, List.cons_append]; rfl) hall
    rwa [hdepth] at hstands
  returned position entity hreaches := by
    obtain ⟨before, after, hsplit, hbefore⟩ := locatedEvents_around hreaches
    have hlevel : levelAfter before = root.scopesAround position := by
      rw [levelAfter, hbefore, depth_writtenBefore h hreaches]
    have hwalk := Entity.mem_walk_of_descendant? hreaches.leads
    have hpaired : Paired true (written (fun visited => r.detail visited.id) entity) :=
      paired_written (fun e he => h e (Entity.walk_subset hwalk he)) fun _ => rfl
    refine ⟨before, after, hsplit, hlevel, ?_⟩
    rw [levelAfter_append, hlevel, levelAfter, recordedWrites_within hreaches, hpaired.depth_eq,
      Int.add_zero]

end Recorder

end HeaderSynopsis.Output

namespace HeaderSynopsis.Manifest.Loaded

open Declaration Writing Generation Output

/-- Whatever a recorder omits or reduces to declarations, its record of a manifest that loads keeps
to the levels of the entities. -/
theorem record_keeps_levels {source : Source} {manifest : Loaded}
    (h : ofSource source = .ok manifest) (omitted declarations : List Id) :
    let r : Recorder := { omitted, declarations }
    r.record manifest.file = ((r.locatedEvents manifest.file).map Prod.snd, none) ∧
      r.KeepsLevels manifest.file (r.locatedEvents manifest.file) := by
  intro r
  have hfile : manifest.file.kind.word ≠ "access" := by
    rw [(loadedTree h).isFile]
    decide
  exact ⟨r.record_eq_locatedEvents rfl manifest.file, r.keepsLevels_locatedEvents (orderly h) hfile⟩

/-- In a class without a namespace the label stands at the outermost level, and the statement of a
member function at the second one. -/
theorem record_keeps_levels_board :
    ofSource boardSource = .ok board ∧
      Recorder.StandsAt (Recorder.locatedEvents {} board.file) [0, 0] (.leaf boardLabel.id)
        [.unindent] (.keyword "public") 0 ∧
      Recorder.StandsAt (Recorder.locatedEvents {} board.file) [0, 1]
        (.containerBegin boardClear.id) (boardClear.head ++ Entity.openBrace)
        (.token .tokenSeq "return;") 2 := by
  obtain ⟨-, hkeeps⟩ := record_keeps_levels ofSource_boardSource [] []
  have hlabel : Recorder.Reaches {} board.file [0, 0] boardLabel := ⟨rfl, by decide⟩
  have hclear : Recorder.Reaches {} board.file [0, 1] boardClear := ⟨rfl, by decide⟩
  obtain ⟨ws, hhead, hstands⟩ := hkeeps.label [0, 0] boardLabel _ hlabel (by decide) rfl
  obtain rfl : ws = [.unindent] := List.append_cancel_right hhead.symm
  refine ⟨ofSource_boardSource, hstands, ?_⟩
  exact hkeeps.statement [0, 1] boardClear _ hclear rfl rfl [] _ [.lineBreak] rfl

end HeaderSynopsis.Manifest.Loaded
