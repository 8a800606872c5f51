import HeaderSynopsis.Proofs.Generation.Visits
import HeaderSynopsis.Proofs.Manifest.LoadedTree
import HeaderSynopsis.Proofs.Output.Layout
import HeaderSynopsis.Proofs.Output.Lexemes
import HeaderSynopsis.Proofs.Output.Rendering
import Mathlib.Data.List.Basic

namespace HeaderSynopsis.Declaration.Entity

open Writing Output

/-- Every entity but a file is marked up by its signature, or else it is no container and its
declaration ends in a semicolon. -/
theorem exists_html {entity : Entity} (h : entity.occupiesLine = true) :
    (∃ w ∈ entity.signature, (html? w).isSome = true) ∨
      entity.isContainer = false ∧ .punctuation ";" ∈ entity.declarationEnd := by
  cases hk : entity.kind with
  | file => exact absurd h (by simp [occupiesLine, hk])
  | inclusion target system =>
    exact Or.inl ⟨.preprocessor "#include", by simp [signature, hk], rfl⟩
  | macroDefinition parameters replacement =>
    exact Or.inl ⟨.preprocessor "#define", by simp [signature, hk], rfl⟩
  | namespaceScope isInline =>
    exact Or.inl ⟨.keyword "namespace", by simp [signature, hk], rfl⟩
  | namespaceAlias target => exact Or.inl ⟨.keyword "namespace", by simp [signature, hk], rfl⟩
  | usingDirective target => exact Or.inl ⟨.keyword "using", by simp [signature, hk], rfl⟩
  | usingDeclaration target => exact Or.inl ⟨.keyword "using", by simp [signature, hk], rfl⟩
  | typeAlias aliased => exact Or.inl ⟨.keyword "using", by simp [signature, hk], rfl⟩
  | enumeration isScoped underlying forward =>
    exact Or.inl ⟨.keyword "enum", by simp [signature, hk], rfl⟩
  | enumerator value => exact Or.inl ⟨.identifier entity.name, by simp [signature, hk], rfl⟩
  | classType keyword isFinal bases forward =>
    exact Or.inl ⟨.keyword keyword.word, by simp [signature, hk], rfl⟩
  | accessLabel access => exact Or.inl ⟨.keyword access.word, by simp [signature, hk], rfl⟩
  | functionDecl function =>
    exact Or.inl ⟨.punctuation "(", by simp [signature, FunctionDecl.writes, hk], rfl⟩
  -- A variable may have a type and a name without any text.
  | variableDecl type default storage isConstexpr =>
    exact Or.inr ⟨by simp [isContainer, hk], by simp [declarationEnd, hk]⟩
  | fieldDecl type default isMutable bits =>
    exact Or.inr ⟨by simp [isContainer, hk], by simp [declarationEnd, hk]⟩

theorem exists_html_of_definition {entity : Entity} (h : entity.occupiesLine = true)
    (hc : entity.isContainer = true) :
    ∃ w ∈ entity.head ++ entity.opening, (html? w).isSome = true := by
  rcases exists_html h with ⟨w, hw, hs⟩ | ⟨hn, -⟩
  · exact ⟨w, List.mem_append_left _ (List.mem_append_right _ hw), hs⟩
  · exact absurd hc (by simp [hn])

theorem exists_html_of_declaration {entity : Entity} (h : entity.occupiesLine = true) :
    ∃ w ∈ entity.head ++ entity.declarationEnd ++ entity.lineEnd, (html? w).isSome = true := by
  rcases exists_html h with ⟨w, hw, hs⟩ | ⟨-, hw⟩
  · exact ⟨w, by simp [head, hw], hs⟩
  · exact ⟨.punctuation ";", by simp [hw], rfl⟩

end HeaderSynopsis.Declaration.Entity

namespace HeaderSynopsis.Output

open Declaration Writing Generation

abbrev AnchoredStep := Option Id × Write

def withAnchor (anchor : Option Id) : List Write → List AnchoredStep
  | [] => []
  | w :: rest =>
      if (html? w).isSome then (anchor, w) :: rest.map (none, ·)
      else (none, w) :: withAnchor anchor rest

def anchor? (entity : Entity) : Option Id :=
  if entity.occupiesLine then some entity.id else none

def anchoredInside (detail : Detail) (entity : Entity) (inner : List AnchoredStep) :
    List AnchoredStep :=
  if detail = .definition ∧ entity.isContainer then
    withAnchor (anchor? entity) (entity.head ++ entity.opening) ++ inner ++
      withAnchor none (entity.closing ++ entity.lineEnd)
  else withAnchor (anchor? entity) (entity.head ++ entity.declarationEnd ++ entity.lineEnd)

mutual

def anchored (decide : Entity → Detail) : Entity → List AnchoredStep
  | entity@⟨_, _, _, _, _, children⟩ =>
      if (decide entity).isWritten then
        anchoredInside (decide entity) entity (anchoredAll decide children)
      else []

def anchoredAll (decide : Entity → Detail) : List Entity → List AnchoredStep
  | [] => []
  | entity :: rest => anchored decide entity ++ anchoredAll decide rest

end

theorem anchoredAll_eq (decide : Entity → Detail) (entities : List Entity) :
    anchoredAll decide entities = entities.flatMap (anchored decide) := by
  induction entities with
  | nil => rfl
  | cons entity rest ih => rw [anchoredAll, ih, List.flatMap_cons]

section

variable {decide : Entity → Detail} {entity : Entity}

theorem anchored_eq (decide : Entity → Detail) (entity : Entity) :
    anchored decide entity =
      if (decide entity).isWritten then
        anchoredInside (decide entity) entity (entity.children.flatMap (anchored decide))
      else [] := by
  cases entity
  rw [anchored, anchoredAll_eq]

theorem anchored_of_omitted (hd : decide entity = .omitted) : anchored decide entity = [] := by
  rw [anchored_eq, hd]
  rfl

theorem anchored_of_definition (hd : decide entity = .definition)
    (hc : entity.isContainer = true) :
    anchored decide entity =
      withAnchor (anchor? entity) (entity.head ++ entity.opening) ++
        entity.children.flatMap (anchored decide) ++
        withAnchor none (entity.closing ++ entity.lineEnd) := by
  have hw : Detail.isWritten .definition = true := rfl
  rw [anchored_eq, hd, if_pos hw, anchoredInside, if_pos ⟨rfl, hc⟩]

theorem anchored_of_declaration (hd : decide entity ≠ .omitted)
    (hc : ¬(decide entity = .definition ∧ entity.isContainer = true)) :
    anchored decide entity =
      withAnchor (anchor? entity) (entity.head ++ entity.declarationEnd ++ entity.lineEnd) := by
  rw [anchored_eq, if_pos (Detail.isWritten_iff.mpr hd), anchoredInside, if_neg hc]

end

theorem map_snd_withAnchor (anchor : Option Id) (ws : List Write) :
    (withAnchor anchor ws).map Prod.snd = ws := by
  induction ws with
  | nil => rfl
  | cons w rest ih =>
    rw [withAnchor]
    split
    · rw [List.map_cons, List.map_map]
      exact congrArg (w :: ·) (List.map_id rest)
    · rw [List.map_cons, ih]

theorem withAnchor_none (ws : List Write) : withAnchor none ws = ws.map (none, ·) := by
  induction ws with
  | nil => rfl
  | cons w rest ih => rw [withAnchor, ih, List.map_cons, ite_self]

theorem anchors_withAnchor_none (ws : List Write) :
    (withAnchor none ws).filterMap Prod.fst = [] := by
  rw [withAnchor_none, List.filterMap_map, List.filterMap_eq_nil_iff]
  exact fun _ _ => rfl

/-- The anchor is written if any step is marked up. -/
theorem anchors_withAnchor (anchor : Option Id) {ws : List Write}
    (h : ∃ w ∈ ws, (html? w).isSome = true) :
    (withAnchor anchor ws).filterMap Prod.fst = anchor.toList := by
  induction ws with
  | nil =>
    obtain ⟨w, hw, -⟩ := h
    exact absurd hw List.not_mem_nil
  | cons w rest ih =>
    rw [withAnchor]
    split
    · rw [← withAnchor_none, List.filterMap_cons, anchors_withAnchor_none]
      cases anchor <;> rfl
    · rename_i hw
      obtain ⟨marked, hm, hs⟩ := h
      rcases List.mem_cons.mp hm with rfl | hm
      · exact absurd hs hw
      · exact ih ⟨marked, hm, hs⟩

/-- Anchors stand only before steps that are marked up. -/
theorem isSome_html?_of_mem_withAnchor {anchor : Option Id} {ws : List Write} {step : AnchoredStep}
    (hm : step ∈ withAnchor anchor ws) (hs : step.1.isSome = true) :
    (html? step.2).isSome = true := by
  induction ws with
  | nil => exact absurd hm List.not_mem_nil
  | cons w rest ih =>
    rw [withAnchor] at hm
    split at hm
    · rcases List.mem_cons.mp hm with rfl | hm
      · assumption
      · obtain ⟨later, -, rfl⟩ := List.mem_map.mp hm
        exact absurd hs (by simp)
    · rcases List.mem_cons.mp hm with rfl | hm
      · exact absurd hs (by simp)
      · exact ih hm

section

variable (decide : Entity → Detail) (entity : Entity)

/-- Without the anchors it is what is written of the tree. -/
theorem map_snd_anchored : (anchored decide entity).map Prod.snd = written decide entity := by
  induction entity using decision_induction decide with
  | omitted entity ho =>
    rw [anchored_of_omitted ho, written_of_omitted ho]
    rfl
  | definition entity hd hc ih =>
    have hchildren : (entity.children.flatMap (anchored decide)).map Prod.snd =
        entity.children.flatMap (written decide) := by
      rw [List.map_flatMap]
      exact List.flatMap_congr ih
    rw [anchored_of_definition hd hc, written_of_definition hd hc, List.map_append,
      List.map_append, map_snd_withAnchor, map_snd_withAnchor, hchildren]
  | declaration entity ho hd =>
    rw [anchored_of_declaration ho hd, written_of_declaration ho hd, map_snd_withAnchor]

theorem isSome_html?_of_mem_anchored {step : AnchoredStep} (hm : step ∈ anchored decide entity)
    (hs : step.1.isSome = true) : (html? step.2).isSome = true := by
  induction entity using decision_induction decide with
  | omitted entity ho =>
    rw [anchored_of_omitted ho] at hm
    exact absurd hm List.not_mem_nil
  | definition entity hd hc ih =>
    rw [anchored_of_definition hd hc, List.mem_append, List.mem_append] at hm
    rcases hm with (hm | hm) | hm
    · exact isSome_html?_of_mem_withAnchor hm hs
    · obtain ⟨child, hc, hm⟩ := List.mem_flatMap.mp hm
      exact ih child hc hm
    · exact isSome_html?_of_mem_withAnchor hm hs
  | declaration entity ho hd =>
    rw [anchored_of_declaration ho hd] at hm
    exact isSome_html?_of_mem_withAnchor hm hs

/-- An entity leaves its anchor, if it has one, to steps among which one is marked up. -/
theorem anchors_withAnchor_entity {entity : Entity} {ws : List Write}
    (h : entity.occupiesLine = true → ∃ w ∈ ws, (html? w).isSome = true) :
    (withAnchor (anchor? entity) ws).filterMap Prod.fst = (anchor? entity).toList := by
  unfold anchor?
  split
  · exact anchors_withAnchor _ (h ‹_›)
  · exact anchors_withAnchor_none _

/-- The anchors are those of the entities that are visited and not omitted, files left out. -/
theorem anchors_anchored :
    (anchored decide entity).filterMap Prod.fst =
      (visits decide entity).flatMap fun shown =>
        if (decide shown).isWritten then (anchor? shown).toList else [] := by
  induction entity using decision_induction decide with
  | omitted entity ho =>
    rw [anchored_of_omitted ho, visits_eq, ho]
    simp [ho, Detail.isWritten]
  | definition entity hd hc ih =>
    have hown := anchors_withAnchor_entity fun h => Entity.exists_html_of_definition h hc
    rw [anchored_of_definition hd hc, visits_eq, if_pos ⟨hd, hc⟩, List.flatMap_cons,
      if_pos (Detail.isWritten_iff.mpr (by simp [hd])), List.filterMap_append,
      List.filterMap_append, hown, anchors_withAnchor_none, List.append_nil,
      List.filterMap_flatMap, List.flatMap_assoc]
    exact congrArg _ (List.flatMap_congr ih)
  | declaration entity ho hd =>
    rw [anchored_of_declaration ho hd, visits_eq, if_neg hd, List.flatMap_cons,
      if_pos (Detail.isWritten_iff.mpr ho),
      anchors_withAnchor_entity Entity.exists_html_of_declaration]
    simp

end

def AnchoredStep.inHtml : AnchoredStep → Write
  | (anchor, w) =>
      match html? w with
      | some html => .token .tokenSeq ((anchor.map Markup.anchorTag).getD "" ++ html)
      | none => w

theorem inHtml_of_html {anchor : Option Id} {w : Write} {html : String}
    (h : html? w = some html) :
    AnchoredStep.inHtml (anchor, w) =
      .token .tokenSeq ((anchor.map Markup.anchorTag).getD "" ++ html) := by
  rw [AnchoredStep.inHtml, h]

theorem inHtml_of_none {anchor : Option Id} {w : Write} (h : html? w = none) :
    AnchoredStep.inHtml (anchor, w) = w := by
  rw [AnchoredStep.inHtml, h]

section

variable (indentation : Indentation)

theorem write_of_html {w : Write} {html : String} (h : html? w = some html) (m : Markup) :
    (Markup.generator indentation).write w m =
      ⟨(Layout.generator indentation).write (AnchoredStep.inHtml (m.anchor, w)) m.layout, none⟩ := by
  have hput : (Markup.generator indentation).write w m = m.put indentation.unit html := by
    cases w with
    | token kind text => cases kind <;> exact congrArg (m.put _) (Option.some.inj h)
    | reference targets name => exact congrArg (m.put _) (Option.some.inj h)
    | space | lineBreak | indent | unindent => cases h
  rw [hput, inHtml_of_html h, Markup.put]
  obtain ⟨layout, anchor⟩ := m
  cases anchor with
  | none => simp [Layout.generator, Layout.write]
  | some id => rfl

theorem write_of_none {w : Write} (h : html? w = none) (m : Markup) :
    (Markup.generator indentation).write w m =
      ⟨(Layout.generator indentation).write w m.layout, m.anchor⟩ := by
  cases w with
  | token kind text => cases kind <;> cases h
  | reference targets name => cases h
  | space | lineBreak | indent | unindent => rfl

/-- The first step that is marked up takes the anchor. -/
theorem writeAll_markup {ws : List Write} {m : Markup}
    (h : m.anchor = none ∨ ∃ w ∈ ws, (html? w).isSome = true) :
    (Markup.generator indentation).writeAll ws m =
      ⟨(Layout.generator indentation).writeAll ((withAnchor m.anchor ws).map AnchoredStep.inHtml)
        m.layout, none⟩ := by
  induction ws generalizing m with
  | nil =>
    obtain ⟨layout, anchor⟩ := m
    obtain rfl : anchor = none := h.resolve_right fun ⟨w, hw, _⟩ => absurd hw List.not_mem_nil
    rfl
  | cons w rest ih =>
    rw [Generator.writeAll_cons, withAnchor]
    cases hw : html? w with
    | some html =>
      -- The step takes the anchor, if there is one, and leaves none to the rest.
      rw [write_of_html indentation hw, ih (Or.inl rfl), Option.isSome_some, if_pos rfl,
        ← withAnchor_none]
      rfl
    | none =>
      -- The anchor is passed on, and so is the step that will take it.
      have hrest : m.anchor = none ∨ ∃ w ∈ rest, (html? w).isSome = true := by
        refine h.imp_right fun ⟨marked, hm, hs⟩ => ?_
        rcases List.mem_cons.mp hm with rfl | hm
        · exact absurd hs (by simp [hw])
        · exact ⟨marked, hm, hs⟩
      have hstep := write_of_none indentation hw m
      rw [hstep, ih (by exact hrest), Option.isSome_none, if_neg Bool.false_ne_true, List.map_cons,
        inHtml_of_none hw]
      rfl

theorem attendAll_steps (selection : Selection) {ws : List Write} {m : Markup}
    (h : m.anchor = none ∨ ∃ w ∈ ws, (html? w).isSome = true) :
    (selection.narrow (Markup.generator indentation)).attendAll (ws.map .write) m =
      ⟨(Layout.generator indentation).writeAll ((withAnchor m.anchor ws).map AnchoredStep.inHtml)
        m.layout, none⟩ := by
  rw [Generator.attendAll_map_write]
  exact writeAll_markup indentation h

theorem attend_enter {selection : Selection} {entity : Entity}
    (h : selection.limit entity ≠ .omitted) (container : Bool) (l : Layout) :
    (selection.narrow (Markup.generator indentation)).attend (.enter container entity) ⟨l, none⟩ =
      ⟨l, anchor? entity⟩ := by
  have henter : Markup.enter entity ⟨l, none⟩ = ⟨l, anchor? entity⟩ := by
    unfold Markup.enter anchor?
    split <;> rfl
  dsimp only [Generator.attend, Selection.narrow]
  cases hl : selection.limit entity with
  | omitted => exact absurd hl h
  | declaration => exact henter
  | definition => exact henter

theorem attend_enter_of_omitted {selection : Selection} {entity : Entity}
    (h : selection.limit entity = .omitted) (container : Bool) (m : Markup) :
    (selection.narrow (Markup.generator indentation)).attend (.enter container entity) m = m := by
  dsimp only [Generator.attend, Selection.narrow]
  rw [h]

theorem attendAll_children (selection : Selection) {children : List Entity}
    (hc : ∀ child ∈ children, ∀ l,
      (selection.narrow (Markup.generator indentation)).attendAll
          (showings selection.limit child) ⟨l, none⟩ =
        ⟨(Layout.generator indentation).writeAll
          ((anchored selection.limit child).map AnchoredStep.inHtml) l, none⟩) (l : Layout) :
    (selection.narrow (Markup.generator indentation)).attendAll
        (children.flatMap (showings selection.limit)) ⟨l, none⟩ =
      ⟨(Layout.generator indentation).writeAll
        ((children.flatMap (anchored selection.limit)).map AnchoredStep.inHtml) l, none⟩ := by
  induction children generalizing l with
  | nil => rfl
  | cons child rest ih =>
    have hrest := ih fun c hm => hc c (List.mem_cons_of_mem _ hm)
    rw [List.flatMap_cons, Generator.attendAll_append, hc child List.mem_cons_self, hrest,
      List.flatMap_cons, List.map_append, Generator.writeAll_append]

/-- Between entities no anchor is left to be written, so each goes where its own entity is marked
up first. -/
theorem attendAll_markup (selection : Selection) (entity : Entity) (l : Layout) :
    (selection.narrow (Markup.generator indentation)).attendAll
        (showings selection.limit entity) ⟨l, none⟩ =
      ⟨(Layout.generator indentation).writeAll
        ((anchored selection.limit entity).map AnchoredStep.inHtml) l, none⟩ := by
  -- An entity with an anchor is marked up by its own first steps. Only a file writes nothing there.
  have hanchor {entity : Entity} {ws : List Write}
      (hws : entity.occupiesLine = true → ∃ w ∈ ws, (html? w).isSome = true) :
      anchor? entity = none ∨ ∃ w ∈ ws, (html? w).isSome = true := by
    unfold anchor?
    split
    · exact Or.inr (hws ‹_›)
    · exact Or.inl rfl
  induction entity using decision_induction selection.limit generalizing l with
  | omitted entity ho =>
    rw [showings_of_omitted ho, anchored_of_omitted ho, Generator.attendAll_cons,
      attend_enter_of_omitted indentation ho]
    rfl
  | definition entity hd hc ih =>
    have hwritten : selection.limit entity ≠ .omitted := by simp [hd]
    have hopen := attendAll_steps indentation selection (m := ⟨l, anchor? entity⟩)
      (hanchor fun h => Entity.exists_html_of_definition h hc)
    rw [showings_of_definition hd hc, anchored_of_definition hd hc, Generator.attendAll_cons,
      attend_enter indentation hwritten, Generator.attendAll_append, Generator.attendAll_append,
      Generator.attendAll_append, hopen, attendAll_children indentation selection ih,
      attendAll_steps indentation selection (Or.inl rfl), List.map_append, List.map_append,
      Generator.writeAll_append, Generator.writeAll_append]
    rfl
  | declaration entity ho hd =>
    have hdeclare := attendAll_steps indentation selection (m := ⟨l, anchor? entity⟩)
      (hanchor fun h => Entity.exists_html_of_declaration h)
    rw [showings_of_declaration ho hd, anchored_of_declaration ho hd, Generator.attendAll_cons,
      attend_enter indentation ho, Generator.attendAll_append, hdeclare]
    cases entity.isContainer <;> rfl

/-- An HTML document is plain text of the steps in HTML. -/
theorem renderHtml_eq_anchored (selection : Selection) (entity : Entity) :
    renderHtml indentation selection entity =
      "<pre><code class=\"language-cpp\">" ++
        ((Layout.generator indentation).writeAll
          ((anchored selection.limit entity).map AnchoredStep.inHtml) {}).text ++
        "</code></pre>\n" := by
  have hstart : ({} : Markup) = ⟨{}, none⟩ := rfl
  rw [renderHtml_eq, hstart, attendAll_markup]
  rfl

end

end HeaderSynopsis.Output
