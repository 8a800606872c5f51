import HeaderSynopsis.Proofs.Output.Documents

namespace HeaderSynopsis.Output

open Declaration Writing Generation Manifest

/-- Escaping can be undone. -/
theorem escape_injective {text other : String} (h : escape text = escape other) : text = other := by
  have hread := (shows_escape text).visibleChars_eq
  rw [h, (shows_escape other).visibleChars_eq] at hread
  exact String.toList_injective hread.symm

def beginning (detail : Detail) (entity : Entity) : List Write :=
  if detail = .definition ∧ entity.isContainer then entity.head ++ entity.opening
  else entity.head ++ entity.declarationEnd ++ entity.lineEnd

def firstMarkup? (detail : Detail) (entity : Entity) : Option String :=
  (beginning detail entity).findSome? html?

theorem exists_firstMarkup {entity : Entity} (h : entity.occupiesLine = true) (detail : Detail) :
    ∃ markup, firstMarkup? detail entity = some markup := by
  have hmarked : ∃ w ∈ beginning detail entity, (html? w).isSome = true := by
    unfold beginning
    split
    · rename_i hd
      exact Entity.exists_html_of_definition h hd.2
    · exact Entity.exists_html_of_declaration h
  exact Option.isSome_iff_exists.mp (List.findSome?_isSome_iff.mpr hmarked)

/-- A template begins with its head. -/
theorem firstMarkup?_of_template {entity : Entity} (h : entity.template.isSome = true)
    (detail : Detail) : firstMarkup? detail entity = some (Markup.span .keyword "template") := by
  have hhead : ∃ rest, entity.head = .keyword "template" :: rest := by
    obtain ⟨head, ht⟩ := Option.isSome_iff_exists.mp h
    rw [Entity.head, ht]
    cases head with
    | primary parameters => exact ⟨_, rfl⟩
    | specialization special => exact ⟨_, rfl⟩
  obtain ⟨rest, hrest⟩ := hhead
  unfold firstMarkup? beginning
  rw [hrest]
  split <;> rfl

/-- Where an entity is visited and not omitted, its steps stand together with its anchor. -/
theorem withAnchor_infix_anchored {decide : Entity → Detail} {entity shown : Entity}
    (hv : shown ∈ visits decide entity) (hw : decide shown ≠ .omitted) :
    withAnchor (anchor? shown) (beginning (decide shown) shown) <:+: anchored decide entity := by
  induction entity using Entity.tree_induction with
  | node entity ih =>
    rw [visits_eq, List.mem_cons] at hv
    by_cases hd : decide entity = .definition ∧ entity.isContainer
    · rw [anchored_of_definition hd.1 hd.2]
      rcases hv with rfl | hv
      · rw [beginning, if_pos hd, List.append_assoc]
        exact (List.prefix_append _ _).isInfix
      · rw [if_pos hd] at hv
        obtain ⟨child, hc, hv⟩ := List.mem_flatMap.mp hv
        have hchild : anchored decide child <:+: entity.children.flatMap (anchored decide) :=
          List.infix_of_mem_flatten (List.mem_map.mpr ⟨child, hc, rfl⟩)
        exact ((ih child hc hv).trans hchild).trans (List.infix_append _ _ _)
    · rw [if_neg hd] at hv
      obtain rfl := hv.resolve_right List.not_mem_nil
      simp [anchored_of_declaration hw hd, beginning, if_neg hd]

/-- The anchor stands before the first step that is marked up. -/
theorem exists_mem_withAnchor {ws : List Write} {markup : String}
    (h : ws.findSome? html? = some markup) (anchor : Option Id) :
    ∃ w, (anchor, w) ∈ withAnchor anchor ws ∧ html? w = some markup := by
  induction ws with
  | nil => exact absurd h (by simp)
  | cons w rest ih =>
    rw [List.findSome?_cons] at h
    rw [withAnchor]
    cases hw : html? w with
    | some html =>
      rw [hw] at h
      exact ⟨w, List.mem_cons_self, hw.trans h⟩
    | none =>
      rw [hw] at h
      obtain ⟨marked, hm, hmarked⟩ := ih h
      exact ⟨marked, List.mem_cons_of_mem _ hm, hmarked⟩

/-- What is written stays written. -/
theorem exists_text_writeAll (indentation : Indentation) (ws : List Write) (l : Layout) :
    ∃ added, ((Layout.generator indentation).writeAll ws l).text = l.text ++ added := by
  induction ws generalizing l with
  | nil => exact ⟨"", (String.append_empty).symm⟩
  | cons w rest ih =>
    have hput (text : String) : ∃ added, (l.put indentation.unit text).text = l.text ++ added := by
      by_cases he : text = ""
      · exact ⟨"", by rw [he, Layout.put_empty, String.append_empty]⟩
      · exact ⟨l.lead indentation.unit ++ text, by rw [Layout.put_text he, String.append_assoc]⟩
    have hstep : ∃ added, ((Layout.generator indentation).write w l).text = l.text ++ added := by
      cases w with
      | token kind text => exact hput text
      | reference targets name => exact hput name
      | space => exact hput " "
      | lineBreak => exact ⟨"\n", rfl⟩
      | indent => exact ⟨"", (String.append_empty).symm⟩
      | unindent => exact ⟨"", (String.append_empty).symm⟩
    obtain ⟨first, hfirst⟩ := hstep
    obtain ⟨added, hadded⟩ := ih ((Layout.generator indentation).write w l)
    exact ⟨first ++ added, by rw [Generator.writeAll_cons, hadded, hfirst, String.append_assoc]⟩

/-- A step that is marked up is found in the text with its anchor in front of it. -/
theorem exists_text_of_mem (indentation : Indentation) {steps : List AnchoredStep} {id : Id}
    {w : Write} {markup : String} (hm : (some id, w) ∈ steps) (hw : html? w = some markup)
    (l : Layout) :
    ∃ front back, ((Layout.generator indentation).writeAll
        (steps.map AnchoredStep.inHtml) l).text =
      front ++ (Markup.anchorTag id ++ markup) ++ back := by
  obtain ⟨before, after, rfl⟩ := List.append_of_mem hm
  have hne : Markup.anchorTag id ++ markup ≠ "" := by
    intro h
    have hlength := congrArg (·.toList.length) h
    simp [Markup.anchorTag] at hlength
  generalize hl : (Layout.generator indentation).writeAll (before.map AnchoredStep.inHtml) l = reached
  obtain ⟨back, hback⟩ := exists_text_writeAll indentation (after.map AnchoredStep.inHtml)
    (reached.put indentation.unit (Markup.anchorTag id ++ markup))
  refine ⟨reached.text ++ reached.lead indentation.unit, back, ?_⟩
  rw [List.map_append, Generator.writeAll_append, hl, List.map_cons, inHtml_of_html hw,
    Generator.writeAll_cons, ← Layout.put_text hne]
  exact hback

/-- Wherever an entity is visited and not omitted, its anchor is immediately before its first
markup. -/
theorem exists_text_of_visited (indentation : Indentation) {selection : Selection}
    {entity shown : Entity} {markup : String} (hv : shown ∈ visits selection.limit entity)
    (hw : selection.limit shown ≠ .omitted) (hl : shown.occupiesLine = true)
    (hm : firstMarkup? (selection.limit shown) shown = some markup) :
    ∃ front back, renderHtml indentation selection entity =
      front ++ (Markup.anchorTag shown.id ++ markup) ++ back := by
  have hanchor : anchor? shown = some shown.id := if_pos hl
  obtain ⟨w, hmem, hhtml⟩ := exists_mem_withAnchor hm (some shown.id)
  -- The anchored step is somewhere among the steps, and what is written stays written.
  have hstep : (some shown.id, w) ∈ anchored selection.limit entity := by
    refine (withAnchor_infix_anchored hv hw).subset ?_
    rw [hanchor]
    exact hmem
  obtain ⟨front, back, htext⟩ := exists_text_of_mem indentation hstep hhtml {}
  refine ⟨"<pre><code class=\"language-cpp\">" ++ front, back ++ "</code></pre>\n", ?_⟩
  rw [renderHtml_eq_anchored, htext]
  simp only [String.append_assoc]

/-- Escaping keeps identities apart. -/
theorem nodup_escape {entities : List Entity} (h : (entities.map Entity.id).Nodup) :
    (entities.map (escape ·.id.text)).Nodup := by
  have hescape : Function.Injective fun id : Id => escape id.text := by
    rintro ⟨text⟩ ⟨other⟩ he
    exact congrArg Id.mk (escape_injective he)
  have hnodup := h.map hescape
  rwa [List.map_map] at hnodup

def htmlDecisions (indentation : Indentation) (selection : Selection) (file : Entity) :
    List (Entity × Detail) :=
  decisionsTaken (selection.narrow (Markup.generator indentation)) file {}

theorem htmlDecisions_eq (indentation : Indentation) (selection : Selection) (file : Entity) :
    htmlDecisions indentation selection file =
      (visits selection.limit file).map fun shown => (shown, selection.limit shown) :=
  (selection.narrow_decides (Markup.generator_decides indentation)).decisionsTaken_eq file {}

/-- The anchors of a document, given the decisions about what is below its file. -/
structure AnchorsStand (document : String) (below : List (Entity × Detail)) : Prop where
  -- There is one for each entity that is not omitted, in their order.
  ids : anchorIds document =
    (below.filter (·.2.isWritten)).map fun decision => escape decision.1.id.text
  distinct : (anchorIds document).Nodup
  -- Each stands immediately before the markup that its entity begins with, which is that of the
  -- template head if there is one.
  places : ∀ decision ∈ below, decision.2.isWritten = true →
    ∃ markup, firstMarkup? decision.2 decision.1 = some markup ∧
      (decision.1.template.isSome = true → markup = Markup.span .keyword "template") ∧
      ∃ front back, document = front ++ (Markup.anchorTag decision.1.id ++ markup) ++ back

theorem flatMap_ite {α β : Type} (p : α → Bool) (f : α → β) (l : List α) :
    (l.flatMap fun a => if p a then [f a] else []) = (l.filter p).map f := by
  induction l with
  | nil => rfl
  | cons a rest ih => cases hp : p a <;> simp [hp, ih]

/-- Below the file of a manifest that loads, whatever is visited may have an anchor. -/
theorem occupiesLine_of_visited {file : Entity} (h : LoadedTree file) {decide : Entity → Detail}
    {below : List Entity} (hv : visits decide file = file :: below) :
    below.Sublist file.walk.tail ∧ ∀ e ∈ below, e.occupiesLine = true := by
  have hsub : below.Sublist file.walk.tail := by
    have hall := visits_sublist_walk decide file
    rw [hv, Entity.walk_eq] at hall
    rw [Entity.walk_eq]
    exact List.cons_sublist_cons.mp hall
  exact ⟨hsub, fun e he => Entity.occupiesLine_iff.mpr (h.noOtherFile e (hsub.subset he))⟩

/-- A document has an anchor for each entity below its file that is visited and not omitted. -/
theorem anchorIds_of_visits {file : Entity} (h : LoadedTree file) (indentation : Indentation)
    {selection : Selection} {below : List Entity}
    (hv : visits selection.limit file = file :: below) :
    anchorIds (renderHtml indentation selection file) =
      (below.filter fun e => (selection.limit e).isWritten).map (escape ·.id.text) := by
  have hfile : anchor? file = none := by
    rw [anchor?, Entity.occupiesLine, h.isFile]
    rfl
  have hanchor (e : Entity) (he : e ∈ below) :
      (if (selection.limit e).isWritten then (anchor? e).toList else []) =
        if (selection.limit e).isWritten then [e.id] else [] := by
    rw [anchor?, if_pos ((occupiesLine_of_visited h hv).2 e he)]
    rfl
  rw [anchorIds_renderHtml, anchors_anchored, hv, List.flatMap_cons, hfile,
    List.flatMap_congr hanchor, flatMap_ite, List.map_append, List.map_map]
  simp [Function.comp_def]

/-- In the HTML of a manifest that loads, with any selection and indentation, the anchors are those
of the entities below the file that are visited and not omitted. They come in the order of the
visits, each one once, and immediately before the first markup of its entity. Apart from them the
document is what is written of the tree, each step in its markup. -/
theorem anchorsStand_renderHtml {source : Source} {manifest : Loaded}
    (h : Loaded.ofSource source = .ok manifest) (indentation : Indentation)
    (selection : Selection) :
    ∃ below,
      htmlDecisions indentation selection manifest.file =
        (manifest.file, selection.limit manifest.file) :: below ∧
      AnchorsStand (renderHtml indentation selection manifest.file) below ∧
      renderHtml indentation selection manifest.file =
        "<pre><code class=\"language-cpp\">" ++
          ((Layout.generator indentation).writeAll
            ((anchored selection.limit manifest.file).map AnchoredStep.inHtml) {}).text ++
          "</code></pre>\n" := by
  have htree := Loaded.loadedTree h
  generalize manifest.file = file at htree
  obtain ⟨below, hbelow⟩ : ∃ below, visits selection.limit file = file :: below :=
    ⟨_, visits_eq _ _⟩
  obtain ⟨hsub, hlines⟩ := occupiesLine_of_visited htree hbelow
  have hids := anchorIds_of_visits htree indentation hbelow
  refine ⟨below.map fun shown => (shown, selection.limit shown), ?_, ⟨?_, ?_, ?_⟩,
    renderHtml_eq_anchored indentation selection file⟩
  · rw [htmlDecisions_eq, hbelow, List.map_cons]
  · rw [hids, List.filter_map, List.map_map]
    rfl
  · rw [hids]
    exact nodup_escape (htree.distinct.sublist ((List.filter_sublist.trans hsub).map Entity.id))
  · rintro decision hd hw
    obtain ⟨e, he, rfl⟩ := List.mem_map.mp hd
    obtain ⟨markup, hmarkup⟩ := exists_firstMarkup (hlines e he) (selection.limit e)
    have hvisited : e ∈ visits selection.limit file := by
      rw [hbelow]
      exact List.mem_cons_of_mem _ he
    have htemplate (ht : e.template.isSome = true) : markup = Markup.span .keyword "template" :=
      Option.some.inj (hmarkup.symm.trans (firstMarkup?_of_template ht _))
    exact ⟨markup, hmarkup, htemplate, exists_text_of_visited indentation hvisited
      (Detail.isWritten_iff.mp hw) (hlines e he) hmarkup⟩

/-- A file has no anchor, a namespace of the same name has one. -/
theorem anchorsStand_renderHtml_namesake :
    Loaded.ofSource Loaded.namesakeSource = .ok Loaded.namesake ∧
      anchorIds (renderHtml .standard {} Loaded.namesake.file) = ["geo", "geo::point"] := by
  obtain ⟨below, hbelow, hstand, -⟩ :=
    anchorsStand_renderHtml Loaded.ofSource_namesakeSource .standard {}
  have hdecisions : htmlDecisions .standard {} Loaded.namesake.file =
      [(Loaded.namesake.file, .definition), (Loaded.namesakeScope, .definition),
        (Loaded.namesakePoint, .definition)] := rfl
  rw [hdecisions] at hbelow
  obtain ⟨-, rfl⟩ := List.cons.inj hbelow
  exact ⟨Loaded.ofSource_namesakeSource, hstand.ids.trans (by decide)⟩

end HeaderSynopsis.Output
