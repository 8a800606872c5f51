import HeaderSynopsis.Proofs.Output.Anchors

namespace HeaderSynopsis.Output

open Declaration Writing Generation Manifest

section

variable {read : List Char → List String} {values vs : List String} {text : String} {l : Layout}

theorem Finds.eq_nil (h : Finds read [] values) : values = [] :=
  List.self_eq_append_left.mp (h [])

/-- What is found in a text is found in it on the current line as well. -/
theorem Finds.put (hread : ∀ cs, '<' ∉ cs → Finds read cs []) (indentation : Indentation)
    (hl : Finds read l.text.toList vs) (ht : Finds read text.toList values) :
    Finds read (l.put indentation.unit text).text.toList (vs ++ values) := by
  -- An empty text does not even begin the line, but nothing is found in it either.
  by_cases he : text = ""
  · subst he
    rwa [ht.eq_nil, List.append_nil, Layout.put_empty]
  · have hlead : Finds read (l.lead indentation.unit).toList [] := by
      refine hread _ fun hm => ?_
      unfold Layout.lead at hm
      split at hm
      · rcases Indentation.eq_of_mem_unit (Layout.mem_unit_of_mem_margin hm) with h | h
        · exact absurd h (by decide)
        · exact absurd h (by decide)
      · exact absurd hm (by simp)
    have h := (hl.append hlead).append ht
    rwa [List.append_nil, ← String.toList_append, ← String.toList_append,
      ← Layout.put_text he] at h

/-- A step that is not marked up adds nothing that is found. -/
theorem Finds.write (hread : ∀ cs, '<' ∉ cs → Finds read cs []) (indentation : Indentation)
    (hl : Finds read l.text.toList vs) {w : Write} (hw : html? w = none) :
    Finds read ((Layout.generator indentation).write w l).text.toList vs := by
  cases w with
  | token kind text => cases kind <;> cases hw
  | reference targets name => cases hw
  | space =>
    have h := hl.put hread indentation (hread " ".toList (by decide))
    rwa [List.append_nil] at h
  | lineBreak =>
    have h := hl.append (hread "\n".toList (by decide))
    rwa [List.append_nil, ← String.toList_append] at h
  | indent => exact hl
  | unindent => exact hl

/-- In a document under way is found what is found in the markup of its steps. -/
theorem Finds.writeAll (hread : ∀ cs, '<' ∉ cs → Finds read cs []) (indentation : Indentation)
    {found : AnchoredStep → List String} {steps : List AnchoredStep}
    (hsteps : ∀ step ∈ steps, ∀ html, html? step.2 = some html →
      Finds read ((step.1.map Markup.anchorTag).getD "" ++ html).toList (found step))
    (hothers : ∀ step ∈ steps, html? step.2 = none → found step = [])
    (hl : Finds read l.text.toList vs) :
    Finds read ((Layout.generator indentation).writeAll (steps.map AnchoredStep.inHtml)
      l).text.toList (vs ++ steps.flatMap found) := by
  induction steps generalizing l vs with
  | nil => rwa [List.flatMap_nil, List.append_nil]
  | cons step rest ih =>
    obtain ⟨hstep, hsteps⟩ := List.forall_mem_cons.mp hsteps
    obtain ⟨hother, hothers⟩ := List.forall_mem_cons.mp hothers
    rw [List.map_cons, Generator.writeAll_cons, List.flatMap_cons, ← List.append_assoc]
    refine ih hsteps hothers ?_
    obtain ⟨anchor, w⟩ := step
    cases hw : html? w with
    | some html =>
      rw [inHtml_of_html hw]
      exact hl.put hread indentation (hstep html hw)
    | none =>
      rw [inHtml_of_none hw, hother hw, List.append_nil]
      exact hl.write hread indentation hw

end

theorem finds_noAnchors_chars (cs : List Char) (h : '<' ∉ cs) : Finds anchorsIn cs [] :=
  (CutsInto.chars h).finds_noAnchors (anchorId?_chars cs)

theorem finds_noTargets_chars (cs : List Char) (h : '<' ∉ cs) : Finds targetsIn cs [] := by
  have hfinds := (CutsInto.chars h).finds_targets
  rwa [targets_chars] at hfinds

theorem cutsInto_documentStart : CutsInto "<pre><code class=\"language-cpp\">".toList
    [.tag ["pre".toList], .tag ["code class=".toList, "language-cpp".toList, []]] := by
  have hpre : CutsInto "<pre>".toList [.tag ["pre".toList]] :=
    cutsInto_closeTag (by decide) (by decide) (by decide)
  have hlead : "<code class=\"".toList = '<' :: "code class=".toList ++ ['"'] := by decide
  have hvalue : '"' ∉ "language-cpp".toList ∧ '>' ∉ "language-cpp".toList := by decide
  have hcode := cutsInto_openTag hlead (by decide) hvalue
  have h := hpre.append hcode
  rwa [← String.toList_append] at h

theorem cutsInto_documentEnd : CutsInto "</code></pre>\n".toList
    [.tag ["/code".toList], .tag ["/pre".toList], .char '\n'] := by
  have hcode : CutsInto "</code>".toList [.tag ["/code".toList]] :=
    cutsInto_closeTag (by decide) (by decide) (by decide)
  have hpre : CutsInto "</pre>".toList [.tag ["/pre".toList]] :=
    cutsInto_closeTag (by decide) (by decide) (by decide)
  have hbreak : CutsInto "\n".toList [.char '\n'] := CutsInto.chars (by decide)
  have h := hcode.append (hpre.append hbreak)
  rwa [← String.toList_append, ← String.toList_append] at h

section

variable (indentation : Indentation) (selection : Selection) (entity : Entity)

/-- In a document is found what is found in the markup of its steps. -/
theorem read_renderHtml {read : List Char → List String} (hnil : read [] = [])
    (hread : ∀ cs, '<' ∉ cs → Finds read cs [])
    (hstart : Finds read "<pre><code class=\"language-cpp\">".toList [])
    (hend : Finds read "</code></pre>\n".toList []) {found : AnchoredStep → List String}
    (hsteps : ∀ step ∈ anchored selection.limit entity, ∀ html, html? step.2 = some html →
      Finds read ((step.1.map Markup.anchorTag).getD "" ++ html).toList (found step))
    (hothers : ∀ step ∈ anchored selection.limit entity, html? step.2 = none → found step = []) :
    read (renderHtml indentation selection entity).toList =
      (anchored selection.limit entity).flatMap found := by
  have hempty : Finds read ({} : Layout).text.toList [] := Finds.nil
  have hcontent := hempty.writeAll hread indentation hsteps hothers
  have h := (hstart.append hcontent).append hend []
  rw [hnil, List.append_nil, List.append_nil, List.append_nil, List.nil_append,
    ← String.toList_append, ← String.toList_append, ← renderHtml_eq_anchored] at h
  exact h

/-- The anchors that are read from a document are those that stand before its steps. -/
theorem anchorIds_renderHtml :
    anchorIds (renderHtml indentation selection entity) =
      ((anchored selection.limit entity).filterMap Prod.fst).map (escape ·.text) := by
  let found (step : AnchoredStep) : List String := (step.1.map (escape ·.text)).toList
  have hsteps : ∀ step ∈ anchored selection.limit entity, ∀ html, html? step.2 = some html →
      Finds anchorsIn ((step.1.map Markup.anchorTag).getD "" ++ html).toList (found step) := by
    rintro ⟨anchor, w⟩ - html hw
    have hhtml := finds_noAnchors_html hw
    rw [String.toList_append]
    cases anchor with
    | none => exact hhtml
    | some id => exact (finds_anchorTag id).append hhtml
  have hothers : ∀ step ∈ anchored selection.limit entity, html? step.2 = none →
      found step = [] := by
    intro step hm hw
    have hanchor : step.1 = none := by
      by_contra hne
      have hs := isSome_html?_of_mem_anchored _ _ hm (Option.isSome_iff_ne_none.mpr hne)
      exact absurd hs (by simp [hw])
    simp [found, hanchor]
  rw [anchorIds, read_renderHtml indentation selection entity rfl finds_noAnchors_chars
    (cutsInto_documentStart.finds_noAnchors (by decide))
    (cutsInto_documentEnd.finds_noAnchors (by decide)) hsteps hothers, List.map_filterMap,
    List.filterMap_eq_flatMap_toList]

/-- The links that are read from a document lead to the first targets of the references that are
written. -/
theorem linkTargets_renderHtml :
    linkTargets (renderHtml indentation selection entity) =
      ((written selection.limit entity).filterMap target?).map (escape ·.text) := by
  let found (step : AnchoredStep) : List String := ((target? step.2).map (escape ·.text)).toList
  have hsteps : ∀ step ∈ anchored selection.limit entity, ∀ html, html? step.2 = some html →
      Finds targetsIn ((step.1.map Markup.anchorTag).getD "" ++ html).toList (found step) := by
    rintro ⟨anchor, w⟩ - html hw
    have hhtml := finds_targets_html hw
    rw [String.toList_append]
    cases anchor with
    | none => exact hhtml
    | some id => exact (finds_noTargets_anchorTag id).append hhtml
  have hothers : ∀ step ∈ anchored selection.limit entity, html? step.2 = none →
      found step = [] := by
    rintro ⟨anchor, w⟩ - hw
    cases w with
    | reference targets name => cases hw
    | _ => rfl
  rw [linkTargets, read_renderHtml indentation selection entity rfl finds_noTargets_chars
    cutsInto_documentStart.finds_targets cutsInto_documentEnd.finds_targets hsteps hothers,
    ← map_snd_anchored, List.filterMap_map, List.map_filterMap, List.filterMap_eq_flatMap_toList]
  rfl

end

end HeaderSynopsis.Output
