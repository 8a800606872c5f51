import HeaderSynopsis.Proofs.Output.Layout
import HeaderSynopsis.Proofs.Output.Rendering
import HeaderSynopsis.Proofs.Output.VisibleText
import HeaderSynopsis.Proofs.Writing.SettledLines

/-!
HTML shows the same text as plain text. An empty token is some markup, so the two may disagree on
whether a line has begun; they do so only on a hollow line, where the markup is ahead by the margin
of the line. Main result: reading an HTML document gives the plain text of the same tree.
-/

namespace HeaderSynopsis.Output

open Declaration Writing Generation LineState

/-- A unit of indentation is read as itself, however often it is repeated. -/
theorem shows_margin (indentation : Indentation) (level : Nat) :
    Shows (Layout.margin indentation.unit level).toList
      (Layout.margin indentation.unit level).toList := by
  refine shows_self fun c hc => ?_
  rcases Indentation.eq_of_mem_unit (Layout.mem_unit_of_mem_margin hc) with rfl | rfl
  · decide
  · decide

structure Mirrors (unit : String) (s : LineState) (plain marked : Layout) : Prop where
  level : marked.level = plain.level
  nextLevel : marked.nextLevel = plain.nextLevel
  begun_iff : Begun s ↔ plain.atLineStart = false
  -- Only on a hollow line can the markup alone have begun the line.
  start : marked.atLineStart = plain.atLineStart ∨
    s = .hollow ∧ marked.atLineStart = false ∧ plain.atLineStart = true
  -- The markup then has the margin that the text still lacks.
  text : Shows marked.text.toList (plain.text.toList ++
    if marked.atLineStart = plain.atLineStart then [] else (plain.lead unit).toList)

namespace Mirrors

variable {unit markup text : String} {s : LineState} {plain marked : Layout}

theorem start_of_settled (h : Mirrors unit s plain marked) (hs : Settled s) :
    marked.atLineStart = plain.atLineStart :=
  h.start.resolve_right fun hh => hs hh.1

/-- Where both agree on the line, no margin is missing. -/
theorem text_of_settled (h : Mirrors unit s plain marked) (hs : Settled s) :
    Shows marked.text.toList plain.text.toList := by
  have ht := h.text
  rwa [if_pos (h.start_of_settled hs), List.append_nil] at ht

/-- With what is put before the next text, the markup always shows the text. -/
theorem led (h : Mirrors unit s plain marked)
    (hu : Shows (Layout.margin unit plain.level).toList (Layout.margin unit plain.level).toList) :
    Shows (marked.text ++ marked.lead unit).toList (plain.text ++ plain.lead unit).toList := by
  rw [String.toList_append, String.toList_append]
  have ht := h.text
  rcases h.start with he | ⟨_, hm, hp⟩
  · rw [if_pos he, List.append_nil] at ht
    refine ht.append ?_
    unfold Layout.lead
    rw [he, h.level]
    split
    · exact hu
    · exact Shows.nil
  · rw [if_neg (by rw [hm, hp]; exact Bool.false_ne_true)] at ht
    rw [Layout.lead_of_begun hm, String.toList_empty, List.append_nil]
    exact ht

/-- Text in markup begins the line for both. -/
theorem put_text (h : Mirrors unit s plain marked) (hne : text ≠ "")
    (hm : Shows markup.toList text.toList)
    (hu : Shows (Layout.margin unit plain.level).toList (Layout.margin unit plain.level).toList) :
    Mirrors unit (s.put text) (plain.put unit text) (marked.put unit markup) := by
  have hmne : markup ≠ "" := by
    rintro rfl
    exact hne (String.toList_injective hm.visibleChars_eq.symm)
  have hs : Begun (s.put text) := by
    cases s with
    | begun => rfl
    | blank => exact if_neg hne
    | hollow => exact if_neg hne
  have hp : (plain.put unit text).atLineStart = false := Layout.put_atLineStart hne
  have ha : (marked.put unit markup).atLineStart = false := Layout.put_atLineStart hmne
  have he := ha.trans hp.symm
  refine ⟨?_, ?_, ⟨fun _ => hp, fun _ => hs⟩, Or.inl he, ?_⟩
  · rw [Layout.put_level, Layout.put_level, h.level]
  · rw [Layout.put_nextLevel, Layout.put_nextLevel, h.nextLevel]
  · rw [if_pos he, List.append_nil, Layout.put_text hne, Layout.put_text hmne]
    simpa only [String.toList_append] using (h.led hu).append hm

/-- Markup without text may begin the line, but then for the markup only. -/
theorem put_empty (h : Mirrors unit s plain marked) (hm : Shows markup.toList [])
    (hu : Shows (Layout.margin unit plain.level).toList (Layout.margin unit plain.level).toList) :
    Mirrors unit (s.put "") plain (marked.put unit markup) := by
  have hb : Begun (s.put "") ↔ plain.atLineStart = false := by
    rw [← h.begun_iff]
    cases s with
    | begun => exact Iff.rfl
    | blank => exact ⟨LineState.noConfusion, LineState.noConfusion⟩
    | hollow => exact ⟨LineState.noConfusion, LineState.noConfusion⟩
  have hs : ¬Begun (s.put "") → s.put "" = .hollow := by
    intro hn
    cases s with
    | begun => exact absurd rfl hn
    | blank => rfl
    | hollow => rfl
  -- Only an escaped text can be empty together with its markup. A span or a link is not.
  by_cases hne : markup = ""
  · subst hne
    rw [Layout.put_empty]
    refine ⟨h.level, h.nextLevel, hb, ?_, h.text⟩
    rcases h.start with he | ⟨_, ha, hp⟩
    · exact Or.inl he
    · exact Or.inr ⟨hs fun hn => Bool.false_ne_true ((hb.mp hn).symm.trans hp), ha, hp⟩
  have ha : (marked.put unit markup).atLineStart = false := Layout.put_atLineStart hne
  have ht : Shows (marked.put unit markup).text.toList (plain.text ++ plain.lead unit).toList := by
    rw [Layout.put_text hne, String.toList_append]
    have ht := (h.led hu).append hm
    rwa [List.append_nil] at ht
  rw [String.toList_append] at ht
  refine ⟨?_, ?_, hb, ?_, ?_⟩
  · rw [Layout.put_level, h.level]
  · rw [Layout.put_nextLevel, h.nextLevel]
  · cases hp : plain.atLineStart with
    | false => exact Or.inl ha
    | true => exact Or.inr ⟨hs fun hn => Bool.false_ne_true ((hb.mp hn).symm.trans hp), ha, rfl⟩
  · rw [ha]
    split
    · rename_i hp
      rwa [Layout.lead_of_begun hp.symm] at ht
    · exact ht

/-- Markup is put on the line together with its text. -/
theorem put (h : Mirrors unit s plain marked) (hm : Shows markup.toList text.toList)
    (hu : Shows (Layout.margin unit plain.level).toList (Layout.margin unit plain.level).toList) :
    Mirrors unit (s.put text) (plain.put unit text) (marked.put unit markup) := by
  by_cases he : text = ""
  · subst he
    rw [Layout.put_empty]
    exact h.put_empty hm hu
  · exact h.put_text he hm hu

theorem breakLine (h : Mirrors unit s plain marked) (hs : Settled s) :
    Mirrors unit .blank plain.breakLine marked.breakLine := by
  refine ⟨h.nextLevel, h.nextLevel, ⟨LineState.noConfusion, Bool.noConfusion⟩, Or.inl rfl, ?_⟩
  have ht := (h.text_of_settled hs).append (shows_char (c := '\n') (by decide) (by decide))
  simpa [Layout.breakLine] using ht

theorem deeper (h : Mirrors unit s plain marked) :
    Mirrors unit s plain.deeper marked.deeper :=
  ⟨h.level, congrArg (· + 1) h.nextLevel, h.begun_iff, h.start, h.text⟩

theorem shallower (h : Mirrors unit s plain marked) (hs : Settled s) :
    Mirrors unit s plain.shallower marked.shallower := by
  -- On a hollow line the level would be lowered for the plain text only.
  have he := h.start_of_settled hs
  refine ⟨?_, ?_, h.begun_iff, h.start, ?_⟩
  · simp only [Layout.shallower, he, h.level, h.nextLevel]
  · simp only [Layout.shallower, h.nextLevel]
  · have ht := h.text_of_settled hs
    simpa [Layout.shallower, he] using ht

end Mirrors

/-- An anchor that is put before some markup does not change what is seen of it. -/
theorem put_layout (unit : String) {markup text : String} (m : Markup)
    (hm : Shows markup.toList text.toList) :
    ∃ anchored, Shows anchored.toList text.toList ∧
      (m.put unit markup).layout = m.layout.put unit anchored := by
  unfold Markup.put
  split
  · rename_i id _
    refine ⟨Markup.anchorTag id ++ markup, ?_, rfl⟩
    rw [String.toList_append]
    exact (shows_anchorTag id).append hm
  · exact ⟨markup, hm, rfl⟩

theorem enter_layout (entity : Entity) (m : Markup) : (m.enter entity).layout = m.layout := by
  unfold Markup.enter
  split <;> rfl

variable {indentation : Indentation} {s s' : LineState} {plain : Layout} {marked : Markup}

/-- One step of writing, in plain text and in HTML. -/
theorem Mirrors.write (h : Mirrors indentation.unit s plain marked.layout) {w : Write}
    (hn : next? w s = some s') :
    Mirrors indentation.unit s' (plain.write indentation.unit w)
      (marked.write indentation.unit w).layout := by
  -- What is written into the markup may come with an anchor and a margin before it.
  have hput {markup text : String} (hm : Shows markup.toList text.toList) :
      Mirrors indentation.unit (s.put text) (plain.put indentation.unit text)
        (marked.put indentation.unit markup).layout := by
    obtain ⟨anchored, ha, he⟩ := put_layout indentation.unit marked hm
    rw [he]
    exact h.put ha (shows_margin _ _)
  cases w with
  | token kind text =>
    obtain rfl := Option.some.inj hn
    cases kind with
    | tokenSeq => exact hput (shows_escape text)
    | _ => exact hput (shows_span _ text)
  | reference targets name =>
    obtain rfl := Option.some.inj hn
    exact hput (shows_linkTag targets name)
  | space =>
    obtain rfl := Option.some.inj hn
    have hblank : Shows " ".toList " ".toList := shows_self (by simp)
    have hspace := h.put hblank (shows_margin _ _)
    cases s with
    | blank => exact hspace
    | hollow => exact hspace
    | begun => exact hspace
  | lineBreak =>
    rw [next?] at hn
    split at hn
    · cases hn
    · obtain rfl := Option.some.inj hn
      exact h.breakLine ‹_›
  | indent =>
    obtain rfl := Option.some.inj hn
    exact h.deeper
  | unindent =>
    rw [next?] at hn
    split at hn
    · cases hn
    · obtain rfl := Option.some.inj hn
      exact h.shallower ‹_›

/-- Everything that is shown, in plain text and in HTML; decisions change neither. -/
theorem Mirrors.attendAll (selection : Selection) {shown : List Showing}
    (h : Mirrors indentation.unit s plain marked.layout)
    (hr : run? (writesOf shown) s = some s') :
    Mirrors indentation.unit s'
      ((Layout.generator indentation).writeAll (writesOf shown) plain)
      ((selection.narrow (Markup.generator indentation)).attendAll shown marked).layout := by
  induction shown generalizing s plain marked with
  | nil =>
    obtain rfl := Option.some.inj hr
    exact h
  | cons o rest ih =>
    rw [Generator.attendAll_cons]
    cases o with
    | enter container entity =>
      have he : ((selection.narrow (Markup.generator indentation)).attend
          (.enter container entity) marked).layout = marked.layout := by
        dsimp only [Generator.attend, Selection.narrow]
        cases selection.limit entity with
        | omitted => rfl
        | declaration => exact enter_layout entity marked
        | definition => exact enter_layout entity marked
      exact ih (he ▸ h) hr
    | leave entity => exact ih h hr
    | write w =>
      obtain ⟨s₁, hn, hr⟩ := Option.bind_eq_some_iff.mp hr
      exact ih (h.write hn) hr

/-- Reading the HTML rendering of a tree, tags deleted and entities decoded, gives its plain text
with the same selection and indentation. -/
theorem visibleText_renderHtml (indentation : Indentation) (selection : Selection)
    (entity : Entity) :
    ∃ content, renderHtml indentation selection entity =
        "<pre><code class=\"language-cpp\">" ++ content ++ "</code></pre>\n" ∧
      visibleText content = renderText indentation selection entity := by
  obtain ⟨s', hr, hs⟩ := leads_written selection.limit entity .blank LineState.noConfusion
  have hstart : Mirrors indentation.unit .blank {} ({} : Markup).layout :=
    ⟨rfl, rfl, ⟨LineState.noConfusion, Bool.noConfusion⟩, Or.inl rfl, Shows.nil⟩
  have hend := (hstart.attendAll selection hr).text_of_settled hs
  rw [renderHtml_eq, renderText_eq]
  refine ⟨_, rfl, ?_⟩
  rw [visibleText, hend.visibleChars_eq, String.ofList_toList]
  rfl

end HeaderSynopsis.Output
