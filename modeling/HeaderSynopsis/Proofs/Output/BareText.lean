import HeaderSynopsis.Proofs.Output.Deepening
import HeaderSynopsis.Proofs.Output.RecordedWrites
import HeaderSynopsis.Proofs.Output.Rendering
import Mathlib.Data.List.Forall2

namespace HeaderSynopsis.Output

open Declaration Writing Generation Text

def stepsText (ws : List Write) : String := String.join (ws.map Write.text)

theorem stepsText_cons (w : Write) (ws : List Write) :
    stepsText (w :: ws) = w.text ++ stepsText ws := String.join_cons

theorem stepsText_append (ws vs : List Write) :
    stepsText (ws ++ vs) = stepsText ws ++ stepsText vs := by
  simp [stepsText, String.join_append]

theorem writeAll_bareText (ws : List Write) (s : String) :
    bareText.writeAll ws s = s ++ stepsText ws := by
  induction ws generalizing s with
  | nil => exact String.append_empty.symm
  | cons w ws ih =>
    rw [Generator.writeAll_cons, ih, stepsText_cons, ← String.append_assoc]
    rfl

theorem bareText_decides : bareText.Decides fun _ => .definition := fun _ _ _ => rfl

/-- Decisions and ends of entities have no text. -/
theorem recordedText_map_of (shown : List Showing) :
    recordedText (shown.map Event.of) = stepsText (writesOf shown) := by
  induction shown with
  | nil => rfl
  | cons thing rest ih =>
    have hevent : recordedText ((thing :: rest).map Event.of) =
        (Event.of thing).text ++ recordedText (rest.map Event.of) := String.join_cons
    rw [hevent, ih]
    cases thing with
    | enter container entity => cases container <;> exact String.empty_append
    | leave entity => exact String.empty_append
    | write w => exact (stepsText_cons w (writesOf rest)).symm

theorem write?_of (thing : Showing) : (Event.of thing).write? = thing.write? := by
  cases thing with
  | enter container entity => cases container <;> rfl
  | leave entity => rfl
  | write w => rfl

/-- The steps in a complete record are those that write the whole tree. -/
theorem Recorder.filterMap_record (entity : Entity) :
    (({} : Recorder).record entity).1.filterMap Event.write? =
      written (fun _ => .definition) entity := by
  rw [record_of_willing rfl]
  change ((showings (fun _ => .definition) entity).map Event.of).filterMap Event.write? = _
  rw [List.filterMap_map, written, writesOf]
  exact List.filterMap_congr fun thing _ => write?_of thing

theorem Recorder.recordedText_record (entity : Entity) :
    recordedText (({} : Recorder).record entity).1 =
      stepsText (written (fun _ => .definition) entity) := by
  rw [record_of_willing rfl]
  exact recordedText_map_of _

theorem state_bareText (entity : Entity) :
    (generate bareText entity "").state = stepsText (written (fun _ => .definition) entity) := by
  rw [bareText_decides.generate_eq,
    bareText.attendAll_eq_writeAll (fun _ _ _ => rfl) (fun _ _ => rfl), writeAll_bareText]
  exact String.empty_append

theorem state_layout (indentation : Indentation) (entity : Entity) :
    (generate (Layout.generator indentation) entity {}).state =
      (Layout.generator indentation).writeAll (written (fun _ => .definition) entity) {} := by
  rw [(Layout.generator_decides indentation).generate_eq]
  exact Generator.attendAll_eq_writeAll _ (fun _ _ _ => rfl) (fun _ _ => rfl) _ _

namespace Layout

theorem margin_empty (level : Nat) : margin "" level = "" := by
  induction level with
  | zero => rfl
  | succ level ih => rw [margin_succ, ih]; rfl

/-- Without a unit every text comes right behind the one before it. -/
theorem text_put_unitless (text : String) (l : Layout) : (l.put "" text).text = l.text ++ text := by
  by_cases he : text = ""
  · rw [he, put_empty, String.append_empty]
  · have hlead : l.lead "" = "" := by
      rw [lead, margin_empty, ite_self]
    rw [put_text he, hlead, String.append_empty]

theorem text_write_unitless (w : Write) (l : Layout) : (l.write "" w).text = l.text ++ w.text := by
  cases w with
  | token kind text => exact text_put_unitless text l
  | reference targets name => exact text_put_unitless name l
  | space => exact text_put_unitless " " l
  | lineBreak => rfl
  | indent => exact String.append_empty.symm
  | unindent => exact String.append_empty.symm

theorem text_writeAll_unitless (ws : List Write) (l : Layout) :
    ((generator (.spaces 0)).writeAll ws l).text = l.text ++ stepsText ws := by
  induction ws generalizing l with
  | nil => exact String.append_empty.symm
  | cons w ws ih =>
    have hstep : ((generator (.spaces 0)).write w l).text = l.text ++ w.text :=
      text_write_unitless w l
    rw [Generator.writeAll_cons, ih, hstep, stepsText_cons, String.append_assoc]

end Layout

/-- A line with so many whole units in front of it, none if it is empty. -/
def Indents (unit : String) (line bare : List Char) : Prop :=
  ∃ level, line = (String.join (List.replicate level unit)).toList ++ bare ∧
    (bare = [] → level = 0)

theorem Indents.empty (unit : String) : Indents unit [] [] := ⟨0, rfl, fun _ => rfl⟩

/-- Text under way beside the same text without indentation. The lines before the last are as they
will stay, and the last one is empty in both until something is put on it. -/
def Unindented (unit : String) (l : Layout) (bare : String) : Prop :=
  ∃ lines bares line bareLine,
    splitFeeds l.text.toList = lines ++ [line] ∧ splitFeeds bare.toList = bares ++ [bareLine] ∧
      List.Forall₂ (Indents unit) lines bares ∧ Indents unit line bareLine ∧
      (l.atLineStart = true → line = [] ∧ bareLine = [])

namespace Unindented

variable {unit bare text : String} {l : Layout}

theorem start (unit : String) : Unindented unit {} "" :=
  ⟨[], [], [], [], rfl, rfl, .nil, .empty unit, fun _ => ⟨rfl, rfl⟩⟩

theorem forall₂ (h : Unindented unit l bare) :
    List.Forall₂ (Indents unit) (splitFeeds l.text.toList) (splitFeeds bare.toList) := by
  obtain ⟨lines, bares, line, bareLine, hl, hb, hlines, hline, -⟩ := h
  rw [hl, hb]
  exact List.rel_append hlines (.cons hline .nil)

theorem put (h : Unindented unit l bare) (hu : OneLine unit) (ht : OneLine text) :
    Unindented unit (l.put unit text) (bare ++ text) := by
  by_cases hne : text = ""
  · rwa [hne, Layout.put_empty, String.append_empty]
  have hchars : text.toList ≠ [] := fun he => hne (String.toList_eq_nil_iff.mp he)
  have hline : OneLine (l.lead unit ++ text) := by
    refine OneLine.append ?_ ht
    unfold Layout.lead
    split
    · exact oneLine_margin hu _
    · exact List.not_mem_nil
  obtain ⟨lines, bares, line, bareLine, hl, hb, hlines, ⟨level, hlevel, hempty⟩, hstart⟩ := h
  refine ⟨lines, bares, line ++ (l.lead unit ++ text).toList, bareLine ++ text.toList, ?_, ?_,
    hlines, ?_, fun hs => ?_⟩
  · rw [Layout.put_text hne, String.append_assoc, String.toList_append]
    exact splitFeeds_append hl (splitFeeds_line hline)
  · rw [String.toList_append]
    exact splitFeeds_append hb (splitFeeds_line ht)
  · have hnonempty : bareLine ++ text.toList ≠ [] :=
      fun he => hchars (List.append_eq_nil_iff.mp he).2
    -- The first text of a line brings the margin with it; a later one finds the margin there.
    cases hs : l.atLineStart with
    | true =>
      obtain ⟨rfl, rfl⟩ := hstart hs
      refine ⟨l.level, ?_, fun he => absurd he hnonempty⟩
      rw [Layout.lead, hs, String.toList_append]
      rfl
    | false =>
      refine ⟨level, ?_, fun he => absurd he hnonempty⟩
      rw [Layout.lead_of_begun hs, String.empty_append, hlevel, List.append_assoc]
  · exact absurd hs (by rw [Layout.put_atLineStart hne]; exact Bool.false_ne_true)

theorem breakLine (h : Unindented unit l bare) : Unindented unit l.breakLine (bare ++ "\n") := by
  obtain ⟨lines, bares, line, bareLine, hl, hb, hlines, hline, -⟩ := h
  have hfeed : splitFeeds "\n".toList = [] :: [[]] := by decide
  refine ⟨lines ++ [line], bares ++ [bareLine], [], [], ?_, ?_,
    List.rel_append hlines (.cons hline .nil), .empty unit, fun _ => ⟨rfl, rfl⟩⟩
  · rw [Layout.breakLine, String.toList_append, splitFeeds_append hl hfeed]
    simp
  · rw [String.toList_append, splitFeeds_append hb hfeed]
    simp

theorem write (h : Unindented unit l bare) (hu : OneLine unit) {w : Write} (hw : w.KeepsLine) :
    Unindented unit (l.write unit w) (bare ++ w.text) := by
  cases w with
  | token kind text => exact h.put hu (hw.resolve_left Write.noConfusion)
  | reference targets name => exact h.put hu (hw.resolve_left Write.noConfusion)
  | space =>
    have hspace : OneLine " " := by decide
    exact h.put hu hspace
  | lineBreak => exact h.breakLine
  | indent => rwa [Write.text, String.append_empty]
  | unindent => rwa [Write.text, String.append_empty]

theorem writeAll {indentation : Indentation} {ws : List Write}
    (h : Unindented indentation.unit l bare) (hws : ∀ w ∈ ws, w.KeepsLine) :
    Unindented indentation.unit ((Layout.generator indentation).writeAll ws l)
      (bare ++ stepsText ws) := by
  induction ws generalizing l bare with
  | nil => rwa [stepsText, List.map_nil, String.join_nil, String.append_empty]
  | cons w ws ih =>
    rw [List.forall_mem_cons] at hws
    rw [Generator.writeAll_cons, stepsText_cons, ← String.append_assoc]
    exact ih (h.write (oneLine_unit indentation) hws.1) hws.2

end Unindented

/-- The texts of a tree without indentation are the same, however they come about: step by step, from
a complete record, and with a unit of no blanks. If no step has a line feed in its text, the text
with any indentation has the same lines with whole units in front of them, none in front of an empty
line. -/
theorem plain_texts_agree (entity : Entity) :
    (generate bareText entity "").state = recordedText (({} : Recorder).record entity).1 ∧
      (generate (Layout.generator (.spaces 0)) entity {}).state.text =
        recordedText (({} : Recorder).record entity).1 ∧
      ∀ indentation,
        (∀ w ∈ (({} : Recorder).record entity).1.filterMap Event.write?, w.KeepsLine) →
        List.Forall₂ (Indents indentation.unit)
          (splitFeeds (generate (Layout.generator indentation) entity {}).state.text.toList)
          (splitFeeds (recordedText (({} : Recorder).record entity).1).toList) := by
  rw [state_bareText, Recorder.recordedText_record, Recorder.filterMap_record]
  refine ⟨rfl, ?_, fun indentation hws => ?_⟩
  · rw [state_layout, Layout.text_writeAll_unitless]
    exact String.empty_append
  · have h := (Unindented.start indentation.unit).writeAll hws
    rw [String.empty_append] at h
    rw [state_layout]
    exact h.forall₂

def canvas : Entity :=
  { Entity.ofKind (.namespaceScope false) "ui" with
    children :=
      [Entity.ofKind (.functionDecl { body := .statements ["begin();\n\nend();"] }) "draw"] }

theorem plain_texts_agree_canvas :
    (∀ w ∈ (({} : Recorder).record canvas).1.filterMap Event.write?, w.KeepsLine) ∧
      List.Forall₂ (Indents "\t")
        (splitFeeds (generate (Layout.generator .tab) canvas {}).state.text.toList)
        (splitFeeds (recordedText (({} : Recorder).record canvas).1).toList) := by
  have hsteps : ∀ w ∈ (({} : Recorder).record canvas).1.filterMap Event.write?, w.KeepsLine := by
    decide
  exact ⟨hsteps, (plain_texts_agree canvas).2.2 .tab hsteps⟩

example : (generate (Layout.generator .tab) canvas {}).state.text =
    "namespace ui \x7b\n\tdraw() \x7b\n\t\tbegin();\n\n\t\tend();\n\t\x7d\n\x7d\n" := by
  decide +kernel

end HeaderSynopsis.Output
