import HeaderSynopsis.Proofs.Output.IndentedLines
import HeaderSynopsis.Proofs.Output.Levels
import HeaderSynopsis.Proofs.Writing.KeptLines

namespace HeaderSynopsis.Output

open Declaration Writing Generation Text

theorem oneLine_unit (indentation : Indentation) : OneLine indentation.unit := by
  intro h
  rcases Indentation.eq_of_mem_unit h with he | he
  · exact absurd he (by decide)
  · exact absurd he (by decide)

theorem oneLine_margin {unit : String} (h : OneLine unit) (level : Nat) :
    OneLine (Layout.margin unit level) :=
  fun hm => h (Layout.mem_unit_of_mem_margin hm)

namespace Layout

variable {unit before : String} {l deep : Layout}

/-- A layout is another one level deeper, behind some text: the lines of the other one have one more
unit in front of them. -/
structure Deepened (unit before : String) (l deep : Layout) : Prop where
  text : deep.text = before ++ indentLines unit l.text
  start : l.atLineStart = opensLine l.text
  atLineStart : deep.atLineStart = l.atLineStart
  level : deep.level = l.level + 1
  nextLevel : deep.nextLevel = l.nextLevel + 1

namespace Deepened

theorem put (h : Deepened unit before l deep) (hu : OneLine unit) {text : String}
    (ht : OneLine text) : Deepened unit before (l.put unit text) (deep.put unit text) := by
  by_cases hne : text = ""
  · rw [hne, put_empty, put_empty]
    exact h
  -- With its margin the text is still one line, so that at most one unit comes in front of it.
  have hline : OneLine (l.lead unit ++ text) := by
    refine OneLine.append ?_ ht
    unfold lead
    split
    · exact oneLine_margin hu _
    · exact List.not_mem_nil
  have hlne : l.lead unit ++ text ≠ "" := by
    intro he
    exact hne (String.append_eq_empty_iff.mp he).2
  have hlead : deep.lead unit = (if opensLine l.text then unit else "") ++ l.lead unit := by
    unfold lead
    rw [h.atLineStart, ← h.start, h.level, margin_succ]
    cases l.atLineStart <;> simp
  have hbegun : (l.put unit text).atLineStart = false := put_atLineStart hne
  refine ⟨?_, ?_, ?_, ?_, ?_⟩
  · rw [put_text hne, put_text hne, hlead, h.text, @String.append_assoc l.text,
      indentLines_append hline hlne]
    simp only [String.append_assoc]
  · rw [hbegun, put_text hne, String.append_assoc, opensLine_append hline hlne]
  · rw [hbegun, put_atLineStart hne]
  · rw [put_level, put_level, h.level]
  · rw [put_nextLevel, put_nextLevel, h.nextLevel]

theorem breakLine (h : Deepened unit before l deep) :
    Deepened unit before l.breakLine deep.breakLine := by
  refine ⟨?_, (opensLine_feed l.text).symm, rfl, h.nextLevel, h.nextLevel⟩
  simp only [Layout.breakLine]
  rw [h.text, indentLines_feed, String.append_assoc]

theorem deeper (h : Deepened unit before l deep) :
    Deepened unit before l.deeper deep.deeper :=
  ⟨h.text, h.start, h.atLineStart, h.level, congrArg (· + 1) h.nextLevel⟩

theorem shallower (h : Deepened unit before l deep) (hl : l.nextLevel ≠ 0) :
    Deepened unit before l.shallower deep.shallower := by
  -- At level zero only the deeper one would change, but `hl` keeps both above it.
  have hlevel := h.level
  have hnext := h.nextLevel
  refine ⟨h.text, h.start, h.atLineStart, ?_, ?_⟩
  · simp only [Layout.shallower, h.atLineStart]
    split <;> omega
  · simp only [Layout.shallower]
    omega

end Deepened

end Layout

open Layout

variable {indentation : Indentation} {before : String} {l deep : Layout}

/-- Steps that are paired, here and one level deeper. -/
theorem Layout.Deepened.writeAll {inside : Bool} {ws : List Write} (hp : Paired inside ws)
    (hk : ∀ w ∈ ws, w.KeepsLine) (hl : inside = true → l.nextLevel ≠ 0)
    (h : Deepened indentation.unit before l deep) :
    Deepened indentation.unit before ((Layout.generator indentation).writeAll ws l)
      ((Layout.generator indentation).writeAll ws deep) := by
  have hu := oneLine_unit indentation
  induction hp generalizing l deep with
  | nil => exact h
  | @plain _ w hplain =>
    rw [List.forall_mem_singleton] at hk
    cases w with
    | token kind text => exact h.put hu (hk.resolve_left Write.noConfusion)
    | reference targets name => exact h.put hu (hk.resolve_left Write.noConfusion)
    | space =>
      have hspace : OneLine " " := by decide
      exact h.put hu hspace
    | lineBreak => exact h.breakLine
    | indent => exact absurd hplain Bool.false_ne_true
    | unindent => exact absurd hplain Bool.false_ne_true
  | append hfirst _ ih ih' =>
    rw [List.forall_mem_append] at hk
    rw [Generator.writeAll_append, Generator.writeAll_append]
    -- The first part leaves the level as it was, so the second one may still go down one level.
    exact ih' hk.2 (by rwa [nextLevel_of_paired hfirst l hl]) (ih hk.1 hl h)
  | @group _ ws opener closer _ hinner ih =>
    simp only [List.forall_mem_append, List.forall_mem_singleton] at hk
    obtain ⟨⟨hopener, hws⟩, hcloser⟩ := hk
    simp only [Generator.writeAll_append]
    have hopened := h.put hu (hopener.resolve_left Write.noConfusion)
    exact (ih hws (by rwa [put_nextLevel]) hopened).put hu (hcloser.resolve_left Write.noConfusion)
  | @block _ ws hinner ih =>
    simp only [List.forall_mem_append] at hk
    simp only [Generator.writeAll_append]
    have hpos : l.deeper.nextLevel ≠ 0 := Nat.succ_ne_zero _
    refine (ih hk.1.2 (fun _ => hpos) h.deeper).shallower ?_
    rwa [nextLevel_of_paired hinner _ fun _ => hpos]
  | @label ws _ ih =>
    simp only [List.forall_mem_append] at hk
    simp only [Generator.writeAll_append]
    exact (ih hk.1.2 (fun h => absurd h Bool.false_ne_true) (h.shallower (hl rfl))).deeper

end HeaderSynopsis.Output
