import HeaderSynopsis.Proofs.Output.LineMargins
import HeaderSynopsis.Proofs.Text.Lines
import HeaderSynopsis.Proofs.Writing.FaintLines

namespace HeaderSynopsis.Writing.LineLook

open Text

def Shows (text : String) : LineLook → Prop
  | .blank | .hollow => text = ""
  | .faint shown => shown = text ∧ Faint text.toList
  | .visible => isVisible text.toList = true

theorem Shows.put {line : LineLook} {before : String} (h : line.Shows before) (text : String) :
    (line.put text).Shows (before ++ text) := by
  have hstart : before = "" → (if isVisible text.toList then LineLook.visible
      else if text = "" then .hollow else .faint text).Shows (before ++ text) := by
    rintro rfl
    rw [String.empty_append]
    split
    · assumption
    · rename_i hv
      split
      · assumption
      · rename_i hne
        exact ⟨rfl, fun hnil => hne (String.toList_eq_nil_iff.mp hnil), Bool.eq_false_iff.mpr hv⟩
  cases line with
  | blank => exact hstart h
  | hollow => exact hstart h
  | visible =>
    have hv : isVisible before.toList = true := h
    simp [LineLook.put, Shows, isVisible_append, hv]
  | faint shown =>
    obtain ⟨rfl, hne, hfaint⟩ := h
    rw [LineLook.put]
    split
    · rename_i hv
      simp [Shows, isVisible_append, hv]
    · rename_i hv
      refine ⟨rfl, ?_⟩
      simp [Faint, isVisible_append, hfaint, hv, hne]

/-- The end of a line adds the line if it is faint. -/
theorem Shows.ended {line : LineLook} {text : String} {ended : List String}
    (h : line.Shows text) (he : line.ended? = some ended) : ended = faintOf [text] := by
  cases line with
  | hollow => cases he
  | blank =>
    obtain rfl : text = "" := h
    obtain rfl := Option.some.inj he
    rfl
  | visible =>
    have hv : isVisible text.toList = true := h
    obtain rfl := Option.some.inj he
    simp [faintOf, Faint, hv]
  | faint shown =>
    obtain ⟨rfl, hfaint⟩ := h
    obtain rfl := Option.some.inj he
    simp [faintOf, hfaint]

end HeaderSynopsis.Writing.LineLook

namespace HeaderSynopsis.Output

open Declaration Writing LineLook Generation Layout Text

/-- Steps without line breaks only add to the line. -/
theorem survey_line {line : List Write} (h : .lineBreak ∉ line) {s s' : Survey} {before : String}
    (hs : s.line.Shows before) (hrun : Survey.run? line s = some s') :
    s'.faint = s.faint ∧ s'.line.Shows (before ++ stepsText line) := by
  induction line generalizing s before with
  | nil =>
    obtain rfl := Option.some.inj hrun
    have hempty : before ++ stepsText [] = before := String.append_empty
    rw [hempty]
    exact ⟨rfl, hs⟩
  | cons w rest ih =>
    rw [List.mem_cons, not_or] at h
    obtain ⟨s₁, hnext, hrun⟩ := Option.bind_eq_some_iff.mp hrun
    -- Within a line no step ends one, so that nothing is added to the faint lines.
    obtain ⟨hfaint, hline⟩ : s₁.faint = s.faint ∧ s₁.line.Shows (before ++ w.text) := by
      have hput (text : String) (he : some (s.put text) = some s₁) :
          s₁.faint = s.faint ∧ s₁.line.Shows (before ++ text) := by
        obtain rfl := Option.some.inj he
        exact ⟨rfl, hs.put text⟩
      have hstay (he : some s = some s₁) :
          s₁.faint = s.faint ∧ s₁.line.Shows (before ++ "") := by
        obtain rfl := Option.some.inj he
        rw [String.append_empty]
        exact ⟨rfl, hs⟩
      cases w with
      | token kind text => exact hput text hnext
      | reference targets name => exact hput name hnext
      | space => exact hput " " hnext
      | lineBreak => exact absurd rfl h.1
      | indent => exact hstay hnext
      | unindent =>
        rw [Survey.next?] at hnext
        split at hnext
        · cases hnext
        · exact hstay hnext
    have hrest := ih h.2 hline hrun
    rw [stepsText_cons, ← String.append_assoc, ← hfaint]
    exact hrest

/-- Of several lines all but the last one have ended. -/
theorem survey_lines {lines : List (List Write)} (hne : lines ≠ [])
    (h : ∀ line ∈ lines, .lineBreak ∉ line) {s s' : Survey} (hs : s.line = .blank)
    (hrun : Survey.run? ([.lineBreak].intercalate lines) s = some s') :
    ∃ last, s'.line.Shows last ∧
      s.faint ++ faintOf (lines.map stepsText) = s'.faint ++ faintOf [last] := by
  have hblank : s.line.Shows "" := by
    rw [hs]
    rfl
  induction lines generalizing s with
  | nil => exact absurd rfl hne
  | cons line rest ih =>
    rw [List.forall_mem_cons] at h
    cases rest with
    | nil =>
      rw [List.intercalate_singleton] at hrun
      obtain ⟨hfaint, hline⟩ := survey_line h.1 hblank hrun
      rw [String.empty_append] at hline
      exact ⟨stepsText line, hline, by rw [hfaint]; rfl⟩
    | cons next others =>
      rw [List.intercalate_cons_cons, List.append_assoc, Survey.run?_append] at hrun
      obtain ⟨s₁, hfirst, hrun⟩ := Option.bind_eq_some_iff.mp hrun
      obtain ⟨s₂, hbreak, hrun⟩ := Option.bind_eq_some_iff.mp hrun
      obtain ⟨ended, hended, rfl⟩ := Option.map_eq_some_iff.mp hbreak
      obtain ⟨hfaint, hline⟩ := survey_line h.1 hblank hfirst
      rw [String.empty_append] at hline
      obtain ⟨last, hlast, hrest⟩ := ih (List.cons_ne_nil _ _) h.2 rfl hrun rfl
      refine ⟨last, hlast, ?_⟩
      -- The line break adds the first line if it is faint, and the others begin on a blank one.
      calc s.faint ++ faintOf ((line :: next :: others).map stepsText)
          = s.faint ++ (faintOf [stepsText line] ++ faintOf ((next :: others).map stepsText)) := by
            rw [← faintOf_append]
            rfl
        _ = s₁.faint ++ ended ++ faintOf ((next :: others).map stepsText) := by
            rw [hline.ended hended, hfaint, List.append_assoc]
        _ = s'.faint ++ faintOf [last] := hrest

/-- From a blank line to a blank line, the steps leave behind exactly the faint ones among the lines
that are written. -/
theorem faintOf_splitOn {ws : List Write} {lines : List String}
    (h : Leaves (Seen false) ws lines (Seen false)) :
    faintOf ((ws.splitOn .lineBreak).map stepsText) = faintOf lines := by
  obtain ⟨line, hrun, hline⟩ := h {} rfl
  have hjoin : [.lineBreak].intercalate (ws.splitOn .lineBreak) = ws := List.intercalate_splitOn _
  rw [← hjoin] at hrun
  obtain ⟨last, hlast, hfaint⟩ := survey_lines (List.splitOn_ne_nil _ _)
    (lineBreak_notMem_of_mem_splitOn ws) rfl hrun
  -- Nothing is on the last line, so that it does not count.
  obtain rfl : line = .blank := hline
  obtain rfl : last = "" := hlast
  simpa [faintOf, Faint] using hfaint

variable {indentation : Indentation}

theorem isVisible_margin (depth : Nat) :
    isVisible (margin indentation.unit depth).toList = false := by
  rw [isVisible, List.any_eq_false]
  intro c hc
  rcases Indentation.eq_of_mem_unit (mem_unit_of_mem_margin hc) with rfl | rfl
  · decide
  · decide

/-- The margin of a line does not decide whether the line is faint. -/
theorem faint_laidOut_iff (depth : Nat) (line : List Write) :
    Faint (laidOut indentation.unit depth line).toList ↔ Faint (stepsText line).toList := by
  rw [laidOut_eq_margin]
  split
  · rename_i hempty
    rw [stepsText_of_empty hempty]
  · rename_i hnot
    have hne : (stepsText line).toList ≠ [] := by
      obtain ⟨w, rest, hline, hw⟩ := exists_first_text hnot
      rw [hline, stepsText_append, stepsText_cons]
      simp [hw]
    have hmargin : isVisible (margin indentation.unit (marginDepth depth line)).toList = false :=
      isVisible_margin _
    simp [Faint, isVisible_append, hmargin, hne]

theorem forall_laidOutLines_iff (depth : Nat) (lines : List (List Write)) :
    (∀ line ∈ laidOutLines indentation.unit depth lines, ¬Faint line.toList) ↔
      ∀ line ∈ lines.map stepsText, ¬Faint line.toList := by
  induction lines generalizing depth with
  | nil => exact Iff.rfl
  | cons line rest ih =>
    rw [laidOutLines, List.map_cons, List.forall_mem_cons, List.forall_mem_cons,
      faint_laidOut_iff, ih]

theorem oneLine_stepsText {line : List Write} (h : ∀ w ∈ line, OneLine w.text) :
    OneLine (stepsText line) := by
  induction line with
  | nil => decide
  | cons w rest ih =>
    rw [List.forall_mem_cons] at h
    rw [stepsText_cons]
    exact h.1.append (ih h.2)

theorem oneLine_laidOutLines {lines : List (List Write)}
    (h : ∀ line ∈ lines, ∀ w ∈ line, OneLine w.text) (depth : Nat) :
    ∀ line ∈ laidOutLines indentation.unit depth lines, OneLine line := by
  induction lines generalizing depth with
  | nil => exact fun _ hline => absurd hline List.not_mem_nil
  | cons line rest ih =>
    rw [List.forall_mem_cons] at h
    rw [laidOutLines, List.forall_mem_cons]
    refine ⟨?_, ih h.2 _⟩
    rw [laidOut_eq_margin]
    split
    · decide
    · exact (oneLine_margin (oneLine_unit indentation) _).append (oneLine_stepsText h.1)

/-- What stands on a line is one of the steps. -/
theorem subset_of_mem_splitOn (ws : List Write) : ∀ line ∈ ws.splitOn .lineBreak, line ⊆ ws := by
  induction ws with
  | nil => simp
  | cons w rest ih =>
    obtain ⟨first, others, hs⟩ :=
      List.exists_cons_of_ne_nil (List.splitOn_ne_nil Write.lineBreak rest)
    rw [hs, List.forall_mem_cons] at ih
    have hothers : ∀ line ∈ others, line ⊆ w :: rest :=
      fun line hline => List.subset_cons_of_subset w (ih.2 line hline)
    rw [List.splitOn_cons_eq_if_modifyHead, hs]
    split
    · rw [List.forall_mem_cons, List.forall_mem_cons]
      exact ⟨List.nil_subset _, List.subset_cons_of_subset w ih.1, hothers⟩
    · rw [List.modifyHead_cons, List.forall_mem_cons]
      exact ⟨List.cons_subset_cons w ih.1, hothers⟩

/-- The lines of a text, if line feeds only come from steps that break the line. -/
theorem splitFeeds_writeAll {ws : List Write} (h : ∀ w ∈ ws, w.KeepsLine) :
    splitFeeds ((Layout.generator indentation).writeAll ws {}).text.toList =
      (laidOutLines indentation.unit 0 (ws.splitOn .lineBreak)).map String.toList := by
  have hlines : ∀ line ∈ ws.splitOn .lineBreak, ∀ w ∈ line, OneLine w.text := by
    intro line hline w hw
    refine (h w (subset_of_mem_splitOn ws line hline hw)).resolve_left ?_
    rintro rfl
    exact lineBreak_notMem_of_mem_splitOn ws line hline hw
  have hne : laidOutLines indentation.unit 0 (ws.splitOn .lineBreak) ≠ [] := by
    obtain ⟨line, rest, hs⟩ := List.exists_cons_of_ne_nil (List.splitOn_ne_nil Write.lineBreak ws)
    rw [hs]
    exact List.cons_ne_nil _ _
  rw [text_writeAll_eq_laidOutLines, String.toList_intercalate]
  apply splitFeeds_intercalate
  · simpa using hne
  · exact List.forall_mem_map.mpr (oneLine_laidOutLines hlines 0)

/-- A text that begins and ends with a blank line has a faint line exactly if one is left behind. -/
theorem no_faint_line_writeAll_iff {ws : List Write} {lines : List String}
    (hk : ∀ w ∈ ws, w.KeepsLine) (h : Leaves (Seen false) ws lines (Seen false)) :
    (∀ line ∈ splitFeeds ((Layout.generator indentation).writeAll ws {}).text.toList,
        ¬Faint line) ↔ ∀ line ∈ lines, ¬Faint line.toList := by
  rw [splitFeeds_writeAll hk, List.forall_mem_map, forall_laidOutLines_iff, ← faintOf_eq_nil_iff,
    faintOf_splitOn h, faintOf_eq_nil_iff]

end HeaderSynopsis.Output
