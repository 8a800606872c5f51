import HeaderSynopsis.Proofs.Output.BareText
import Mathlib.Data.List.Infix
import Mathlib.Data.List.TakeWhile

/-!
Indented text line by line. The steps are cut at the line breaks, and each line is laid out by what
is on it and by how deep the steps before it lead. Its margin is the least of the depth at its start
and the depths to which it is lowered before its first text. Main result: what is written is the
lines that are laid out this way, joined by line feeds.
-/

namespace HeaderSynopsis.Output

open Writing Generation Layout

def depthAfter (depth : Nat) : Write → Nat
  | .indent => depth + 1
  | .unindent => depth - 1
  | _ => depth

def runningDepth (depth : Nat) (ws : List Write) : Nat := ws.foldl depthAfter depth

def loweredDepths (depth : Nat) (ws : List Write) : List Nat :=
  (ws.inits.filter fun before => before.getLast? = some .unindent).map (runningDepth depth)

def blankPart (line : List Write) : List Write := line.takeWhile fun w => w.text = ""

/-- How deep a line is indented that begins at some depth. -/
def marginDepth (depth : Nat) (line : List Write) : Nat :=
  (loweredDepths depth (blankPart line)).foldl min depth

/-- A line behind the unit repeated as often as it is deep, nothing without any text on it. -/
def laidOut (unit : String) (depth : Nat) (line : List Write) : String :=
  if ∀ w ∈ line, w.text = "" then ""
  else String.join (List.replicate (marginDepth depth line) unit) ++ stepsText line

theorem laidOut_eq_margin (unit : String) (depth : Nat) (line : List Write) :
    laidOut unit depth line = if ∀ w ∈ line, w.text = "" then ""
      else margin unit (marginDepth depth line) ++ stepsText line := rfl

def laidOutLines (unit : String) (depth : Nat) : List (List Write) → List String
  | [] => []
  | line :: rest => laidOut unit depth line :: laidOutLines unit (runningDepth depth line) rest

theorem stepsText_of_empty {ws : List Write} (h : ∀ w ∈ ws, w.text = "") : stepsText ws = "" := by
  induction ws with
  | nil => rfl
  | cons w rest ih =>
    rw [List.forall_mem_cons] at h
    rw [stepsText_cons, h.1, ih h.2, String.empty_append]

theorem runningDepth_append (depth : Nat) (ws vs : List Write) :
    runningDepth depth (ws ++ vs) = runningDepth (runningDepth depth ws) vs := List.foldl_append

theorem loweredDepths_concat (depth : Nat) (ws : List Write) (w : Write) :
    loweredDepths depth (ws ++ [w]) =
      loweredDepths depth ws ++
        if w = .unindent then [runningDepth depth (ws ++ [w])] else [] := by
  have hinits : (ws ++ [w]).inits = ws.inits ++ [ws ++ [w]] := by
    rw [List.inits_append]
    rfl
  rw [loweredDepths, hinits, List.filter_append, List.map_append]
  by_cases hw : w = .unindent
  · simp [loweredDepths, hw]
  · simp [loweredDepths, hw]

variable {indentation : Indentation}

/-- A step changes the level of the next line as it changes the depth. -/
theorem nextLevel_writeAll_eq (ws : List Write) (l : Layout) :
    ((Layout.generator indentation).writeAll ws l).nextLevel = runningDepth l.nextLevel ws := by
  induction ws generalizing l with
  | nil => rfl
  | cons w rest ih =>
    have hstep : ((Layout.generator indentation).write w l).nextLevel =
        depthAfter l.nextLevel w := by
      cases w with
      | token kind text => exact put_nextLevel
      | reference targets name => exact put_nextLevel
      | space => exact put_nextLevel
      | lineBreak => rfl
      | indent => rfl
      | unindent => rfl
    rw [Generator.writeAll_cons, ih, hstep]
    rfl

/-- Before its first text a line is lowered at once, but never deepened. -/
theorem writeAll_blankPart {ws : List Write} (h : ∀ w ∈ ws, w.text = "") (text : String)
    (depth : Nat) :
    (Layout.generator indentation).writeAll ws (blank text depth) =
      ⟨text, (loweredDepths depth ws).foldl min depth, runningDepth depth ws, true⟩ := by
  induction ws using List.reverseRecOn with
  | nil => rfl
  | append_singleton ws w ih =>
    rw [List.forall_mem_append, List.forall_mem_singleton] at h
    obtain ⟨hbefore, hw⟩ := h
    have hdepth : runningDepth depth (ws ++ [w]) = depthAfter (runningDepth depth ws) w :=
      runningDepth_append depth ws [w]
    rw [Generator.writeAll_append, ih hbefore, loweredDepths_concat, List.foldl_append, hdepth]
    cases w with
    | token kind text => exact if_pos hw
    | reference targets name => exact if_pos hw
    | space => exact absurd hw (by decide)
    | lineBreak => exact absurd hw (by decide)
    | indent => rfl
    | unindent => rfl

/-- A step without text puts nothing on the line. -/
theorem write_of_empty {w : Write} (hw : w.text = "") (l : Layout) :
    ((Layout.generator indentation).write w l).text = l.text ∧
      ((Layout.generator indentation).write w l).atLineStart = l.atLineStart := by
  have hput {text : String} (h : text = "") :
      (l.put indentation.unit text).text = l.text ∧
        (l.put indentation.unit text).atLineStart = l.atLineStart := by
    rw [h, put_empty]
    exact ⟨rfl, rfl⟩
  cases w with
  | token kind text => exact hput hw
  | reference targets name => exact hput hw
  | space => exact absurd hw (by decide)
  | lineBreak => exact absurd hw (by decide)
  | indent => exact ⟨rfl, rfl⟩
  | unindent => exact ⟨rfl, rfl⟩

/-- A step with a text puts it on the line, behind the margin if it is the first. -/
theorem write_of_text {w : Write} (hw : w.text ≠ "") (hb : w ≠ .lineBreak) (l : Layout) :
    ((Layout.generator indentation).write w l).text =
        l.text ++ l.lead indentation.unit ++ w.text ∧
      ((Layout.generator indentation).write w l).atLineStart = false := by
  cases w with
  | token kind text => exact ⟨put_text hw, put_atLineStart hw⟩
  | reference targets name => exact ⟨put_text hw, put_atLineStart hw⟩
  | space => exact ⟨put_text hw, put_atLineStart hw⟩
  | lineBreak => exact absurd rfl hb
  | indent => exact absurd rfl hw
  | unindent => exact absurd rfl hw

/-- On a line that has begun, texts are put as they are. -/
theorem text_writeAll_begun {ws : List Write} (h : .lineBreak ∉ ws) {l : Layout}
    (hl : l.atLineStart = false) :
    ((Layout.generator indentation).writeAll ws l).text = l.text ++ stepsText ws := by
  induction ws generalizing l with
  | nil => exact String.append_empty.symm
  | cons w rest ih =>
    rw [List.mem_cons, not_or] at h
    rw [Generator.writeAll_cons, stepsText_cons]
    by_cases hw : w.text = ""
    · obtain ⟨htext, hstart⟩ : ((Layout.generator indentation).write w l).text = l.text ∧
          ((Layout.generator indentation).write w l).atLineStart = l.atLineStart :=
        write_of_empty hw l
      rw [ih h.2 (hstart.trans hl), htext, hw, String.empty_append]
    · obtain ⟨htext, hstart⟩ : ((Layout.generator indentation).write w l).text =
            l.text ++ l.lead indentation.unit ++ w.text ∧
          ((Layout.generator indentation).write w l).atLineStart = false :=
        write_of_text hw (Ne.symm h.1) l
      rw [ih h.2 hstart, htext, lead_of_begun hl, String.append_empty, String.append_assoc]

/-- On a line that has any text, the first one stands behind the part that is blank. -/
theorem exists_first_text {line : List Write} (h : ¬∀ w ∈ line, w.text = "") :
    ∃ w rest, line = blankPart line ++ w :: rest ∧ w.text ≠ "" := by
  have hvisible : (line.dropWhile fun w => decide (w.text = "")) ≠ [] := by
    simpa using h
  obtain ⟨w, rest, hw⟩ := List.exists_cons_of_ne_nil hvisible
  refine ⟨w, rest, ?_, ?_⟩
  · rw [← hw]
    exact List.takeWhile_append_dropWhile.symm
  · have hnot := List.head_dropWhile_not _ hvisible
    simpa [hw] using hnot

/-- A line that begins blank is laid out. -/
theorem text_writeAll_line {line : List Write} (h : .lineBreak ∉ line) (text : String)
    (depth : Nat) :
    ((Layout.generator indentation).writeAll line (blank text depth)).text =
      text ++ laidOut indentation.unit depth line := by
  by_cases hempty : ∀ w ∈ line, w.text = ""
  · rw [writeAll_blankPart hempty, laidOut_eq_margin, if_pos hempty, String.append_empty]
  · obtain ⟨w, rest, hline, hw⟩ := exists_first_text hempty
    have hblank : ∀ v ∈ blankPart line, v.text = "" := by
      intro v hv
      simpa using List.mem_takeWhile_imp hv
    have hrest : .lineBreak ∉ w :: rest := by
      intro hm
      rw [hline] at h
      exact h (List.mem_append_right _ hm)
    rw [List.mem_cons, not_or] at hrest
    -- The blank part has left the margin of the line, which comes with the first text.
    let begun := (Layout.generator indentation).write w
      ⟨text, marginDepth depth line, runningDepth depth (blankPart line), true⟩
    obtain ⟨htext, hstart⟩ : begun.text =
          text ++ margin indentation.unit (marginDepth depth line) ++ w.text ∧
        begun.atLineStart = false := write_of_text hw (Ne.symm hrest.1) _
    have hsteps : stepsText line = w.text ++ stepsText rest := by
      rw [hline, stepsText_append, stepsText_of_empty hblank, stepsText_cons, String.empty_append]
    calc ((Layout.generator indentation).writeAll line (blank text depth)).text
        = ((Layout.generator indentation).writeAll (w :: rest)
            ⟨text, marginDepth depth line, runningDepth depth (blankPart line), true⟩).text := by
          conv_lhs => rw [hline]
          rw [Generator.writeAll_append, writeAll_blankPart hblank]
          rfl
      _ = begun.text ++ stepsText rest := text_writeAll_begun hrest.2 hstart
      _ = text ++ laidOut indentation.unit depth line := by
          rw [htext, laidOut_eq_margin, if_neg hempty, hsteps]
          simp only [String.append_assoc]

/-- No line has a line break on it. -/
theorem lineBreak_notMem_of_mem_splitOn (ws : List Write) :
    ∀ line ∈ ws.splitOn .lineBreak, .lineBreak ∉ line := by
  induction ws with
  | nil => simp
  | cons w rest ih =>
    obtain ⟨line, others, hs⟩ :=
      List.exists_cons_of_ne_nil (List.splitOn_ne_nil Write.lineBreak rest)
    rw [List.splitOn_cons_eq_if_modifyHead, hs]
    rw [hs, List.forall_mem_cons] at ih
    split
    · exact List.forall_mem_cons.mpr ⟨List.not_mem_nil, List.forall_mem_cons.mpr ih⟩
    · rename_i hw
      refine List.forall_mem_cons.mpr ⟨?_, ih.2⟩
      intro hm
      rcases List.mem_cons.mp hm with he | hm
      · exact hw (beq_iff_eq.mpr he.symm)
      · exact ih.1 hm

/-- Lines are laid out one after the other. -/
theorem text_writeAll_lines {lines : List (List Write)} (hne : lines ≠ [])
    (h : ∀ line ∈ lines, .lineBreak ∉ line) (text : String) (depth : Nat) :
    ((Layout.generator indentation).writeAll ([.lineBreak].intercalate lines)
        (blank text depth)).text =
      text ++ "\n".intercalate (laidOutLines indentation.unit depth lines) := by
  induction lines generalizing text depth with
  | nil => exact absurd rfl hne
  | cons line rest ih =>
    rw [List.forall_mem_cons] at h
    have hline : ((Layout.generator indentation).writeAll line (blank text depth)).text =
        text ++ laidOut indentation.unit depth line := text_writeAll_line h.1 text depth
    cases rest with
    | nil =>
      rw [List.intercalate_singleton, hline]
      rfl
    | cons next others =>
      -- The line break leaves a blank line on the level that the steps so far lead to.
      have hbreak : (Layout.generator indentation).writeAll (line ++ [.lineBreak])
          (blank text depth) =
            blank (text ++ laidOut indentation.unit depth line ++ "\n")
              (runningDepth depth line) := by
        have hlevel : ((Layout.generator indentation).writeAll line (blank text depth)).nextLevel =
            runningDepth depth line := nextLevel_writeAll_eq line _
        rw [Generator.writeAll_append, ← hline, ← hlevel]
        rfl
      have hrest := ih (List.cons_ne_nil _ _) h.2
        (text ++ laidOut indentation.unit depth line ++ "\n") (runningDepth depth line)
      calc ((Layout.generator indentation).writeAll
            ([.lineBreak].intercalate (line :: next :: others)) (blank text depth)).text
          = text ++ laidOut indentation.unit depth line ++ "\n" ++ "\n".intercalate
              (laidOutLines indentation.unit (runningDepth depth line) (next :: others)) := by
            rw [List.intercalate_cons_cons, Generator.writeAll_append, hbreak, hrest]
        _ = text ++ "\n".intercalate
              (laidOutLines indentation.unit depth (line :: next :: others)) := by
            simp only [laidOutLines, String.intercalate_cons_cons, String.append_assoc]

/-- Whatever is written, the text is the lines of the steps, each laid out by its own steps and the
depth that it begins at. -/
theorem text_writeAll_eq_laidOutLines (indentation : Indentation) (ws : List Write) :
    ((Layout.generator indentation).writeAll ws {}).text =
      "\n".intercalate (laidOutLines indentation.unit 0 (ws.splitOn .lineBreak)) := by
  have hlines : ∀ line ∈ ws.splitOn .lineBreak, .lineBreak ∉ line := by
    exact lineBreak_notMem_of_mem_splitOn ws
  calc ((Layout.generator indentation).writeAll ws {}).text
      = ((Layout.generator indentation).writeAll
          ([.lineBreak].intercalate (ws.splitOn .lineBreak)) (blank "" 0)).text := by
        rw [List.intercalate_splitOn]
        rfl
    _ = "" ++ "\n".intercalate (laidOutLines indentation.unit 0 (ws.splitOn .lineBreak)) :=
        text_writeAll_lines (List.splitOn_ne_nil _ _) hlines "" 0
    _ = _ := String.empty_append

-- On the second line the depth is lowered behind its first text, which is too late for its margin.
example :
    laidOutLines "\t" 0 [[.indent], [.punctuation "a", .unindent, .punctuation "b"],
        [.indent, .punctuation "c"]] = ["", "\tab", "c"] := by
  decide +kernel

end HeaderSynopsis.Output
