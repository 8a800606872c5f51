import HeaderSynopsis.Output.Layout

namespace HeaderSynopsis.Output

open Writing Generation

theorem Indentation.eq_of_mem_unit {indentation : Indentation} {c : Char}
    (h : c ∈ indentation.unit.toList) : c = ' ' ∨ c = '\t' := by
  cases indentation with
  | spaces width =>
    rw [unit, String.toList_ofList] at h
    exact Or.inl (List.eq_of_mem_replicate h)
  | tab => exact Or.inr (List.mem_singleton.mp h)

namespace Layout

theorem margin_succ (unit : String) (level : Nat) :
    margin unit (level + 1) = unit ++ margin unit level := by
  rw [margin, List.replicate_succ, String.join_cons]
  rfl

/-- A margin consists of nothing but units. -/
theorem mem_unit_of_mem_margin {unit : String} {level : Nat} {c : Char}
    (h : c ∈ (margin unit level).toList) : c ∈ unit.toList := by
  rw [margin, String.toList_join, List.mem_flatMap] at h
  obtain ⟨repeated, hr, hc⟩ := h
  rwa [List.eq_of_mem_replicate hr] at hc

variable {unit text : String} {l : Layout}

def lead (unit : String) (l : Layout) : String := if l.atLineStart then margin unit l.level else ""

theorem lead_of_begun (h : l.atLineStart = false) : l.lead unit = "" := if_neg (by simp [h])

@[simp]
theorem put_empty : l.put unit "" = l := if_pos rfl

@[simp]
theorem put_level : (l.put unit text).level = l.level := by
  unfold put
  split
  · rfl
  · split <;> rfl

@[simp]
theorem put_nextLevel : (l.put unit text).nextLevel = l.nextLevel := by
  unfold put
  split
  · rfl
  · split <;> rfl

/-- A text on the line takes the margin with it if it is the first. -/
theorem put_text (h : text ≠ "") : (l.put unit text).text = l.text ++ l.lead unit ++ text := by
  unfold put lead
  rw [if_neg h]
  split
  · rfl
  · rw [String.append_empty]

theorem put_atLineStart (h : text ≠ "") : (l.put unit text).atLineStart = false := by
  unfold put
  rw [if_neg h]
  split
  · rfl
  · rename_i hs
    exact Bool.eq_false_iff.mpr hs

def blank (text : String) (level : Nat) : Layout := ⟨text, level, level, true⟩

def after (before : String) (l : Layout) : Layout := { l with text := before ++ l.text }

variable {before : String}

theorem after_blank (before text : String) (level : Nat) :
    (blank text level).after before = blank (before ++ text) level := rfl

theorem after_put (text : String) :
    (l.after before).put unit text = (l.put unit text).after before := by
  unfold put
  split
  · rfl
  · rw [after]
    dsimp only
    split
    · simp only [after, String.append_assoc]
    · simp only [after, String.append_assoc]

theorem after_write (w : Write) :
    (l.after before).write unit w = (l.write unit w).after before := by
  cases w with
  | token kind text => exact after_put text
  | reference targets name => exact after_put name
  | space => exact after_put " "
  | lineBreak => simp only [write, breakLine, after, String.append_assoc]
  | indent => rfl
  | unindent => rfl

end Layout

theorem after_writeAll {indentation : Indentation} (ws : List Write) (before : String) (l : Layout) :
    (Layout.generator indentation).writeAll ws (l.after before) =
      ((Layout.generator indentation).writeAll ws l).after before := by
  induction ws generalizing l with
  | nil => rfl
  | cons w ws ih =>
    rw [Generator.writeAll_cons, Generator.writeAll_cons, ← ih]
    exact congrArg _ (Layout.after_write w)

end HeaderSynopsis.Output
