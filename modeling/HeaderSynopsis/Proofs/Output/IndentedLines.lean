import HeaderSynopsis.Proofs.Text.Lines

namespace HeaderSynopsis.Output

open Text

def indentLine (unit line : List Char) : List Char := if line = [] then [] else unit ++ line

def indentLines (unit text : String) : String :=
  String.ofList (['\n'].intercalate ((splitFeeds text.toList).map (indentLine unit.toList)))

example : indentLines "  " "a:\n\n  b\nc\n" = "  a:\n\n    b\n  c\n" := by decide +kernel

/-- Some characters with the unit in front of the first of each line. The first line may already
have begun. -/
def indentFrom (unit : List Char) : Bool → List Char → List Char
  | _, [] => []
  | start, c :: rest =>
      if c = '\n' then c :: indentFrom unit true rest
      else (if start then unit else []) ++ c :: indentFrom unit false rest

def startAfter : Bool → List Char → Bool
  | start, [] => start
  | _, c :: rest => startAfter (c = '\n') rest

section

variable {unit : List Char}

theorem startAfter_append (start : Bool) (cs ds : List Char) :
    startAfter start (cs ++ ds) = startAfter (startAfter start cs) ds := by
  induction cs generalizing start with
  | nil => rfl
  | cons c rest ih => exact ih _

theorem indentFrom_append (start : Bool) (cs ds : List Char) :
    indentFrom unit start (cs ++ ds) =
      indentFrom unit start cs ++ indentFrom unit (startAfter start cs) ds := by
  induction cs generalizing start with
  | nil => rfl
  | cons c rest ih =>
    rw [List.cons_append, indentFrom, indentFrom, startAfter]
    by_cases hc : c = '\n'
    · rw [if_pos hc, if_pos hc, ih, decide_eq_true hc, List.cons_append]
    · rw [if_neg hc, if_neg hc, ih, decide_eq_false hc, List.append_assoc, List.cons_append]

/-- Characters on a line that has begun are left alone. -/
theorem indentFrom_begun {cs : List Char} (h : '\n' ∉ cs) : indentFrom unit false cs = cs := by
  induction cs with
  | nil => rfl
  | cons c rest ih =>
    have hc : c ≠ '\n' := fun he => h (he ▸ List.mem_cons_self)
    rw [indentFrom, if_neg hc, ih fun hm => h (List.mem_cons_of_mem c hm)]
    rfl

/-- The characters of one line get the unit if they begin it. -/
theorem indentFrom_line {cs : List Char} (h : '\n' ∉ cs) (hne : cs ≠ []) (start : Bool) :
    indentFrom unit start cs = (if start then unit else []) ++ cs := by
  cases cs with
  | nil => exact absurd rfl hne
  | cons c rest =>
    have hc : c ≠ '\n' := fun he => h (he ▸ List.mem_cons_self)
    rw [indentFrom, if_neg hc, indentFrom_begun fun hm => h (List.mem_cons_of_mem c hm)]

theorem startAfter_line {cs : List Char} (h : '\n' ∉ cs) (hne : cs ≠ []) (start : Bool) :
    startAfter start cs = false := by
  induction cs generalizing start with
  | nil => exact absurd rfl hne
  | cons c rest ih =>
    have hc : c ≠ '\n' := fun he => h (he ▸ List.mem_cons_self)
    rw [startAfter, decide_eq_false hc]
    cases rest with
    | nil => rfl
    | cons d others => exact ih (fun hm => h (List.mem_cons_of_mem c hm)) (List.cons_ne_nil _ _) _

/-- Indenting line by line and character by character comes to the same. -/
theorem indentFrom_eq (start : Bool) (cs : List Char) :
    ∃ part parts, splitFeeds cs = part :: parts ∧
      indentFrom unit start cs = ['\n'].intercalate
        ((if start then indentLine unit part else part) :: parts.map (indentLine unit)) := by
  induction cs generalizing start with
  | nil => exact ⟨[], [], rfl, by cases start <;> rfl⟩
  | cons c rest ih =>
    by_cases hc : c = '\n'
    · obtain ⟨part, parts, hs, hi⟩ := ih true
      refine ⟨[], part :: parts, by rw [splitFeeds, if_pos hc, hs], ?_⟩
      have hempty : (if start then indentLine unit [] else []) = [] := by cases start <;> rfl
      rw [indentFrom, if_pos hc, hi, hempty, List.map_cons, List.intercalate_cons_cons, hc]
      rfl
    · obtain ⟨part, parts, hs, hi⟩ := ih false
      refine ⟨c :: part, parts, by rw [splitFeeds, if_neg hc, hs], ?_⟩
      have hfirst : (if start then indentLine unit (c :: part) else c :: part) =
          (if start then unit else []) ++ c :: part := by cases start <;> rfl
      rw [indentFrom, if_neg hc, hi, hfirst]
      cases parts with
      | nil => simp
      | cons next others => simp [List.intercalate_cons_cons]

end

def opensLine (text : String) : Bool := startAfter true text.toList

theorem toList_indentLines (unit text : String) :
    (indentLines unit text).toList = indentFrom unit.toList true text.toList := by
  obtain ⟨part, parts, hs, hi⟩ := @indentFrom_eq unit.toList true text.toList
  rw [indentLines, String.toList_ofList, hs, hi]
  rfl

@[simp]
theorem indentLines_empty (unit : String) : indentLines unit "" = "" := rfl

theorem indentLines_feed (unit text : String) :
    indentLines unit (text ++ "\n") = indentLines unit text ++ "\n" := by
  apply String.toList_injective
  simp only [toList_indentLines, String.toList_append, indentFrom_append]
  rfl

theorem opensLine_feed (text : String) : opensLine (text ++ "\n") = true := by
  rw [opensLine, String.toList_append, startAfter_append]
  rfl

/-- A text that is added on the last line gets the unit if it begins the line. -/
theorem indentLines_append {unit text line : String} (h : OneLine line) (hne : line ≠ "") :
    indentLines unit (text ++ line) =
      indentLines unit text ++ (if opensLine text then unit else "") ++ line := by
  have hcs : line.toList ≠ [] := fun he => hne (String.toList_eq_nil_iff.mp he)
  apply String.toList_injective
  simp only [toList_indentLines, String.toList_append, indentFrom_append, indentFrom_line h hcs]
  rw [opensLine]
  cases startAfter true text.toList <;> simp

theorem opensLine_append {text line : String} (h : OneLine line) (hne : line ≠ "") :
    opensLine (text ++ line) = false := by
  have hcs : line.toList ≠ [] := fun he => hne (String.toList_eq_nil_iff.mp he)
  rw [opensLine, String.toList_append, startAfter_append, startAfter_line h hcs]

end HeaderSynopsis.Output
