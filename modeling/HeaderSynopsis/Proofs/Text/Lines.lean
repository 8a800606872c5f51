import HeaderSynopsis.Text.Lines

namespace HeaderSynopsis.Text

def OneLine (text : String) : Prop := '\n' ∉ text.toList

instance (text : String) : Decidable (OneLine text) := inferInstanceAs (Decidable (¬_))

theorem OneLine.append {a b : String} (ha : OneLine a) (hb : OneLine b) : OneLine (a ++ b) := by
  rw [OneLine, String.toList_append, List.mem_append]
  exact fun h => h.elim ha hb

theorem feed_notMem_splitFeeds (cs : List Char) : ∀ part ∈ splitFeeds cs, '\n' ∉ part := by
  induction cs with
  | nil => simp [splitFeeds]
  | cons c rest ih =>
    obtain ⟨part, parts, hs⟩ := List.exists_cons_of_ne_nil (splitFeeds_ne_nil rest)
    rw [hs, List.forall_mem_cons] at ih
    by_cases hc : c = '\n'
    · rw [splitFeeds, if_pos hc, hs, List.forall_mem_cons, List.forall_mem_cons]
      exact ⟨List.not_mem_nil, ih⟩
    · rw [splitFeeds, if_neg hc, hs]
      refine List.forall_mem_cons.mpr ⟨fun h => ?_, ih.2⟩
      rcases List.mem_cons.mp h with he | hm
      · exact hc he.symm
      · exact ih.1 hm

/-- The last part of one text and the first part of the text behind it become one part. -/
theorem splitFeeds_append {cs ds last first : List Char} {parts rest : List (List Char)}
    (hc : splitFeeds cs = parts ++ [last]) (hd : splitFeeds ds = first :: rest) :
    splitFeeds (cs ++ ds) = parts ++ (last ++ first) :: rest := by
  induction cs generalizing parts last with
  | nil =>
    obtain ⟨rfl, rfl⟩ : parts = [] ∧ last = [] := by
      simpa [splitFeeds, eq_comm, List.append_eq_singleton_iff] using hc
    exact hd
  | cons c cs ih =>
    obtain ⟨part, others, hs⟩ := List.exists_cons_of_ne_nil (splitFeeds_ne_nil cs)
    by_cases hfeed : c = '\n'
    · rw [splitFeeds, if_pos hfeed, hs] at hc
      obtain ⟨rfl, hlast⟩ | ⟨before, rfl, hbefore⟩ := List.cons_eq_append_iff.mp hc
      · exact absurd hlast (by simp)
      · rw [List.cons_append, splitFeeds, if_pos hfeed, ih (hs.trans hbefore)]
        rfl
    · rw [splitFeeds, if_neg hfeed, hs] at hc
      obtain ⟨rfl, hlast⟩ | ⟨before, rfl, hbefore⟩ := List.cons_eq_append_iff.mp hc
      · obtain ⟨rfl, rfl⟩ := List.cons.inj hlast
        have hrest : splitFeeds (cs ++ ds) = [] ++ (part ++ first) :: rest := ih hs
        rw [List.cons_append, splitFeeds, if_neg hfeed, hrest]
        rfl
      · have hrest : splitFeeds (cs ++ ds) = (part :: before) ++ (last ++ first) :: rest :=
          ih (by rw [hs, hbefore]; rfl)
        rw [List.cons_append, splitFeeds, if_neg hfeed, hrest]
        rfl

/-- A text of one line is a part of its own. -/
theorem splitFeeds_line {cs : List Char} (h : '\n' ∉ cs) : splitFeeds cs = [cs] := by
  induction cs with
  | nil => rfl
  | cons c rest ih =>
    rw [List.mem_cons, not_or] at h
    rw [splitFeeds, if_neg (Ne.symm h.1), ih h.2]

/-- Parts without line feeds are found again behind the line feeds that join them. -/
theorem splitFeeds_intercalate {parts : List (List Char)} (hne : parts ≠ [])
    (h : ∀ part ∈ parts, '\n' ∉ part) : splitFeeds (['\n'].intercalate parts) = parts := by
  induction parts with
  | nil => exact absurd rfl hne
  | cons part rest ih =>
    rw [List.forall_mem_cons] at h
    have hpart : splitFeeds part = [] ++ [part] := splitFeeds_line h.1
    cases rest with
    | nil => rw [List.intercalate_singleton, hpart, List.nil_append]
    | cons next others =>
      have hrest : splitFeeds ('\n' :: ['\n'].intercalate (next :: others)) =
          [] :: next :: others := by
        rw [splitFeeds, if_pos rfl, ih (List.cons_ne_nil _ _) h.2]
      rw [List.intercalate_cons_cons, List.append_assoc, List.singleton_append,
        splitFeeds_append hpart hrest, List.append_nil, List.nil_append]

theorem dropReturn_subset (cs : List Char) : dropReturn cs ⊆ cs := by
  unfold dropReturn
  split
  · exact List.dropLast_subset cs
  · exact List.Subset.refl cs

/-- A part without its carriage return is one line. -/
theorem oneLine_dropReturn {cs part : List Char} (h : part ∈ splitFeeds cs) :
    OneLine (String.ofList (dropReturn part)) := by
  rw [OneLine, String.toList_ofList]
  exact fun hm => feed_notMem_splitFeeds cs part h (dropReturn_subset part hm)

theorem oneLine_pieces {text : String} : ∀ piece ∈ pieces text, OneLine piece := by
  intro piece hpiece
  obtain ⟨part, hpart, rfl⟩ := List.mem_map.mp hpiece
  exact oneLine_dropReturn hpart

theorem oneLine_lines {text : String} : ∀ line ∈ lines text, OneLine line := by
  have hended : ∀ line ∈ (splitFeeds text.toList).dropLast.map
      fun part => String.ofList (dropReturn part), OneLine line := by
    intro line hline
    obtain ⟨part, hpart, rfl⟩ := List.mem_map.mp hline
    exact oneLine_dropReturn (List.dropLast_subset _ hpart)
  unfold lines
  dsimp only
  split
  · rename_i c rest hlast
    refine List.forall_mem_append.mpr ⟨hended, fun line hline => ?_⟩
    rw [List.mem_singleton.mp hline, OneLine, String.toList_ofList]
    exact feed_notMem_splitFeeds _ _ (List.mem_of_getLast? hlast)
  · exact hended

/-- A text that is not empty has a line at least. -/
theorem lines_ne_nil {text : String} (h : text ≠ "") : lines text ≠ [] := by
  obtain ⟨part, parts, hs⟩ := List.exists_cons_of_ne_nil (splitFeeds_ne_nil text.toList)
  cases parts with
  | nil =>
    have hpart : part = text.toList := by
      rw [← intercalate_splitFeeds text.toList, hs, List.intercalate_singleton]
    cases part with
    | nil => exact absurd (String.toList_eq_nil_iff.mp hpart.symm) h
    | cons c rest => simp [lines, hs]
  | cons next others =>
    rw [lines, hs]
    dsimp only [List.dropLast]
    split
    · exact List.append_ne_nil_of_right_ne_nil _ (List.cons_ne_nil _ _)
    · exact List.cons_ne_nil _ _

def dropReturns : List Char → List Char
  | [] => []
  | c :: rest =>
      if c = '\r' ∧ (rest = [] ∨ rest.head? = some '\n') then dropReturns rest
      else c :: dropReturns rest

/-- A carriage return is removed at the end of a part, not before. -/
theorem dropReturn_cons (c : Char) (part : List Char) :
    dropReturn (c :: part) =
      if c = '\r' ∧ part = [] then dropReturn part else c :: dropReturn part := by
  cases part with
  | nil =>
    by_cases hc : c = '\r'
    · simp [dropReturn, hc]
    · simp [dropReturn, hc]
  | cons d rest =>
    rw [if_neg (by simp), dropReturn, dropReturn, List.getLast?_cons_cons]
    split
    · rfl
    · rfl

/-- The first part of a text is empty if there is nothing before the first line feed. -/
theorem head_splitFeeds_eq_nil_iff {cs part : List Char} {parts : List (List Char)}
    (h : splitFeeds cs = part :: parts) : part = [] ↔ cs = [] ∨ cs.head? = some '\n' := by
  cases cs with
  | nil =>
    obtain ⟨rfl, -⟩ := List.cons.inj h
    simp
  | cons c rest =>
    obtain ⟨next, others, hs⟩ := List.exists_cons_of_ne_nil (splitFeeds_ne_nil rest)
    by_cases hfeed : c = '\n'
    · rw [splitFeeds, if_pos hfeed] at h
      obtain ⟨rfl, -⟩ := List.cons.inj h
      simp [hfeed]
    · rw [splitFeeds, if_neg hfeed, hs] at h
      obtain ⟨rfl, -⟩ := List.cons.inj h
      simp [hfeed]

/-- The parts of a text are joined again without the carriage returns at their ends. -/
theorem intercalate_dropReturn (cs : List Char) :
    ['\n'].intercalate ((splitFeeds cs).map dropReturn) = dropReturns cs := by
  induction cs with
  | nil => rfl
  | cons c rest ih =>
    obtain ⟨part, parts, hs⟩ := List.exists_cons_of_ne_nil (splitFeeds_ne_nil rest)
    rw [hs] at ih
    by_cases hfeed : c = '\n'
    · have hkept : ¬(c = '\r' ∧ (rest = [] ∨ rest.head? = some '\n')) := by
        rw [hfeed]
        exact fun h => absurd h.1 (by decide)
      rw [splitFeeds, if_pos hfeed, hs, dropReturns, if_neg hkept, ← ih, List.map_cons,
        List.map_cons, List.intercalate_cons_cons, hfeed]
      rfl
    · have hcons (head : List Char) (others : List (List Char)) :
          ['\n'].intercalate ((c :: head) :: others) =
            c :: ['\n'].intercalate (head :: others) := by
        cases others <;> simp [List.intercalate_cons_cons]
      -- The character joins the first part, where it is dropped only if nothing stands behind it.
      rw [splitFeeds, if_neg hfeed, hs, List.map_cons, dropReturn_cons, dropReturns, ← ih]
      simp only [← head_splitFeeds_eq_nil_iff hs]
      split
      · rfl
      · exact hcons _ _

-- Of two carriage returns before a line feed one is left.
example : dropReturns "a\r\r\nb\r".toList = "a\r\nb".toList := by decide

end HeaderSynopsis.Text
