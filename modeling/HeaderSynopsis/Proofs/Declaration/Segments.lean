import HeaderSynopsis.Declaration.Reference
import Mathlib.Data.List.Infix

namespace HeaderSynopsis.Declaration

/-- A text given from its end is cut where a pair of colons begins. -/
theorem segmentFromEnd_cons (c : Char) (rest : List Char) :
    segmentFromEnd (c :: rest) =
      if [':', ':'] <+: c :: rest then [] else c :: segmentFromEnd rest := by
  by_cases h : [':', ':'] <+: c :: rest
  · obtain ⟨rfl, hrest⟩ := List.cons_prefix_cons.mp h
    obtain ⟨tail, rfl⟩ := hrest
    rw [if_pos h]
    rfl
  · rw [if_neg h, segmentFromEnd]
    intro tail hc hrest
    apply h
    rw [hc, hrest]
    exact ⟨tail, rfl⟩

/-- What is left begins as the text does. -/
theorem segmentFromEnd_prefix (cs : List Char) : segmentFromEnd cs <+: cs := by
  induction cs with
  | nil => exact List.prefix_rfl
  | cons c rest ih =>
    rw [segmentFromEnd_cons]
    split
    · exact List.nil_prefix
    · exact List.cons_prefix_cons.mpr ⟨rfl, ih⟩

/-- No pair of colons is left. -/
theorem colons_not_infix_segmentFromEnd (cs : List Char) : ¬[':', ':'] <:+: segmentFromEnd cs := by
  induction cs with
  | nil => exact fun h => absurd h.length_le (by simp [segmentFromEnd])
  | cons c rest ih =>
    rw [segmentFromEnd_cons]
    split
    · exact fun h => absurd h.length_le (by simp)
    · rename_i hc
      rw [List.infix_cons_iff]
      rintro (h | h)
      · exact hc (h.trans (List.cons_prefix_cons.mpr ⟨rfl, segmentFromEnd_prefix rest⟩))
      · exact ih h

theorem segmentFromEnd_eq_self_iff {cs : List Char} :
    segmentFromEnd cs = cs ↔ ¬[':', ':'] <:+: cs := by
  constructor
  · intro h
    rw [← h]
    exact colons_not_infix_segmentFromEnd cs
  · intro h
    induction cs with
    | nil => rfl
    | cons c rest ih =>
      rw [List.infix_cons_iff, not_or] at h
      rw [segmentFromEnd_cons, if_neg h.1, ih h.2]

/-- A pair of colons behind a text is the end of its segment, unless the text ends in a colon
itself, with which the first of the pair would make another pair. -/
theorem segmentFromEnd_append_colons {cs : List Char} (h : cs.getLast? ≠ some ':')
    (rest : List Char) : segmentFromEnd (cs ++ ':' :: ':' :: rest) = segmentFromEnd cs := by
  induction cs with
  | nil => rfl
  | cons c cs ih =>
    have hpair : [':', ':'] <+: c :: (cs ++ ':' :: ':' :: rest) ↔ [':', ':'] <+: c :: cs := by
      cases cs with
      | nil =>
        have hc : c ≠ ':' := fun hc => h (by rw [hc]; rfl)
        simp [List.cons_prefix_cons, hc.symm]
      | cons d cs => simp [List.cons_prefix_cons]
    rw [List.cons_append, segmentFromEnd_cons, segmentFromEnd_cons]
    simp only [hpair]
    rw [ih]
    cases cs with
    | nil => simp
    | cons d cs => rwa [List.getLast?_cons_cons] at h

namespace Id

theorem reverse_toList_child (id : Id) (name : String) :
    (id.child name).text.toList.reverse =
      name.toList.reverse ++
        if id.text = "" then [] else ':' :: ':' :: id.text.toList.reverse := by
  unfold child
  split
  · rw [List.append_nil]
  · rw [String.toList_append, String.toList_append, List.reverse_append, List.reverse_append]
    rfl

/-- The parent does not show in the last segment of a name inside it. -/
theorem unqualified_child (id : Id) {name : String} (h : name.toList.head? ≠ some ':') :
    (id.child name).unqualified = (Id.mk name).unqualified := by
  have hlast : name.toList.reverse.getLast? ≠ some ':' := by
    rwa [List.getLast?_reverse]
  unfold unqualified
  rw [reverse_toList_child]
  split
  · rw [List.append_nil]
  · rw [segmentFromEnd_append_colons hlast]

/-- A name without a pair of colons is one segment. -/
theorem unqualified_mk_eq_self_iff {name : String} :
    (Id.mk name).unqualified = name ↔ ¬[':', ':'] <:+: name.toList := by
  have hreverse : [':', ':'] <:+: name.toList.reverse ↔ [':', ':'] <:+: name.toList := by
    rw [← List.reverse_infix, List.reverse_reverse]
    rfl
  rw [← hreverse, ← segmentFromEnd_eq_self_iff, unqualified]
  constructor
  · intro h
    have hchars := congrArg String.toList h
    rw [String.toList_ofList] at hchars
    exact List.reverse_eq_iff.mp hchars
  · intro h
    rw [h, List.reverse_reverse, String.ofList_toList]

end Id

end HeaderSynopsis.Declaration
