import HeaderSynopsis.Report.Summary
import Mathlib.Data.String.Basic

namespace HeaderSynopsis.Report

open Declaration

def Ascending (counts : List (String × Nat)) : Prop := counts.Pairwise (·.1 < ·.1)

/-- The count of a word goes up by one where it is, or comes in as one where the word belongs. -/
theorem tally_cases (word : String) {counts : List (String × Nat)} (h : Ascending counts) :
    ∃ before n after,
      (∀ entry ∈ before, entry.1 < word) ∧ (∀ entry ∈ after, word < entry.1) ∧
      tally word counts = before ++ (word, n + 1) :: after ∧
      (counts = before ++ (word, n) :: after ∨ n = 0 ∧ counts = before ++ after) := by
  induction counts with
  | nil => exact ⟨[], 0, [], by simp, by simp, rfl, Or.inr ⟨rfl, rfl⟩⟩
  | cons entry rest ih =>
    obtain ⟨other, m⟩ := entry
    obtain ⟨hlater, hrest⟩ := List.pairwise_cons.mp h
    rcases lt_trichotomy word other with hlt | rfl | hgt
    -- Everything later is greater still, so the word is new.
    · refine ⟨[], 0, (other, m) :: rest, by simp, ?_, by rw [tally, if_pos hlt]; rfl,
        Or.inr ⟨rfl, rfl⟩⟩
      rw [List.forall_mem_cons]
      exact ⟨hlt, fun entry he => hlt.trans (hlater entry he)⟩
    · refine ⟨[], m, rest, by simp, hlater, ?_, Or.inl rfl⟩
      rw [tally, if_neg (lt_irrefl word), if_pos rfl]
      rfl
    · obtain ⟨before, n, after, hbefore, hafter, htally, hcounts⟩ := ih hrest
      refine ⟨(other, m) :: before, n, after, List.forall_mem_cons.mpr ⟨hgt, hbefore⟩, hafter, ?_,
        ?_⟩
      · rw [tally, if_neg hgt.not_gt, if_neg hgt.ne', htally]
        rfl
      · exact hcounts.imp (fun he => by rw [he]; rfl) fun ⟨hn, he⟩ => ⟨hn, by rw [he]; rfl⟩

def total (counts : List (String × Nat)) : Nat := counts.foldr (fun count n => count.2 + n) 0

@[simp]
theorem total_cons (count : String × Nat) (counts : List (String × Nat)) :
    total (count :: counts) = count.2 + total counts := rfl

@[simp]
theorem total_append (counts later : List (String × Nat)) :
    total (counts ++ later) = total counts + total later := by
  induction counts with
  | nil => exact (Nat.zero_add _).symm
  | cons count rest ih => rw [List.cons_append, total_cons, total_cons, ih, Nat.add_assoc]

structure Counts (words : List String) (counts : List (String × Nat)) : Prop where
  ascending : Ascending counts
  mem_iff : ∀ word n, (word, n) ∈ counts ↔ word ∈ words ∧ n = words.count word
  total_eq : total counts = words.length

theorem counts_nil : Counts [] [] := ⟨List.Pairwise.nil, by simp, rfl⟩

/-- One more word. -/
theorem Counts.tally {words : List String} {counts : List (String × Nat)} (h : Counts words counts)
    (word : String) : Counts (words ++ [word]) (tally word counts) := by
  obtain ⟨before, n, after, hbefore, hafter, htally, hcounts⟩ := tally_cases word h.ascending
  have hordered : Ascending (before ++ after) := by
    rcases hcounts with rfl | ⟨-, rfl⟩
    · exact h.ascending.sublist ((List.sublist_cons_self _ _).append_left before)
    · exact h.ascending
  obtain ⟨hpre, hpost, -⟩ := List.pairwise_append.mp hordered
  -- Both ways, the old count of the word is the number of times that it came before.
  have hn : n = words.count word := by
    rcases hcounts with rfl | ⟨rfl, rfl⟩
    · exact ((h.mem_iff word n).mp (by simp)).2
    · refine (List.count_eq_zero.mpr fun hm => ?_).symm
      rcases List.mem_append.mp ((h.mem_iff word _).mpr ⟨hm, rfl⟩) with hb | ha
      · exact lt_irrefl word (hbefore _ hb)
      · exact lt_irrefl word (hafter _ ha)
  -- The counts of the other words stay as they are.
  have hothers (other : String) (m : Nat) (hne : other ≠ word) :
      (other, m) ∈ before ++ after ↔ other ∈ words ∧ m = words.count other := by
    rw [← h.mem_iff]
    rcases hcounts with rfl | ⟨-, rfl⟩
    · simp [hne]
    · rfl
  refine ⟨?_, fun other m => ?_, ?_⟩
  · rw [htally, Ascending, List.pairwise_append, List.pairwise_cons]
    refine ⟨hpre, ⟨hafter, hpost⟩, fun early he late hl => ?_⟩
    rcases List.mem_cons.mp hl with rfl | hl
    · exact hbefore early he
    · exact (hbefore early he).trans (hafter late hl)
  · rw [htally, List.count_append]
    by_cases he : other = word
    · subst he
      have hb (k : Nat) : (other, k) ∉ before := fun hm => lt_irrefl other (hbefore _ hm)
      have ha (k : Nat) : (other, k) ∉ after := fun hm => lt_irrefl other (hafter _ hm)
      simp [hb, ha, hn]
    · have hcount : [word].count other = 0 := List.count_eq_zero.mpr (by simpa using he)
      have hkept := hothers other m he
      rw [List.mem_append] at hkept
      simp [he, hcount, hkept]
  · have hold : total counts = total before + n + total after := by
      rcases hcounts with rfl | ⟨rfl, rfl⟩
      · rw [total_append, total_cons, Nat.add_assoc]
      · rw [total_append, Nat.add_zero]
    rw [htally, total_append, total_cons, List.length_append, ← h.total_eq, hold,
      List.length_singleton]
    omega

/-- Counting goes through all the words. -/
theorem counts_foldl {words : List String} {counts : List (String × Nat)} (h : Counts words counts)
    (entities : List Entity) :
    Counts (words ++ entities.map (·.kind.word))
      (entities.foldl (fun counts entity => Report.tally entity.kind.word counts) counts) := by
  induction entities generalizing words counts with
  | nil => simpa using h
  | cons entity rest ih => simpa using ih (h.tally entity.kind.word)

theorem counts_countKinds (entities : List Entity) :
    Counts (entities.map (·.kind.word)) (countKinds entities) :=
  counts_foldl counts_nil entities

end HeaderSynopsis.Report
