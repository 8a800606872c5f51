import HeaderSynopsis.Text.Reader
import Mathlib.Tactic.SplitIfs

namespace HeaderSynopsis.Text

/-- A run ends where the first character stands that does not belong to it. -/
theorem takeWhile_dropWhile_append {belongs : Char → Bool} {run rest : List Char}
    (hrun : ∀ c ∈ run, belongs c = true) (hrest : ∀ c ∈ rest.head?, belongs c = false) :
    (run ++ rest).takeWhile belongs = run ∧ (run ++ rest).dropWhile belongs = rest := by
  rw [List.takeWhile_append_of_pos hrun, List.dropWhile_append_of_pos hrun]
  cases rest with
  | nil => exact ⟨List.append_nil run, rfl⟩
  | cons c rest =>
    have hc := hrest c rfl
    rw [List.takeWhile_cons, List.dropWhile_cons, hc]
    exact ⟨List.append_nil run, rfl⟩

theorem isDigit_iff (c : Char) : c.isDigit = true ↔ 48 ≤ c.toNat ∧ c.toNat ≤ 57 := by
  simp [Char.isDigit, UInt32.le_iff_toNat_le]

/-- A digit by its number: a decimal one or a letter, large or small. -/
theorem hexValue?_eq_some_iff (c : Char) (v : Nat) :
    hexValue? c = some v ↔
      48 ≤ c.toNat ∧ c.toNat ≤ 57 ∧ v = c.toNat - 48 ∨
      97 ≤ c.toNat ∧ c.toNat ≤ 102 ∧ v = c.toNat - 87 ∨
      65 ≤ c.toNat ∧ c.toNat ≤ 70 ∧ v = c.toNat - 55 := by
  have h0 : ('0' : Char).toNat = 48 := rfl
  have ha : ('a' : Char).toNat = 97 := rfl
  have hA : ('A' : Char).toNat = 65 := rfl
  have hlower : ('a' ≤ c ∧ c ≤ 'f') ↔ (97 ≤ c.toNat ∧ c.toNat ≤ 102) := by
    simp [Char.le_def, UInt32.le_iff_toNat_le]
  have hupper : ('A' ≤ c ∧ c ≤ 'F') ↔ (65 ≤ c.toNat ∧ c.toNat ≤ 70) := by
    simp [Char.le_def, UInt32.le_iff_toNat_le]
  unfold hexValue?
  simp only [isDigit_iff, hlower, hupper, h0, ha, hA]
  split_ifs <;> simp only [Option.some.injEq, false_iff] <;> omega

theorem toLower_of_upper {c : Char} (hleast : 65 ≤ c.toNat) (hmost : c.toNat ≤ 90) :
    c.toLower.toNat = c.toNat + 32 := by
  have hupper : c.val ≥ 'A'.val ∧ c.val ≤ 'Z'.val := by
    simp only [ge_iff_le, UInt32.le_iff_toNat_le]
    exact ⟨hleast, hmost⟩
  unfold Char.toLower
  rw [dif_pos hupper]
  change (c.val + 32).toNat = c.val.toNat + 32
  rw [UInt32.toNat_add]
  change 65 ≤ c.val.toNat at hleast
  change c.val.toNat ≤ 90 at hmost
  change (c.val.toNat + 32) % 2 ^ 32 = _
  omega

theorem toLower_of_lower {c : Char} (h : 97 ≤ c.toNat) : c.toLower = c := by
  have hupper : ¬(c.val ≥ 'A'.val ∧ c.val ≤ 'Z'.val) := by
    simp only [ge_iff_le, UInt32.le_iff_toNat_le]
    change 97 ≤ c.val.toNat at h
    change ¬(65 ≤ c.val.toNat ∧ c.val.toNat ≤ 90)
    omega
  unfold Char.toLower
  rw [dif_neg hupper]

end HeaderSynopsis.Text
