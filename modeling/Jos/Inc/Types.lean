import Mathlib.Algebra.Group.Nat.Defs
import Mathlib.Tactic.Common

/-! Characters and flags as the machine integers that the C code compares and stores. -/
namespace Jos

/-- The value of a character constant in a `w`-bit type. -/
abbrev chr {w : ℕ} (c : Char) : BitVec w := BitVec.ofNat w c.toNat

/-- A mask of one bit tests this bit. -/
theorem and_twoPow_ne_zero {flags : BitVec 32} {i : ℕ} (hi : i < 32) :
    flags &&& BitVec.twoPow 32 i ≠ 0 ↔ flags.getLsbD i := by
  have hne : BitVec.twoPow 32 i ≠ 0 := by
    intro h
    have hbit := congrArg (·.getLsbD i) h
    simp [hi] at hbit
  rw [BitVec.and_twoPow]
  by_cases h : flags.getLsbD i
  · rw [if_pos h]
    exact iff_of_true hne h
  · rw [if_neg h]
    exact iff_of_false (not_not_intro rfl) h

end Jos
