import Mathlib.Algebra.Group.Nat.Defs
import Mathlib.Data.List.Basic
import Mathlib.Tactic.Common

/-!
Words that are put together of bit-fields, the lowest one first. Nothing here depends on the
program that is verified.
-/
namespace Prog

/-- A value with its width. -/
abbrev BitField := (w : ℕ) × BitVec w

variable {fs gs : List BitField} {n w : ℕ}

/-- How many bits the fields have together. -/
def widths : List BitField → ℕ
  | [] => 0
  | f :: fs => f.1 + widths fs

def packed : List BitField → ℕ
  | [] => 0
  | f :: fs => f.2.toNat + 2 ^ f.1 * packed fs

/-- The word of `n` bits in which the fields lie one above the other. -/
def packWord (n : ℕ) (fs : List BitField) : BitVec n := BitVec.ofNat n (packed fs)

theorem packed_lt (fs : List BitField) : packed fs < 2 ^ widths fs := by
  induction fs with
  | nil => exact Nat.one_pos
  | cons f fs ih =>
    have hf := f.2.isLt
    rw [widths, Nat.pow_add, packed]
    calc f.2.toNat + 2 ^ f.1 * packed fs < 2 ^ f.1 * (packed fs + 1) := by
          rw [Nat.mul_succ]
          omega
      _ ≤ 2 ^ f.1 * 2 ^ widths fs := Nat.mul_le_mul_left _ ih

/-- Below the fields that come later, a field is what was put there. -/
theorem packed_field (i : ℕ) (hi : i < fs.length) :
    packed fs / 2 ^ widths (fs.take i) % 2 ^ fs[i].1 = fs[i].2.toNat := by
  induction fs generalizing i with
  | nil => cases hi
  | cons f fs ih =>
    cases i with
    | zero =>
      rw [List.take_zero, widths, Nat.pow_zero, Nat.div_one, packed]
      change (f.2.toNat + 2 ^ f.1 * packed fs) % 2 ^ f.1 = f.2.toNat
      rw [Nat.add_mul_mod_self_left, Nat.mod_eq_of_lt f.2.isLt]
    | succ i =>
      have hrest : (f.2.toNat + 2 ^ f.1 * packed fs) / 2 ^ f.1 = packed fs := by
        rw [Nat.add_mul_div_left _ _ (Nat.two_pow_pos _), Nat.div_eq_of_lt f.2.isLt, Nat.zero_add]
      rw [List.take_succ_cons, widths, Nat.pow_add, ← Nat.div_div_eq_div_mul, packed, hrest]
      exact ih i (Nat.lt_of_succ_lt_succ hi)

/-- A field is found again at the sum of the widths of those before it. -/
theorem extract_packWord (hn : widths fs ≤ n) (i : ℕ) (hi : i < fs.length) :
    (packWord n fs).extractLsb' (widths (fs.take i)) fs[i].1 = fs[i].2 := by
  apply BitVec.eq_of_toNat_eq
  have hlt := Nat.lt_of_lt_of_le (packed_lt fs) (Nat.pow_le_pow_right (by decide) hn)
  rw [BitVec.extractLsb'_toNat, packWord, BitVec.toNat_ofNat, Nat.mod_eq_of_lt hlt,
    Nat.shiftRight_eq_div_pow, packed_field i hi]

/-- The bytes of a word, the lowest one first. -/
def wordBytes (n : ℕ) (x : BitVec n) (k : ℕ) : List (BitVec 8) :=
  (List.range k).map fun i => x.extractLsb' (8 * i) 8

theorem widths_bytes (bs : List (BitVec 8)) :
    widths (bs.map fun b => ⟨8, b⟩) = 8 * bs.length := by
  induction bs with
  | nil => rfl
  | cons b bs ih =>
    rw [List.map_cons, widths, ih, List.length_cons, Nat.mul_succ, Nat.add_comm]

theorem wordBytes_packWord (bs : List (BitVec 8)) (hn : 8 * bs.length ≤ n) :
    wordBytes n (packWord n (bs.map fun b => ⟨8, b⟩)) bs.length = bs := by
  apply List.ext_getElem
  · rw [wordBytes, List.length_map, List.length_range]
  · intro i _ hi
    have hfields : widths (bs.map fun b => ⟨8, b⟩) ≤ n := by rwa [widths_bytes]
    have hget := extract_packWord hfields i (by simpa using hi)
    rw [← List.map_take, widths_bytes, List.length_take, Nat.min_eq_left (Nat.le_of_lt hi),
      List.getElem_map] at hget
    simp only [wordBytes, List.getElem_map, List.getElem_range]
    exact hget

end Prog
