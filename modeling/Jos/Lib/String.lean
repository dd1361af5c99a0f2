import Jos.Prog.StringOps

/-! `lib/string.c`: block moves. -/
namespace Jos

open Prog Prog.Memory

variable {m : Memory} {dst src x : Addr} {n : BitVec 32}

/-- `memmove` as compiled with `ASM` set. It also returns `dst`. -/
def memmove (m : Memory) (dst src : Addr) (n : BitVec 32) : Memory :=
  if src < dst ∧ dst < src + n then
    -- the ranges overlap with the source below: copy from the top down
    let s := src + n
    let d := dst + n
    if s.srem 4 = 0 ∧ d.srem 4 = 0 ∧ n % 4 = 0 then
      repMovs true 4 (n / 4).toNat m (d - 4) (s - 4)
    else
      repMovs true 1 n.toNat m (d - 1) (s - 1)
  else
    if src.srem 4 = 0 ∧ dst.srem 4 = 0 ∧ n % 4 = 0 then
      repMovs false 4 (n / 4).toNat m dst src
    else
      repMovs false 1 n.toNat m dst src

theorem four_mul_div (hn : n % 4 = 0) : 4 * (n / 4).toNat = n.toNat := by
  have h : n.toNat % 4 = 0 := by simpa using congrArg BitVec.toNat hn
  have hd : (n / 4).toNat = n.toNat / 4 := by simp
  omega

/-- All four paths move the bytes, whatever the overlap. -/
theorem bytes_memmove (hs : src.toNat + n.toNat ≤ 2 ^ 32) (hd : dst.toNat + n.toNat ≤ 2 ^ 32) :
    (memmove m dst src n).bytes x =
      if (x - dst).toNat < n.toNat then m.bytes (src + (x - dst)) else m.bytes x := by
  have hn := n.isLt
  have hofNat : BitVec.ofNat 32 n.toNat = n := by simp
  unfold memmove
  by_cases h : src < dst ∧ dst < src + n
  · rw [if_pos h]
    have hdist : (dst - src).toNat + n.toNat ≤ 2 ^ 32 := by bv_omega
    by_cases halign : (src + n).srem 4 = 0 ∧ (dst + n).srem 4 = 0 ∧ n % 4 = 0
    · have h4 := four_mul_div halign.2.2
      have hmove := bytes_repMovs_down (m := m) (x := x) (w := 4) (c := (n / 4).toNat)
        (d := dst) (s := src) (by omega) (by omega)
      rw [h4, hofNat] at hmove
      rw [if_pos halign]
      exact hmove
    · have hmove := bytes_repMovs_down (m := m) (x := x) (w := 1) (c := n.toNat)
        (d := dst) (s := src) (by omega) (by omega)
      rw [Nat.one_mul, hofNat] at hmove
      rw [if_neg halign]
      exact hmove
  · rw [if_neg h]
    have hdist : (src - dst).toNat + n.toNat ≤ 2 ^ 32 := by bv_omega
    by_cases halign : src.srem 4 = 0 ∧ dst.srem 4 = 0 ∧ n % 4 = 0
    · have h4 := four_mul_div halign.2.2
      rw [if_pos halign, bytes_repMovs_up (by omega) (by omega), h4]
    · rw [if_neg halign, bytes_repMovs_up (by omega) (by omega), Nat.one_mul]

/-- A move down stores inside the destination range only. -/
theorem stores_memmove_down (h : dst ≤ src) :
    ∃ new, (memmove m dst src n).stores = m.stores ++ new ∧
      ∀ y ∈ new, (y - dst).toNat < n.toNat := by
  have hn := n.isLt
  have hlt : ¬ (src < dst ∧ dst < src + n) := by bv_omega
  unfold memmove
  rw [if_neg hlt]
  split
  · rename_i halign
    have h4 := four_mul_div halign.2.2
    rw [← h4]
    exact stores_repMovs_up (by omega)
  · have := stores_repMovs_up (m := m) (d := dst) (s := src) (w := 1) (c := n.toNat) (by omega)
    rwa [Nat.one_mul] at this

end Jos
