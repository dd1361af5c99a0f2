import Jos.Lib.String
import Jos.Prog.Loop

/-! `lib/string.c`: `memset`, and the versions that are compiled without `ASM`. -/
namespace Jos

open Prog Prog.Memory

variable {m : Memory} {v dst src x : Addr} {c n k : BitVec 32}

/-- `memset` as compiled with `ASM` set. It also returns `v`. -/
def memset (m : Memory) (v : Addr) (c n : BitVec 32) : Memory :=
  if n = 0 then m
  else if v.srem 4 = 0 ∧ n % 4 = 0 then
    let c := c &&& 0xFF
    let c := c <<< 24 ||| c <<< 16 ||| c <<< 8 ||| c
    repStos 4 c (n / 4).toNat m v
  else repStos 1 c n.toNat m v

namespace Portable

/-- `while (--m >= 0) *p++ = c`; `k` is the `int m` of the source. -/
def memsetBody (c : BitVec 32) :
    Addr × BitVec 32 × Memory → Res (Addr × BitVec 32 × Memory ⊕ Memory)
  | (p, k, m) =>
    let k := k - 1
    if (0#32).sle k then .ok (.inl (p + 1, k, m.store p (c.setWidth 8))) else .ok (.inr m)

/-- The size is copied to an `int`. -/
def memset (fuel : ℕ) (m : Memory) (v : Addr) (c n : BitVec 32) : Res Memory :=
  loop (memsetBody c) fuel (v, n, m)

/-- `while (n-- > 0) *--d = *--s`. -/
def moveDownBody : Addr × Addr × BitVec 32 × Memory →
    Res (Addr × Addr × BitVec 32 × Memory ⊕ Memory)
  | (d, s, n, m) =>
    if 0 < n then .ok (.inl (d - 1, s - 1, n - 1, m.store (d - 1) (m.bytes (s - 1))))
    else .ok (.inr m)

/-- `while (n-- > 0) *d++ = *s++`. -/
def moveUpBody : Addr × Addr × BitVec 32 × Memory →
    Res (Addr × Addr × BitVec 32 × Memory ⊕ Memory)
  | (d, s, n, m) =>
    if 0 < n then .ok (.inl (d + 1, s + 1, n - 1, m.store d (m.bytes s))) else .ok (.inr m)

def memmove (fuel : ℕ) (m : Memory) (dst src : Addr) (n : BitVec 32) : Res Memory :=
  if src < dst ∧ dst < src + n then loop moveDownBody fuel (dst + n, src + n, n, m)
  else loop moveUpBody fuel (dst, src, n, m)

/-! ### The loops are the string instructions on single bytes -/

theorem moveUp_settles (m : Memory) (dst src : Addr) (n : BitVec 32) :
    Settles (fun k => loop moveUpBody k (dst, src, n, m))
      (.ok (repMovs false 1 n.toNat m dst src)) := by
  generalize hc : n.toNat = c
  induction c generalizing m dst src n with
  | zero => exact .loop_exit (if_neg (by bv_omega))
  | succ c ih =>
    have hpos : 0 < n := by bv_omega
    exact .loop_next (if_pos hpos) (ih _ (dst + 1) (src + 1) (n - 1) (by bv_omega))

theorem moveDown_settles (m : Memory) (dst src : Addr) (n : BitVec 32) :
    Settles (fun k => loop moveDownBody k (dst, src, n, m))
      (.ok (repMovs true 1 n.toNat m (dst - 1) (src - 1))) := by
  generalize hc : n.toNat = c
  induction c generalizing m dst src n with
  | zero => exact .loop_exit (if_neg (by bv_omega))
  | succ c ih =>
    have hpos : 0 < n := by bv_omega
    exact .loop_next (if_pos hpos) (ih _ (dst - 1) (src - 1) (n - 1) (by bv_omega))

theorem memmove_settles (m : Memory) (dst src : Addr) (n : BitVec 32) :
    Settles (fun k => memmove k m dst src n)
      (.ok (if src < dst ∧ dst < src + n then
          repMovs true 1 n.toNat m (dst + n - 1) (src + n - 1)
        else repMovs false 1 n.toNat m dst src)) := by
  unfold memmove
  split
  · exact moveDown_settles m (dst + n) (src + n) n
  · exact moveUp_settles m dst src n

theorem leBytes_one (c : BitVec 32) : leBytes 1 c = [c.setWidth 8] := by
  simp [leBytes]

/-- A count that is not negative after its first decrement runs down to -1. -/
theorem memset_fills (m : Memory) (v : Addr) (c n : BitVec 32) (h : n.toNat ≤ 2 ^ 31) :
    Settles (fun fuel => memset fuel m v c n) (.ok (repStos 1 c n.toNat m v)) := by
  unfold memset
  generalize hc : n.toNat = k at h
  induction k generalizing m v n with
  | zero =>
    have hn : n = 0 := by bv_omega
    rw [hn]
    exact .loop_exit rfl
  | succ k ih =>
    have hge : (0#32).sle (n - 1) := by
      rw [BitVec.sle_iff_toInt_le, BitVec.toInt_zero, BitVec.toInt_eq_toNat_cond]
      bv_omega
    have hrun := ih (m.store v (c.setWidth 8)) (v + 1) (n - 1) (by bv_omega) (by omega)
    rw [repStos, leBytes_one]
    exact .loop_next (if_pos hge) hrun

/-- A larger size is a negative `int`. -/
theorem memset_skips (m : Memory) (v : Addr) (c n : BitVec 32) (h : 2 ^ 31 < n.toNat) :
    Settles (fun fuel => memset fuel m v c n) (.ok m) := by
  have hneg : ¬ (0#32).sle (n - 1) := by
    rw [BitVec.sle_iff_toInt_le, BitVec.toInt_zero, BitVec.toInt_eq_toNat_cond]
    bv_omega
  exact .loop_exit (if_neg hneg)

end Portable

/-! ### Moves -/

theorem bytes_portable_memmove (hs : src.toNat + n.toNat ≤ 2 ^ 32)
    (hd : dst.toNat + n.toNat ≤ 2 ^ 32) :
    ∃ m', Settles (fun k => Portable.memmove k m dst src n) (.ok m') ∧
      ∀ x, m'.bytes x = if (x - dst).toNat < n.toNat then m.bytes (src + (x - dst))
        else m.bytes x := by
  refine ⟨_, Portable.memmove_settles m dst src n, fun x => ?_⟩
  have hn := n.isLt
  have hofNat : BitVec.ofNat 32 n.toNat = n := by simp
  split
  · rename_i h
    have hdist : (dst - src).toNat + n.toNat ≤ 2 ^ 32 := by bv_omega
    have hmove := bytes_repMovs_down (m := m) (x := x) (w := 1) (c := n.toNat) (d := dst) (s := src)
      (by omega) (by omega)
    rw [Nat.one_mul, hofNat] at hmove
    exact hmove
  · rename_i h
    have hdist : (src - dst).toNat + n.toNat ≤ 2 ^ 32 := by bv_omega
    rw [bytes_repMovs_up (by omega) (by omega), Nat.one_mul]

/-- `memmove` moves the bytes whatever the overlap, as its portable version does. -/
theorem memmove_correct (m : Memory) (dst src : Addr) (n : BitVec 32)
    (hs : src.toNat + n.toNat ≤ 2 ^ 32) (hd : dst.toNat + n.toNat ≤ 2 ^ 32) :
    (∀ i < n.toNat, (memmove m dst src n).bytes (dst + BitVec.ofNat 32 i) =
      m.bytes (src + BitVec.ofNat 32 i)) ∧
    (∀ x : Addr, ¬ (dst.toNat ≤ x.toNat ∧ x.toNat < dst.toNat + n.toNat) →
      (memmove m dst src n).bytes x = m.bytes x) ∧
    ∃ m', Settles (fun k => Portable.memmove k m dst src n) (.ok m') ∧
      m'.bytes = (memmove m dst src n).bytes := by
  refine ⟨fun i hi => ?_, fun x hx => ?_, ?_⟩
  · have hdist : dst + BitVec.ofNat 32 i - dst = BitVec.ofNat 32 i := by bv_omega
    have hlt : (BitVec.ofNat 32 i).toNat < n.toNat := by bv_omega
    rw [bytes_memmove hs hd, hdist, if_pos hlt]
  · have hout : ¬ (x - dst).toNat < n.toNat := by bv_omega
    rw [bytes_memmove hs hd, if_neg hout]
  · obtain ⟨m', hrun, hbytes⟩ := bytes_portable_memmove (m := m) hs hd
    refine ⟨m', hrun, funext fun x => ?_⟩
    rw [hbytes, bytes_memmove hs hd]

theorem memmove_correct_overlap :
    ∃ m', Settles (fun k => Portable.memmove k ⟨fun a => a.setWidth 8, []⟩ 0x1002 0x1000 8)
      (.ok m') ∧ m'.bytes = (memmove ⟨fun a => a.setWidth 8, []⟩ 0x1002 0x1000 8).bytes :=
  (memmove_correct ⟨fun a => a.setWidth 8, []⟩ 0x1002 0x1000 8 (by decide) (by decide)).2.2

/-! ### Fills -/

/-- The word that the low byte of `c` is repeated in. -/
theorem leBytes_repeated (c : BitVec 32) :
    leBytes 4 ((c &&& 0xFF) <<< 24 ||| (c &&& 0xFF) <<< 16 ||| (c &&& 0xFF) <<< 8 |||
      (c &&& 0xFF)) = List.replicate 4 (c.setWidth 8) := by
  have hall : ∀ b : Byte, leBytes 4 (b.setWidth 32 <<< 24 ||| b.setWidth 32 <<< 16 |||
      b.setWidth 32 <<< 8 ||| b.setWidth 32) = List.replicate 4 b := by
    decide
  have hlow : c &&& 0xFF = (c.setWidth 8).setWidth 32 := by
    have hmask : (0xFF : BitVec 32).toNat = 2 ^ 8 - 1 := rfl
    apply BitVec.eq_of_toNat_eq
    rw [BitVec.toNat_and, hmask, Nat.and_two_pow_sub_one_eq_mod, BitVec.toNat_setWidth,
      BitVec.toNat_setWidth]
    omega
  rw [hlow]
  exact hall (c.setWidth 8)

/-- Both paths of `memset` fill the range with the low byte of `c`. -/
theorem bytes_memset :
    (memset m v c n).bytes x = if (x - v).toNat < n.toNat then c.setWidth 8 else m.bytes x := by
  have hn := n.isLt
  unfold memset
  by_cases hzero : n = 0
  · have hnone : ¬ (x - v).toNat < n.toNat := by bv_omega
    rw [if_pos hzero, if_neg hnone]
  · rw [if_neg hzero]
    split
    · rename_i halign
      have h4 := four_mul_div halign.2
      rw [bytes_repStos (leBytes_repeated c) (by omega), h4]
    · rw [bytes_repStos (Portable.leBytes_one c) (by omega), Nat.one_mul]

theorem bytes_portable_memset : ∃ m', Settles (fun k => Portable.memset k m v c n) (.ok m') ∧
    ∀ x, m'.bytes x =
      if n.toNat ≤ 2 ^ 31 ∧ (x - v).toNat < n.toNat then c.setWidth 8 else m.bytes x := by
  have hn := n.isLt
  rcases Nat.lt_or_ge (2 ^ 31) n.toNat with hlt | hle
  · refine ⟨m, Portable.memset_skips m v c n hlt, fun x => ?_⟩
    rw [if_neg fun h => Nat.not_le_of_lt hlt h.1]
  · refine ⟨_, Portable.memset_fills m v c n hle, fun x => ?_⟩
    rw [bytes_repStos (Portable.leBytes_one c) (by omega), Nat.one_mul]
    simp only [hle, true_and]

/-- The memory that a `memset` should leave. -/
def Filled (m : Memory) (v : Addr) (c n : BitVec 32) (m' : Memory) : Prop :=
  (∀ i < n.toNat, m'.bytes (v + BitVec.ofNat 32 i) = c.setWidth 8) ∧
    ∀ x : Addr, ¬ (v.toNat ≤ x.toNat ∧ x.toNat < v.toNat + n.toNat) → m'.bytes x = m.bytes x

theorem filled_iff {m' : Memory} (hv : v.toNat + n.toNat ≤ 2 ^ 32) : Filled m v c n m' ↔
    ∀ x, m'.bytes x = if (x - v).toNat < n.toNat then c.setWidth 8 else m.bytes x := by
  constructor
  · rintro ⟨hin, hout⟩ x
    split
    · rename_i hlt
      have hx : v + BitVec.ofNat 32 (x - v).toNat = x := by bv_omega
      rw [← hin _ hlt, hx]
    · rename_i hge
      exact hout x (by bv_omega)
  · intro h
    refine ⟨fun i hi => ?_, fun x hx => ?_⟩
    · have hlt : (v + BitVec.ofNat 32 i - v).toNat < n.toNat := by bv_omega
      rw [h, if_pos hlt]
    · have hge : ¬ (x - v).toNat < n.toNat := by bv_omega
      rw [h, if_neg hge]

/-- The two versions of `memset` agree up to `2 ^ 31` bytes; above, the portable one does nothing,
which is right only for a range that is filled already. -/
theorem memset_agree_iff (m : Memory) (v : Addr) (c n : BitVec 32)
    (hv : v.toNat + n.toNat ≤ 2 ^ 32) :
    (Filled m v c n (memset m v c n) ∧
      ∃ m', Settles (fun k => Portable.memset k m v c n) (.ok m') ∧ Filled m v c n m') ↔
    n.toNat ≤ 2 ^ 31 ∨ ∀ i < n.toNat, m.bytes (v + BitVec.ofNat 32 i) = c.setWidth 8 := by
  obtain ⟨m', hrun, hbytes⟩ := bytes_portable_memset (m := m) (v := v) (c := c) (n := n)
  have hasm : Filled m v c n (memset m v c n) := (filled_iff hv).mpr fun x => bytes_memset
  constructor
  · rintro ⟨-, m₂, hrun₂, hin, -⟩
    obtain rfl := Except.ok.inj (hrun.unique hrun₂)
    rcases Nat.lt_or_ge (2 ^ 31) n.toNat with hlt | hle
    · right
      intro i hi
      rw [← hin i hi, hbytes, if_neg fun h => Nat.not_le_of_lt hlt h.1]
    · exact .inl hle
  · intro h
    refine ⟨hasm, m', hrun, (filled_iff hv).mpr fun x => ?_⟩
    rw [hbytes]
    rcases h with hle | hall
    · simp only [hle, true_and]
    · split
      · rename_i hlt
        rw [if_pos hlt.2]
      · split
        · rename_i hlt
          have hx : v + BitVec.ofNat 32 (x - v).toNat = x := by bv_omega
          rw [← hall _ hlt, hx]
        · rfl

theorem memset_agree_iff_page :
    (Filled ⟨fun _ => 0, []⟩ 0x1000 0x1FF 0x1000 (memset ⟨fun _ => 0, []⟩ 0x1000 0x1FF 0x1000) ∧
      ∃ m', Settles (fun k => Portable.memset k ⟨fun _ => 0, []⟩ 0x1000 0x1FF 0x1000) (.ok m') ∧
        Filled ⟨fun _ => 0, []⟩ 0x1000 0x1FF 0x1000 m') ↔
    (0x1000 : BitVec 32).toNat ≤ 2 ^ 31 ∨ ∀ i < (0x1000 : BitVec 32).toNat,
      (⟨fun _ => 0, []⟩ : Memory).bytes (0x1000 + BitVec.ofNat 32 i) =
        (0x1FF : BitVec 32).setWidth 8 :=
  memset_agree_iff ⟨fun _ => 0, []⟩ 0x1000 0x1FF 0x1000 (by decide)

/-- The portable version leaves a zeroed memory of `2 ^ 31 + 1` bytes as it is. -/
theorem memset_disagree :
    ¬ ∃ m', Settles (fun k => Portable.memset k ⟨fun _ => 0, []⟩ 0 1 0x80000001) (.ok m') ∧
      m'.bytes = (memset ⟨fun _ => 0, []⟩ 0 1 0x80000001).bytes := by
  rintro ⟨m', hrun, hbytes⟩
  have hskip := Portable.memset_skips ⟨fun _ => 0, []⟩ 0 1 0x80000001 (by decide)
  obtain rfl := Except.ok.inj (hrun.unique hskip)
  have hzero := congrFun hbytes 0
  rw [bytes_memset, if_pos (by decide)] at hzero
  exact absurd hzero (by decide)

end Jos
