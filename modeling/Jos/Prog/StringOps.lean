import Jos.Prog.Memory

/-! The x86 string instructions with a `rep` prefix. -/
namespace Prog

namespace Memory

variable {m : Memory} {d s x : Addr} {w c : ℕ}

/-- One `movs` of `w` bytes: the whole item is loaded before it is stored. -/
def movs (w : ℕ) (m : Memory) (edi esi : Addr) : Memory :=
  m.storeBytes edi (m.loadBytes esi w)

/-- Where `edi` and `esi` go after one item, downward when the direction flag is set. -/
def advance (df : Bool) (w : ℕ) (a : Addr) : Addr :=
  if df then a - BitVec.ofNat 32 w else a + BitVec.ofNat 32 w

/-- `rep movs` with `ecx = c`. -/
def repMovs (df : Bool) (w : ℕ) : ℕ → Memory → Addr → Addr → Memory
  | 0, m, _, _ => m
  | c + 1, m, edi, esi => repMovs df w c (m.movs w edi esi) (advance df w edi) (advance df w esi)

theorem bytes_movs (hw : w < 2 ^ 32) :
    (m.movs w d s).bytes x =
      if (x - d).toNat < w then m.bytes (s + (x - d)) else m.bytes x := by
  rw [movs, bytes_storeBytes (by simpa using hw)]
  split
  · rename_i h
    rw [getElem?_loadBytes h, Option.getD_some, BitVec.ofNat_toNat, BitVec.setWidth_eq]
  · rw [List.getElem?_eq_none (by simp only [length_loadBytes]; omega), Option.getD_none]

/-- Source and destination advance by the same. -/
theorem add_sub_advance (s d x n : Addr) : s + n + (x - (d + n)) = s + (x - d) := by
  bv_omega

/-- Upward, each item is read before it can be overwritten when the source is at or
above the destination, or wholly below it. -/
theorem bytes_repMovs_up (hc : w * c < 2 ^ 32) (h : (s - d).toNat + w * c ≤ 2 ^ 32) :
    (repMovs false w c m d s).bytes x =
      if (x - d).toNat < w * c then m.bytes (s + (x - d)) else m.bytes x := by
  induction c generalizing m d s with
  | zero => simp [repMovs]
  | succ c ih =>
    rw [Nat.mul_succ] at hc h ⊢
    have hsd : s + BitVec.ofNat 32 w - (d + BitVec.ofNat 32 w) = s - d := by bv_omega
    simp only [repMovs, advance, Bool.false_eq_true, if_false]
    rw [ih (by omega) (by rw [hsd]; omega), bytes_movs (by omega), bytes_movs (by omega)]
    rw [add_sub_advance]
    by_cases hlow : (x - d).toNat < w
    · -- `x` is in the item written first, and later items do not reach it
      have hge : ¬ (x - (d + BitVec.ofNat 32 w)).toNat < w * c := by bv_omega
      rw [if_neg hge, if_pos hlow, if_pos (by omega)]
    · have hx : (x - (d + BitVec.ofNat 32 w)).toNat = (x - d).toNat - w := by bv_omega
      rw [hx]
      by_cases hin : (x - d).toNat < w * c + w
      · have hy : ¬ (s + (x - d) - d).toNat < w := by bv_omega
        rw [if_pos (by omega), if_neg hy, if_pos hin]
      · rw [if_neg (by omega), if_neg hlow, if_neg hin]

/-- Downward from the last item, the same holds when the source is at or below the
destination, or wholly above it. -/
theorem bytes_repMovs_down (hc : w * c < 2 ^ 32) (h : (d - s).toNat + w * c ≤ 2 ^ 32) :
    (repMovs true w c m (d + BitVec.ofNat 32 (w * c) - BitVec.ofNat 32 w)
      (s + BitVec.ofNat 32 (w * c) - BitVec.ofNat 32 w)).bytes x =
      if (x - d).toNat < w * c then m.bytes (s + (x - d)) else m.bytes x := by
  induction c generalizing m with
  | zero => simp [repMovs]
  | succ c ih =>
    rw [Nat.mul_succ] at hc h ⊢
    have hd : ∀ a : Addr, a + BitVec.ofNat 32 (w * c + w) - BitVec.ofNat 32 w =
        a + BitVec.ofNat 32 (w * c) := by
      intro a
      rw [BitVec.ofNat_add, ← BitVec.add_assoc, BitVec.add_sub_cancel]
    simp only [repMovs, advance, if_true]
    rw [hd, hd, ih (by omega) (by omega), bytes_movs (by omega), bytes_movs (by omega)]
    by_cases hlow : (x - d).toNat < w * c
    · have hy : ¬ (s + (x - d) - (d + BitVec.ofNat 32 (w * c))).toNat < w := by bv_omega
      rw [if_pos hlow, if_neg hy, if_pos (by omega)]
    · rw [if_neg hlow]
      by_cases hin : (x - d).toNat < w * c + w
      · have hx : (x - (d + BitVec.ofNat 32 (w * c))).toNat < w := by bv_omega
        rw [if_pos hx, if_pos hin, add_sub_advance]
      · have hx : ¬ (x - (d + BitVec.ofNat 32 (w * c))).toNat < w := by bv_omega
        rw [if_neg hx, if_neg hin]

/-- The log grows by addresses inside the destination range only. -/
theorem stores_repMovs_up (hc : w * c < 2 ^ 32) :
    ∃ new, (repMovs false w c m d s).stores = m.stores ++ new ∧
      ∀ y ∈ new, (y - d).toNat < w * c := by
  induction c generalizing m d s with
  | zero => exact ⟨[], by simp [repMovs]⟩
  | succ c ih =>
    rw [Nat.mul_succ] at hc ⊢
    obtain ⟨first, hfirst, hin⟩ := stores_storeBytes m d (m.loadBytes s w)
    obtain ⟨rest, hrest, hin'⟩ := ih (m := m.movs w d s) (d := d + BitVec.ofNat 32 w)
      (s := s + BitVec.ofNat 32 w) (by omega)
    refine ⟨first ++ rest, ?_, ?_⟩
    · simp only [repMovs, advance, Bool.false_eq_true, if_false]
      rw [hrest, movs, hfirst, List.append_assoc]
    · intro y hy
      rcases List.mem_append.mp hy with hy | hy
      · obtain ⟨k, hk, rfl⟩ := hin y hy
        rw [length_loadBytes] at hk
        bv_omega
      · have := hin' y hy
        bv_omega

/-! ### Stores of a register -/

/-- The low `w` bytes of a register, in little endian. -/
def leBytes (w : ℕ) (a : BitVec 32) : List Byte :=
  (List.range w).map fun i => (a >>> (8 * i)).setWidth 8

/-- `rep stos` of `w` bytes of `eax`, upward, with `ecx = c`. -/
def repStos (w : ℕ) (eax : BitVec 32) : ℕ → Memory → Addr → Memory
  | 0, m, _ => m
  | c + 1, m, edi => repStos w eax c (m.storeBytes edi (leBytes w eax)) (advance false w edi)

/-- A register whose bytes are all the same fills memory with that byte. -/
theorem bytes_repStos {eax : BitVec 32} {b : Byte} (hb : leBytes w eax = List.replicate w b)
    (hc : w * c < 2 ^ 32) :
    (repStos w eax c m d).bytes x = if (x - d).toNat < w * c then b else m.bytes x := by
  induction c generalizing m d with
  | zero => simp [repStos]
  | succ c ih =>
    rw [Nat.mul_succ] at hc ⊢
    have hstore : (m.storeBytes d (leBytes w eax)).bytes x =
        if (x - d).toNat < w then b else m.bytes x := by
      rw [hb, bytes_storeBytes (by rw [List.length_replicate]; omega), List.getElem?_replicate]
      split <;> rfl
    rw [repStos, ih (by omega), hstore]
    simp only [advance, Bool.false_eq_true, if_false]
    by_cases hlow : (x - d).toNat < w
    · rw [if_pos hlow, ite_self, if_pos (by omega)]
    · have hx : (x - (d + BitVec.ofNat 32 w)).toNat = (x - d).toNat - w := by bv_omega
      rw [if_neg hlow, hx]
      by_cases hin : (x - d).toNat < w * c + w
      · rw [if_pos hin, if_pos (by omega)]
      · rw [if_neg hin, if_neg (by omega)]

end Memory

end Prog
