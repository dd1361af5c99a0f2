import Jos.Prog.Loop
import Jos.Prog.Memory
import Jos.Prog.Overlay
import Mathlib.Tactic.IntervalCases

/-! `boot/main.c`: the boot loader, on the parts of `inc/elf.h` that it reads. -/
namespace Jos

open Prog

abbrev sectSize : ℕ := 512

/-- Scratch space. -/
abbrev elfHdr : Addr := 0x10000

/-- The disk, as the bytes of each sector. -/
abbrev Disk := ℕ → ℕ → Byte

/-- The kernel image starts at sector 1. -/
def Disk.image (d : Disk) (k : ℕ) : Byte := d (1 + k / sectSize) (k % sectSize)

/-- The sector that the registers 0x1F3 to 0x1F6 select. Of the last, the drive takes the lower
half; the upper half is the mode. -/
def lba (offset : BitVec 32) : BitVec 28 :=
  (((offset >>> 24).setWidth 8 ||| 0xE0#8).setWidth 4 ++ (offset >>> 16).setWidth 8 ++
    (offset >>> 8).setWidth 8 ++ offset.setWidth 8 : BitVec (4 + 8 + 8 + 8))

/-- Read one sector to `dst`, once the disk is ready. -/
def readsect (d : Disk) (dst : Addr) (offset : BitVec 32) (m : Memory) : Memory :=
  m.storeBytes dst ((List.range sectSize).map (d (lba offset).toNat))

def readsegBody (d : Disk) (endPa : Addr) :
    Addr × BitVec 32 × Memory → Res (Addr × BitVec 32 × Memory ⊕ Memory)
  | (pa, offset, m) =>
    if pa < endPa then
      .ok (.inl (pa + BitVec.ofNat 32 sectSize, offset + 1, readsect d pa offset m))
    else .ok (.inr m)

/-- Read `count` bytes at `offset` from the kernel to `pa`; may copy more than asked. -/
def readseg (fuel : ℕ) (d : Disk) (pa : Addr) (count offset : BitVec 32) (m : Memory) :
    Res Memory :=
  let endPa := pa + count
  let pa := pa &&& ~~~(BitVec.ofNat 32 sectSize - 1)
  let offset := offset / BitVec.ofNat 32 sectSize + 1
  loop (readsegBody d endPa) fuel (pa, offset, m)

/-- `"\x7FELF"` in little endian. -/
abbrev elfMagic : BitVec 32 := 0x464C457F

/-- What is read of a `struct Proghdr`. -/
structure Proghdr where
  offset : BitVec 32
  pa : BitVec 32
  filesz : BitVec 32
  memsz : BitVec 32

def bootmainBody (fuel : ℕ) (d : Disk) (eph : Addr) :
    Addr × Memory → Res (Addr × Memory ⊕ Memory)
  | (ph, m) =>
    if ph < eph then do
      let m ← readseg fuel d (m.load32 (ph + 12)) (m.load32 (ph + 20)) (m.load32 (ph + 4)) m
      pure (.inl (ph + 32, m))
    else pure (.inr m)

/-- The entry point that is called, or `none` when the image is not an ELF file. -/
def bootmain (fuel : ℕ) (d : Disk) (m : Memory) : Res (Option Addr × Memory) := do
  let m ← readseg fuel d elfHdr (BitVec.ofNat 32 (sectSize * 8)) 0 m
  if m.load32 elfHdr ≠ elfMagic then pure (none, m)
  else do
    let ph := elfHdr + m.load32 (elfHdr + 28)
    let eph := ph + 32 * (m.load16 (elfHdr + 44)).setWidth 32
    let m ← loop (bootmainBody fuel d eph) fuel (ph, m)
    pure (some (m.load32 (elfHdr + 24)), m)

/-! ### Sectors -/

variable {d : Disk} {m : Memory} {pa endPa a : Addr} {offset count : BitVec 32} {n k : ℕ}

/-- Down and up to the boundary of a sector. -/
def down (n : ℕ) : ℕ := n / sectSize * sectSize

def up (n : ℕ) : ℕ := (n + (sectSize - 1)) / sectSize * sectSize

theorem lba_eq (offset : BitVec 32) : lba offset = offset.setWidth 28 := by
  apply BitVec.eq_of_getLsbD_eq
  intro i hi
  simp only [lba, BitVec.getLsbD_append, BitVec.getLsbD_setWidth, BitVec.getLsbD_or,
    BitVec.getLsbD_ushiftRight]
  interval_cases i <;> simp

theorem toNat_lba (h : offset.toNat < 2 ^ 28) : (lba offset).toNat = offset.toNat := by
  rw [lba_eq, BitVec.toNat_setWidth, Nat.mod_eq_of_lt h]

theorem bytes_readsect (h : offset.toNat < 2 ^ 28) :
    (readsect d pa offset m).bytes a =
      if (a - pa).toNat < sectSize then d offset.toNat (a - pa).toNat else m.bytes a := by
  have hlen : ((List.range sectSize).map (d offset.toNat)).length = sectSize := by
    rw [List.length_map, List.length_range]
  rw [readsect, toNat_lba h, Memory.bytes_storeBytes (by rw [hlen]; decide)]
  by_cases hlt : (a - pa).toNat < sectSize
  · rw [if_pos hlt, List.getElem?_map, List.getElem?_range hlt]
    rfl
  · rw [if_neg hlt, List.getElem?_eq_none (by omega)]
    rfl

theorem toNat_and_sector (pa : BitVec 32) :
    (pa &&& ~~~(BitVec.ofNat 32 sectSize - 1)).toNat = down pa.toNat := by
  have hmask : ~~~(BitVec.ofNat 32 sectSize - 1) = BitVec.allOnes 32 <<< 9 := rfl
  have hlt := pa.isLt
  rw [hmask, ← BitVec.shiftLeft_ushiftRight, BitVec.toNat_shiftLeft, BitVec.toNat_ushiftRight,
    Nat.shiftRight_eq_div_pow, Nat.shiftLeft_eq, down]
  change pa.toNat / 512 * 512 % 2 ^ 32 = pa.toNat / 512 * 512
  omega

/-- What the loop of `readseg` leaves, when `k` sectors remain and the address does not wrap. -/
theorem readseg_loop (d : Disk) (m : Memory) (pa endPa offset : BitVec 32) (k : ℕ)
    (hk : endPa.toNat ≤ pa.toNat + sectSize * k)
    (hk' : pa.toNat + sectSize * k < endPa.toNat + sectSize)
    (hend : endPa.toNat + sectSize ≤ 2 ^ 32) (hoff : offset.toNat + k < 2 ^ 28) :
    ∃ m', Settles (fun n => loop (readsegBody d endPa) n (pa, offset, m)) (.ok m') ∧
      ∀ a, m'.bytes a = if (a - pa).toNat < sectSize * k then
        d (offset.toNat + (a - pa).toNat / sectSize) ((a - pa).toNat % sectSize)
        else m.bytes a := by
  simp only [sectSize] at hk hk' hend
  induction k generalizing pa offset m with
  | zero =>
    have hstop : ¬ pa < endPa := by bv_omega
    exact ⟨m, .loop_exit (if_neg hstop), fun a => rfl⟩
  | succ k ih =>
    have hgo : pa < endPa := by bv_omega
    have hpa : (pa + BitVec.ofNat 32 sectSize).toNat = pa.toNat + 512 := by
      simp only [sectSize]
      bv_omega
    have hoff' : (offset + 1).toNat = offset.toNat + 1 := by bv_omega
    obtain ⟨m', hrun, hbytes⟩ := ih (readsect d pa offset m) (pa + BitVec.ofNat 32 sectSize)
      (offset + 1) (by omega) (by omega) (by omega)
    refine ⟨m', .loop_next (if_pos hgo) hrun, fun a => ?_⟩
    rw [hbytes, bytes_readsect (by omega), hoff']
    simp only [sectSize] at *
    by_cases hfirst : (a - pa).toNat < 512
    · have hout : ¬ (a - (pa + BitVec.ofNat 32 512)).toNat < 512 * k := by bv_omega
      rw [if_neg hout, if_pos hfirst, if_pos (by omega), Nat.div_eq_of_lt hfirst,
        Nat.mod_eq_of_lt hfirst, Nat.add_zero]
    · have hdist : (a - pa).toNat = (a - (pa + BitVec.ofNat 32 512)).toNat + 512 := by bv_omega
      by_cases hin : (a - (pa + BitVec.ofNat 32 512)).toNat < 512 * k
      · rw [if_pos hin, if_pos (by omega), hdist, Nat.add_mod_right,
          Nat.add_div_right _ (by decide), Nat.add_assoc, Nat.add_comm 1]
      · rw [if_neg hin, if_neg hfirst, if_neg (by omega)]

theorem image_down (d : Disk) (x : ℕ) :
    d.image (down n + x) = d (n / sectSize + 1 + x / sectSize) (x % sectSize) := by
  have hdiv : (n / sectSize * sectSize + x) / sectSize = n / sectSize + x / sectSize := by
    simp only [sectSize]
    omega
  have hmod : (n / sectSize * sectSize + x) % sectSize = x % sectSize := by
    simp only [sectSize]
    omega
  rw [Disk.image, down, hdiv, hmod, ← Nat.add_assoc, Nat.add_comm 1]

theorem toNat_first_sector (offset : BitVec 32) :
    (offset / BitVec.ofNat 32 sectSize + 1).toNat = 1 + offset.toNat / sectSize := by
  have hdiv : (offset / BitVec.ofNat 32 sectSize).toNat = offset.toNat / 512 := BitVec.toNat_udiv
  have hlt := offset.isLt
  rw [BitVec.toNat_add, hdiv]
  change (offset.toNat / 512 + 1) % 2 ^ 32 = 1 + offset.toNat / 512
  omega

/-- The sectors that hold the bytes from `pa` to `pa + count` are copied from the image. -/
theorem readseg_settles (d : Disk) (m : Memory) (offset : BitVec 32)
    (h : pa.toNat + count.toNat ≤ 2 ^ 32 - sectSize) :
    ∃ m', Settles (fun n => readseg n d pa count offset m) (.ok m') ∧
      ∀ a : Addr, m'.bytes a =
        if down pa.toNat ≤ a.toNat ∧ a.toNat < up (pa.toNat + count.toNat) then
          d.image (down offset.toNat + (a.toNat - down pa.toNat))
        else m.bytes a := by
  have hoffset := offset.isLt
  have hend : (pa + count).toNat = pa.toNat + count.toNat := by
    simp only [sectSize] at h
    bv_omega
  have hpa := toNat_and_sector pa
  have hsect := toNat_first_sector offset
  obtain ⟨k, hk⟩ : ∃ k, up (pa.toNat + count.toNat) = down pa.toNat + sectSize * k := by
    refine ⟨(up (pa.toNat + count.toNat) - down pa.toNat) / sectSize, ?_⟩
    simp only [up, down, sectSize]
    omega
  have hup : pa.toNat + count.toNat ≤ up (pa.toNat + count.toNat) ∧
      up (pa.toNat + count.toNat) < pa.toNat + count.toNat + sectSize := by
    simp only [up, sectSize]
    omega
  simp only [readseg]
  generalize pa &&& ~~~(BitVec.ofNat 32 sectSize - 1) = first at hpa
  rw [← hpa] at hk
  obtain ⟨m', hrun, hbytes⟩ := readseg_loop d m first (pa + count)
    (offset / BitVec.ofNat 32 sectSize + 1) k (by omega) (by omega)
    (by simp only [sectSize] at *; omega) (by simp only [sectSize] at *; omega)
  refine ⟨m', hrun, fun a => ?_⟩
  rw [hbytes, ← hpa, hk, hsect, Nat.add_comm 1, image_down]
  simp only [sectSize] at *
  by_cases hin : first.toNat ≤ a.toNat ∧ a.toNat < first.toNat + 512 * k
  · have hdist : (a - first).toNat = a.toNat - first.toNat := by bv_omega
    rw [if_pos hin, hdist, if_pos (by omega)]
  · have hout : ¬ (a - first).toNat < 512 * k := by bv_omega
    rw [if_neg hin, if_neg hout]

end Jos
