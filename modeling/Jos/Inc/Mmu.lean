import Jos.Inc.Types
import Jos.Prog.Paging

/-! `inc/mmu.h`: the parts of an address and of an entry of a page table. -/
namespace Jos

open Prog

abbrev ptxShift : ℕ := 12
abbrev pdxShift : ℕ := 22

abbrev PTE_P : BitVec 32 := 0x001
abbrev PTE_W : BitVec 32 := 0x002
abbrev PTE_U : BitVec 32 := 0x004
abbrev PTE_PS : BitVec 32 := 0x080

/-- `PDX(la)`. -/
def pdx (la : BitVec 32) : BitVec 32 := la >>> pdxShift &&& 0x3FF

/-- `PTX(la)`. -/
def ptx (la : BitVec 32) : BitVec 32 := la >>> ptxShift &&& 0x3FF

/-- `PGOFF(la)`. -/
def pgOff (la : BitVec 32) : BitVec 32 := la &&& 0xFFF

/-- `PGADDR(d, t, o)`. -/
def pgAddr (d t o : BitVec 32) : BitVec 32 := d <<< pdxShift ||| t <<< ptxShift ||| o

/-- `PTE_ADDR(pte)`. -/
def pteAddr (pte : BitVec 32) : BitVec 32 := pte &&& ~~~0xFFF

variable {la e : BitVec 32}

theorem toNat_pdx (la : BitVec 32) : (pdx la).toNat = la.toNat / 2 ^ 22 := by
  have hla := la.isLt
  rw [pdx, BitVec.toNat_and, BitVec.toNat_ushiftRight, Nat.shiftRight_eq_div_pow]
  change (la.toNat / 2 ^ 22) &&& (2 ^ 10 - 1) = _
  rw [Nat.and_two_pow_sub_one_eq_mod]
  omega

theorem toNat_ptx (la : BitVec 32) : (ptx la).toNat = la.toNat / 2 ^ 12 % 2 ^ 10 := by
  rw [ptx, BitVec.toNat_and, BitVec.toNat_ushiftRight, Nat.shiftRight_eq_div_pow]
  exact Nat.and_two_pow_sub_one_eq_mod _ 10

theorem toNat_pgOff (la : BitVec 32) : (pgOff la).toNat = la.toNat % 2 ^ 12 := by
  rw [pgOff, BitVec.toNat_and]
  exact Nat.and_two_pow_sub_one_eq_mod _ 12

theorem pdx_eq (la : BitVec 32) : pdx la = (la.extractLsb' 22 10).setWidth 32 := by
  apply BitVec.eq_of_toNat_eq
  have hla := la.isLt
  rw [toNat_pdx, BitVec.toNat_setWidth_of_le (by decide), toNat_extract]
  omega

theorem ptx_eq (la : BitVec 32) : ptx la = (la.extractLsb' 12 10).setWidth 32 := by
  apply BitVec.eq_of_toNat_eq
  rw [toNat_ptx, BitVec.toNat_setWidth_of_le (by decide), toNat_extract]

theorem pgOff_eq (la : BitVec 32) : pgOff la = (la.extractLsb' 0 12).setWidth 32 := by
  apply BitVec.eq_of_toNat_eq
  rw [toNat_pgOff, BitVec.toNat_setWidth_of_le (by decide), toNat_extract, Nat.pow_zero,
    Nat.div_one]

/-- `PGADDR` puts the three parts one behind the other. -/
theorem pgAddr_append (d t : BitVec 10) (o : BitVec 12) :
    pgAddr (d.setWidth 32) (t.setWidth 32) (o.setWidth 32) = d ++ t ++ o := by
  have hd := d.isLt
  have ht := t.isLt
  have hdir : (d.setWidth 32 : BitVec 32) <<< pdxShift = d ++ 0#10 ++ 0#12 := by
    apply BitVec.eq_of_toNat_eq
    rw [toNat_append_eq, toNat_append_eq, BitVec.toNat_shiftLeft, Nat.shiftLeft_eq,
      BitVec.toNat_setWidth_of_le (by decide)]
    change d.toNat * 4194304 % 4294967296 = (d.toNat * 1024 + 0) * 4096 + 0
    omega
  have htab : (t.setWidth 32 : BitVec 32) <<< ptxShift = 0#10 ++ t ++ 0#12 := by
    apply BitVec.eq_of_toNat_eq
    rw [toNat_append_eq, toNat_append_eq, BitVec.toNat_shiftLeft, Nat.shiftLeft_eq,
      BitVec.toNat_setWidth_of_le (by decide)]
    change t.toNat * 4096 % 4294967296 = (0 * 1024 + t.toNat) * 4096 + 0
    omega
  have hoff : (o.setWidth 32 : BitVec 32) = 0#10 ++ 0#10 ++ o := by
    apply BitVec.eq_of_toNat_eq
    rw [toNat_append_eq, toNat_append_eq, BitVec.toNat_setWidth_of_le (by decide)]
    change o.toNat = (0 * 1024 + 0) * 4096 + o.toNat
    omega
  rw [pgAddr, hdir, htab, hoff, BitVec.or_append, BitVec.or_append, BitVec.or_append,
    BitVec.or_append]
  simp only [BitVec.or_zero, BitVec.zero_or]

theorem pteAddr_eq (e : BitVec 32) : pteAddr e = frame e := by
  have hmask : (~~~0xFFF : BitVec 32) = BitVec.allOnes 20 ++ 0#12 := by decide
  have hparts : e = e.extractLsb' 12 20 ++ e.extractLsb' 0 12 := by
    apply BitVec.eq_of_toNat_eq
    have he := e.isLt
    rw [toNat_append_eq, toNat_extract, toNat_extract]
    omega
  rw [pteAddr, hmask]
  conv_lhs => rw [hparts]
  rw [BitVec.and_append, BitVec.and_allOnes, BitVec.and_zero]
  rfl

theorem and_pteP_ne_zero : e &&& PTE_P ≠ 0 ↔ Present e :=
  and_twoPow_ne_zero (i := 0) (by decide)

theorem and_ptePS_ne_zero : e &&& PTE_PS ≠ 0 ↔ Large e :=
  and_twoPow_ne_zero (i := 7) (by decide)

/-! ### Entries of a table at the beginning of a page -/

theorem mod_of_aligned (h : pgOff la = 0) : la.toNat % 4096 = 0 := by
  have hoff := toNat_pgOff la
  rw [h] at hoff
  exact hoff.symm

theorem toNat_index (i : BitVec 10) : (4 * i.setWidth 32 : BitVec 32).toNat = 4 * i.toNat := by
  have hi := i.isLt
  rw [BitVec.toNat_mul, BitVec.toNat_setWidth_of_le (by decide)]
  change 4 * i.toNat % 2 ^ 32 = _
  omega

theorem entryAddr_aligned (h : pgOff la = 0) (i : BitVec 10) :
    entryAddr la i = la + 4 * i.setWidth 32 := by
  have hla := la.isLt
  have hi := i.isLt
  have hoff := mod_of_aligned h
  apply BitVec.eq_of_toNat_eq
  rw [toNat_entryAddr, BitVec.toNat_add, toNat_index]
  omega

theorem frame_of_aligned (h : pgOff la = 0) : frame la = la := by
  have hoff := mod_of_aligned h
  apply BitVec.eq_of_toNat_eq
  rw [toNat_frame]
  omega

end Jos
