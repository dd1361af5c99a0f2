import Jos.Kern.SelfMap

/-!
`kern/entrypgdir.c`: the page directory that `kern/entry.S` loads, on which all the C code runs.
-/
namespace Jos

open Prog

/-- `entry_pgtable`, entry by entry. -/
def entryPgtable (i : BitVec 10) : BitVec 32 := i.setWidth 32 * 0x1000 ||| PTE_P ||| PTE_W

/-- `entry_pgdir`, for a page table that is linked at `pgtable`. -/
def entryPgdir (pgtable : Addr) (i : BitVec 10) : BitVec 32 :=
  if i = 0 then pgtable - kernBase + PTE_P
  else if i.setWidth 32 = kernBase >>> pdxShift then pgtable - kernBase + PTE_P + PTE_W
  else 0

/-- Both tables lie in the physical memory, each at the beginning of a page. -/
structure EntryTables (mem : Memory) (pgdir pgtable : Addr) : Prop where
  dir_aligned : pgOff (pgdir - kernBase) = 0
  table_aligned : pgOff (pgtable - kernBase) = 0
  dir : ∀ i : BitVec 10, tableAt mem (pgdir - kernBase) (i.setWidth 32) = entryPgdir pgtable i
  table : ∀ i : BitVec 10, tableAt mem (pgtable - kernBase) (i.setWidth 32) = entryPgtable i

/-- What a table maps: 4 MB from the physical address 0 on. -/
abbrev entrySize : BitVec 32 := 0x400000

variable {mem : Memory} {pgdir pgtable va D e : BitVec 32} {i : BitVec 10}

/-! ### The entries -/

theorem getLsbD_iff {i : ℕ} : e.getLsbD i ↔ e.toNat / 2 ^ i % 2 = 1 := by
  rw [BitVec.getLsbD, Nat.testBit_eq_decide_div_mod_eq, decide_eq_true_eq]

theorem toNat_entryPgtable (i : BitVec 10) : (entryPgtable i).toNat = 2 ^ 12 * i.toNat + 3 := by
  have hi := i.isLt
  have hpage : (i.setWidth 32 * 0x1000 : BitVec 32).toNat = 2 ^ 12 * i.toNat := by
    rw [BitVec.toNat_mul, BitVec.toNat_setWidth_of_le (by decide)]
    change i.toNat * 4096 % 2 ^ 32 = _
    omega
  have hflags : (PTE_P ||| PTE_W).toNat = 3 := by decide
  rw [entryPgtable, BitVec.or_assoc, BitVec.toNat_or, hpage, hflags,
    ← Nat.two_pow_add_eq_or_of_lt (by decide)]

theorem entryPgtable_facts (i : BitVec 10) : Present (entryPgtable i) ∧
    Writable (entryPgtable i) ∧ (entryPgtable i).toNat / 2 ^ 12 = i.toNat := by
  have hnat := toNat_entryPgtable i
  refine ⟨?_, ?_, by omega⟩
  · rw [Present, getLsbD_iff, hnat]
    omega
  · rw [Writable, getLsbD_iff, hnat]
    omega

/-- What the entries of the directory have in common. -/
structure LeadsTo (pde table : BitVec 32) : Prop where
  present : Present pde
  small : ¬ Large pde
  frame_eq : frame pde = frame table

/-- With some flags below the page size bit, the first of them set. -/
theorem leadsTo_add (h : pgOff D = 0) (flags : BitVec 32) (hodd : flags.toNat % 2 = 1)
    (hlt : flags.toNat < 128) :
    LeadsTo (D + flags) D ∧ (Writable (D + flags) ↔ flags.toNat / 2 % 2 = 1) := by
  have hoff := mod_of_aligned h
  have hD := D.isLt
  have hsum : (D + flags).toNat = D.toNat + flags.toNat := by
    rw [BitVec.toNat_add]
    omega
  refine ⟨⟨?_, ?_, ?_⟩, ?_⟩
  · rw [Present, getLsbD_iff, hsum]
    omega
  · rw [Large, getLsbD_iff, hsum]
    omega
  · apply BitVec.eq_of_toNat_eq
    rw [toNat_frame, toNat_frame, hsum]
    omega
  · rw [Writable, getLsbD_iff, hsum]
    omega

/-! ### The walk -/

theorem EntryTables.entry_table (h : EntryTables mem pgdir pgtable) {pde : BitVec 32}
    (hpde : LeadsTo pde (pgtable - kernBase)) (i : BitVec 10) :
    mem.entry pde i = entryPgtable i := by
  rw [Memory.entry, ← entryAddr_frame, hpde.frame_eq, entryAddr_frame,
    entryAddr_aligned h.table_aligned]
  exact h.table i

theorem EntryTables.entry_dir (h : EntryTables mem pgdir pgtable) (i : BitVec 10) :
    mem.entry (pgdir - kernBase) i = entryPgdir pgtable i := by
  rw [Memory.entry, entryAddr_aligned h.dir_aligned]
  exact h.dir i

theorem toNat_and_low (va : BitVec 32) : (va &&& 0x3FFFFF).toNat = va.toNat % 2 ^ 22 := by
  rw [BitVec.toNat_and]
  exact Nat.and_two_pow_sub_one_eq_mod _ 22

/-- Through the table, the walk takes the low 22 bits for the physical address. -/
theorem EntryTables.walk_table (h : EntryTables mem pgdir pgtable) {pde : BitVec 32}
    (hdir : entryPgdir pgtable (va.extractLsb' 22 10) = pde)
    (hpde : LeadsTo pde (pgtable - kernBase)) :
    walk mem (pgdir - kernBase) va = some (va &&& 0x3FFFFF) ∧
      walkWrite mem (pgdir - kernBase) va =
        if Writable pde then some (va &&& 0x3FFFFF) else none := by
  obtain ⟨hpresent, hwrite, hpage⟩ := entryPgtable_facts (va.extractLsb' 12 10)
  have hentry : mem.entry (pgdir - kernBase) (va.extractLsb' 22 10) = pde :=
    (h.entry_dir _).trans hdir
  have hpa : (entryPgtable (va.extractLsb' 12 10)).extractLsb' 12 20 ++ va.extractLsb' 0 12 =
      va &&& 0x3FFFFF := by
    apply BitVec.eq_of_toNat_eq
    rw [toNat_append_eq, toNat_extract, toNat_extract, hpage, toNat_extract, toNat_and_low]
    omega
  have hwalk : walk mem (pgdir - kernBase) va = some (va &&& 0x3FFFFF) := by
    rw [walk_of_table hentry hpde.present hpde.small, h.entry_table hpde,
      if_neg (not_not_intro hpresent), hpa]
  refine ⟨hwalk, ?_⟩
  rw [walkWrite_of_table hentry hpde.small, h.entry_table hpde, hwalk]
  simp only [hwrite, and_true]

theorem toNat_entrySize : entrySize.toNat = 2 ^ 22 := rfl

/-- The addresses from 0 on, those from `KERNBASE` on, and all others, told by the entry of the
directory. -/
theorem dir_cases (va : BitVec 32) :
    (va.extractLsb' 22 10 = 0 ↔ va < entrySize) ∧
      ((va.extractLsb' 22 10).setWidth 32 = kernBase >>> pdxShift ↔ va - kernBase < entrySize) ∧
      (va < entrySize → ¬ va - kernBase < entrySize) := by
  have hva := va.isLt
  have hdir : (va.extractLsb' 22 10).toNat = va.toNat / 2 ^ 22 := by
    rw [toNat_extract]
    omega
  have hwide : ((va.extractLsb' 22 10).setWidth 32 : BitVec 32).toNat = va.toNat / 2 ^ 22 := by
    rw [BitVec.toNat_setWidth_of_le (by decide), hdir]
  have hbase : (kernBase >>> pdxShift : BitVec 32).toNat = 960 := by decide
  have hsub : (va - kernBase).toNat = (2 ^ 32 - 0xF0000000 + va.toNat) % 2 ^ 32 :=
    BitVec.toNat_sub ..
  rw [← BitVec.toNat_inj, ← BitVec.toNat_inj, hdir, hwide, hbase, BitVec.lt_def, BitVec.lt_def,
    hsub, toNat_entrySize]
  change (_ = 0 ↔ _) ∧ _
  omega

theorem and_of_low (h : va < entrySize) : va &&& 0x3FFFFF = va := by
  apply BitVec.eq_of_toNat_eq
  rw [toNat_and_low]
  exact Nat.mod_eq_of_lt h

theorem and_of_high (h : va - kernBase < entrySize) : va &&& 0x3FFFFF = va - kernBase := by
  have hva := va.isLt
  have hsub : (va - kernBase).toNat = (2 ^ 32 - 0xF0000000 + va.toNat) % 2 ^ 32 :=
    BitVec.toNat_sub ..
  rw [BitVec.lt_def, hsub, toNat_entrySize] at h
  apply BitVec.eq_of_toNat_eq
  rw [toNat_and_low, hsub]
  omega

/-- The first 4 MB of the physical memory are where they are and at `KERNBASE`, where they can be
written too. There is nothing else. -/
theorem entry_mapping (h : EntryTables mem pgdir pgtable) (va : Addr) :
    walk mem (pgdir - kernBase) va =
      (if va < entrySize then some va
      else if va - kernBase < entrySize then some (va - kernBase) else none) ∧
    walkWrite mem (pgdir - kernBase) va =
      if va - kernBase < entrySize then some (va - kernBase) else none := by
  obtain ⟨hlow, hhigh, hapart⟩ := dir_cases va
  by_cases h0 : va < entrySize
  · have hdir : entryPgdir pgtable (va.extractLsb' 22 10) = pgtable - kernBase + PTE_P :=
      if_pos (hlow.mpr h0)
    obtain ⟨hleads, hwrite⟩ := leadsTo_add h.table_aligned PTE_P (by decide) (by decide)
    obtain ⟨hwalk, hwalkWrite⟩ := h.walk_table hdir hleads
    have hread : ¬ Writable (pgtable - kernBase + PTE_P) :=
      fun hw => absurd (hwrite.mp hw) (by decide)
    rw [if_pos h0, if_neg (hapart h0), hwalk, hwalkWrite, if_neg hread, and_of_low h0]
    exact ⟨rfl, rfl⟩
  · rw [if_neg h0]
    by_cases h1 : va - kernBase < entrySize
    · have hdir : entryPgdir pgtable (va.extractLsb' 22 10) =
          pgtable - kernBase + PTE_P + PTE_W :=
        (if_neg (mt hlow.mp h0)).trans (if_pos (hhigh.mpr h1))
      obtain ⟨hleads, hwrite⟩ := leadsTo_add h.table_aligned (PTE_P + PTE_W) (by decide)
        (by decide)
      rw [← BitVec.add_assoc] at hleads hwrite
      obtain ⟨hwalk, hwalkWrite⟩ := h.walk_table hdir hleads
      rw [if_pos h1, hwalk, hwalkWrite, if_pos (hwrite.mpr (by decide)), and_of_high h1]
      exact ⟨rfl, rfl⟩
    · have hentry : mem.entry (pgdir - kernBase) (va.extractLsb' 22 10) = 0 :=
        (h.entry_dir _).trans ((if_neg (mt hlow.mp h0)).trans (if_neg (mt hhigh.mp h1)))
      have habsent : ¬ Present (0 : BitVec 32) := by decide
      have hread : ¬ Writable (0 : BitVec 32) := by decide
      rw [if_neg h1]
      refine ⟨walk_of_absent (by rwa [hentry]), ?_⟩
      rw [walkWrite, hentry]
      exact if_neg fun hw => hread hw.1

/-- The directory at 0x110000 and the table behind it. -/
def entryMemory : Memory := .ofWords fun j =>
  if j.extractLsb' 10 20 = 0x110 then entryPgdir 0xF0111000 (j.extractLsb' 0 10)
  else entryPgtable (j.extractLsb' 0 10)

theorem entryTables_entryMemory : EntryTables entryMemory 0xF0110000 0xF0111000 where
  dir_aligned := by decide
  table_aligned := by decide
  dir i := by
    have hread : tableAt entryMemory 0x110000 (i.setWidth 32) = entryMemory.entry 0x110000 i := by
      rw [Memory.entry, entryAddr_aligned (by decide), tableAt]
    have hpage : (0x110000 : BitVec 32).extractLsb' 12 20 = 0x110 := by decide
    refine hread.trans ((entry_ofWords 0x110000 i).trans ?_)
    rw [hpage, BitVec.extractLsb'_append_eq_left, BitVec.extractLsb'_append_eq_right, if_pos rfl]
  table i := by
    have hread : tableAt entryMemory 0x111000 (i.setWidth 32) = entryMemory.entry 0x111000 i := by
      rw [Memory.entry, entryAddr_aligned (by decide), tableAt]
    have hpage : (0x111000 : BitVec 32).extractLsb' 12 20 = 0x111 := by decide
    refine hread.trans ((entry_ofWords 0x111000 i).trans ?_)
    rw [hpage, BitVec.extractLsb'_append_eq_left, BitVec.extractLsb'_append_eq_right,
      if_neg (by decide)]

/-- The display is seen through the directory. -/
theorem entry_mapping_display : walk entryMemory 0x110000 0xF00B8000 = some 0xB8000 :=
  (entry_mapping entryTables_entryMemory 0xF00B8000).1

end Jos
