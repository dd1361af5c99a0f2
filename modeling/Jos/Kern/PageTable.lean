import Jos.Inc.Mmu
import Jos.Kern.Pmap

/-! `check_va2pa` in `kern/pmap.c`, against the walk of the hardware. -/
namespace Jos

open Prog

/-- A word that the kernel reads: it sees the physical memory from `KERNBASE` on. -/
def kernelLoad (mem : Memory) (kva : Addr) : Res (BitVec 32) :=
  if kva < kernBase then .error .fault else .ok (mem.load32 (kva - kernBase))

/-- The physical address of the page containing `va`, defined by the page directory `pgdir`. -/
def checkVa2pa (m : Pmap) (mem : Memory) (pgdir va : Addr) : Res (BitVec 32) := do
  let pde ← kernelLoad mem (pgdir + 4 * pdx va)
  if pde &&& PTE_P = 0 then pure (~~~0)
  else if pde &&& PTE_PS ≠ 0 then pure (pgAddr (pdx pde) (ptx va) (pgOff va))
  else do
    let p ← m.kaddr (pteAddr pde)
    let pte ← kernelLoad mem (p + 4 * ptx va)
    if pte &&& PTE_P = 0 then pure (~~~0) else pure (pteAddr pte)

/-- The result is the page that the hardware finds for `va`, and `~0` when it finds none. -/
def TellsPage (m : Pmap) (mem : Memory) (pgdir va : Addr) : Prop :=
  ∃ r, checkVa2pa m mem pgdir va = .ok r ∧
    (r = ~~~0 ↔ walk mem (pgdir - kernBase) va = none) ∧
    ∀ pa, walk mem (pgdir - kernBase) va = some pa → r = frame pa

/-- The directory is a page that the kernel sees. -/
structure IsPgdir (pgdir : Addr) : Prop where
  ge : kernBase ≤ pgdir
  aligned : pgOff pgdir = 0

/-- The entry of the directory for `va`. -/
def dirEntry (mem : Memory) (pgdir va : Addr) : BitVec 32 :=
  mem.entry (pgdir - kernBase) (va.extractLsb' 22 10)

/-- The page table for `va`, if it has one, lies inside the physical memory. -/
def TableInside (m : Pmap) (mem : Memory) (pgdir va : Addr) : Prop :=
  Present (dirEntry mem pgdir va) → ¬ Large (dirEntry mem pgdir va) →
    pgNum (pteAddr (dirEntry mem pgdir va)) < m.npages

variable {m : Pmap} {mem : Memory} {pgdir va kva page : Addr} {pa pde pte : BitVec 32}

/-! ### What the kernel reads -/

theorem kernelLoad_of_ge (h : kernBase ≤ kva) :
    kernelLoad mem kva = .ok (mem.load32 (kva - kernBase)) := if_neg (BitVec.not_lt.mpr h)

theorem toNat_kernBase : kernBase.toNat = 0xF0000000 := rfl

/-- An entry of a page that the kernel sees. -/
theorem kernelLoad_entry (h : kernBase ≤ page) (haligned : pgOff page = 0) (i : BitVec 10) :
    kernelLoad mem (page + 4 * i.setWidth 32) = .ok (mem.entry (page - kernBase) i) := by
  have hpage := page.isLt
  have hi := i.isLt
  have hoff := mod_of_aligned haligned
  rw [BitVec.le_def, toNat_kernBase] at h
  have hge : kernBase ≤ page + 4 * i.setWidth 32 := by
    rw [BitVec.le_def, BitVec.toNat_add, toNat_index, toNat_kernBase]
    omega
  have hphys : pgOff (page - kernBase) = 0 := by
    apply BitVec.eq_of_toNat_eq
    rw [toNat_pgOff, BitVec.toNat_sub, toNat_kernBase]
    change _ = 0
    omega
  rw [kernelLoad_of_ge hge, Memory.entry, entryAddr_aligned hphys, BitVec.sub_add_comm]

theorem load_dirEntry (h : IsPgdir pgdir) (va : Addr) :
    kernelLoad mem (pgdir + 4 * pdx va) = .ok (dirEntry mem pgdir va) := by
  rw [pdx_eq]
  exact kernelLoad_entry h.ge h.aligned _

theorem toNat_pteAddr (e : BitVec 32) : (pteAddr e).toNat = e.toNat / 4096 * 4096 := by
  rw [pteAddr_eq, toNat_frame]

/-- The window of the kernel ends at 256 MB: the address of a table above them wraps around. -/
theorem load_table (pde va : BitVec 32) :
    kernelLoad mem (pteAddr pde + kernBase + 4 * ptx va) =
      if pteAddr pde < 0x10000000 then .ok (mem.entry pde (va.extractLsb' 12 10))
      else .error .fault := by
  have hpde := pde.isLt
  have hpa := toNat_pteAddr pde
  have hbound : (0x10000000 : BitVec 32).toNat = 0x10000000 := rfl
  have haligned : pgOff (pteAddr pde + kernBase) = 0 := by
    apply BitVec.eq_of_toNat_eq
    rw [toNat_pgOff, BitVec.toNat_add, hpa, toNat_kernBase]
    change _ = 0
    omega
  rw [ptx_eq]
  by_cases hlow : pteAddr pde < 0x10000000
  · have hge : kernBase ≤ pteAddr pde + kernBase := by
      rw [BitVec.lt_def, hpa, hbound] at hlow
      rw [BitVec.le_def, BitVec.toNat_add, hpa, toNat_kernBase]
      omega
    rw [if_pos hlow, kernelLoad_entry hge haligned, BitVec.add_sub_cancel, pteAddr_eq,
      Memory.entry, entryAddr_frame]
    rfl
  · have hi := (va.extractLsb' 12 10).isLt
    have hlt : pteAddr pde + kernBase + 4 * (va.extractLsb' 12 10).setWidth 32 < kernBase := by
      rw [BitVec.lt_def, hpa, hbound] at hlow
      rw [BitVec.lt_def, BitVec.toNat_add, BitVec.toNat_add, toNat_index, hpa, toNat_kernBase]
      omega
    rw [if_neg hlow]
    exact if_pos hlt

/-! ### The results -/

/-- The address in a large page: the code returns it with its offset. -/
theorem pgAddr_large (pde va : BitVec 32) :
    pgAddr (pdx pde) (ptx va) (pgOff va) = pde.extractLsb' 22 10 ++ va.extractLsb' 0 22 := by
  have hva := va.isLt
  rw [pdx_eq, ptx_eq, pgOff_eq, pgAddr_append]
  apply BitVec.eq_of_toNat_eq
  rw [toNat_append_eq, toNat_append_eq, toNat_append_eq, toNat_extract, toNat_extract,
    toNat_extract, toNat_extract]
  omega

theorem pgOff_large (pde va : BitVec 32) :
    pgOff (pde.extractLsb' 22 10 ++ va.extractLsb' 0 22 : BitVec 32) = pgOff va := by
  apply BitVec.eq_of_toNat_eq
  rw [toNat_pgOff, toNat_pgOff, toNat_append_eq, toNat_extract, toNat_extract]
  omega

theorem eq_frame_iff : pa = frame pa ↔ pgOff pa = 0 := by
  refine ⟨fun h => ?_, fun h => (frame_of_aligned h).symm⟩
  have hnat := congrArg BitVec.toNat h
  rw [toNat_frame] at hnat
  apply BitVec.eq_of_toNat_eq
  rw [toNat_pgOff]
  change _ = 0
  omega

theorem frame_ne_failure (pa : BitVec 32) : frame pa ≠ ~~~0 := by
  intro h
  have hnat := congrArg BitVec.toNat h
  rw [toNat_frame] at hnat
  change _ = 2 ^ 32 - 1 at hnat
  omega

theorem tellsPage_absent (hdir : IsPgdir pgdir) (h : ¬ Present (dirEntry mem pgdir va)) :
    TellsPage m mem pgdir va := by
  have hwalk : walk mem (pgdir - kernBase) va = none := walk_of_absent h
  refine ⟨~~~0, ?_, iff_of_true rfl hwalk, ?_⟩
  · rw [checkVa2pa, load_dirEntry hdir, ok_bind,
      if_pos (not_not.mp (mt and_pteP_ne_zero.mp h))]
    rfl
  · intro pa hpa
    rw [hwalk] at hpa
    cases hpa

theorem tellsPage_large (hdir : IsPgdir pgdir) (h : Present (dirEntry mem pgdir va))
    (hlarge : Large (dirEntry mem pgdir va)) : TellsPage m mem pgdir va ↔ pgOff va = 0 := by
  let pa : BitVec 32 := (dirEntry mem pgdir va).extractLsb' 22 10 ++ va.extractLsb' 0 22
  have hwalk : walk mem (pgdir - kernBase) va = some pa := walk_of_large h hlarge
  have hrun : checkVa2pa m mem pgdir va = .ok pa := by
    rw [checkVa2pa, load_dirEntry hdir, ok_bind, if_neg (and_pteP_ne_zero.mpr h),
      if_pos (and_ptePS_ne_zero.mpr hlarge), pgAddr_large]
    rfl
  rw [← pgOff_large (dirEntry mem pgdir va) va]
  constructor
  · rintro ⟨r, hr, -, hframe⟩
    obtain rfl := Except.ok.inj (hrun.symm.trans hr)
    exact eq_frame_iff.mp (hframe pa hwalk)
  · intro hoff
    have hframe : pa = frame pa := eq_frame_iff.mpr hoff
    refine ⟨pa, hrun, iff_of_false ?_ ?_, ?_⟩
    · rw [hframe]
      exact frame_ne_failure pa
    · rw [hwalk]
      exact Option.some_ne_none pa
    · intro pa' hpa'
      obtain rfl := Option.some.inj (hwalk.symm.trans hpa')
      exact hframe

theorem checkVa2pa_table (hdir : IsPgdir pgdir) (h : Present (dirEntry mem pgdir va))
    (hsmall : ¬ Large (dirEntry mem pgdir va)) (htable : TableInside m mem pgdir va) :
    checkVa2pa m mem pgdir va =
      (if pteAddr (dirEntry mem pgdir va) < 0x10000000 then
        .ok (mem.entry (dirEntry mem pgdir va) (va.extractLsb' 12 10))
      else .error .fault) >>= fun pte =>
        if pte &&& PTE_P = 0 then .ok (~~~0) else .ok (pteAddr pte) := by
  rw [checkVa2pa, load_dirEntry hdir, ok_bind, if_neg (and_pteP_ne_zero.mpr h),
    if_neg (mt and_ptePS_ne_zero.mp hsmall), Pmap.kaddr,
    if_neg (BitVec.not_le.mpr (htable h hsmall)), ok_bind, load_table]
  rfl

theorem tellsPage_table (hdir : IsPgdir pgdir) (h : Present (dirEntry mem pgdir va))
    (hsmall : ¬ Large (dirEntry mem pgdir va)) (htable : TableInside m mem pgdir va) :
    TellsPage m mem pgdir va ↔ pteAddr (dirEntry mem pgdir va) < 0x10000000 := by
  have hrun := checkVa2pa_table hdir h hsmall htable
  by_cases hlow : pteAddr (dirEntry mem pgdir va) < 0x10000000
  · refine iff_of_true ?_ hlow
    rw [if_pos hlow, ok_bind] at hrun
    have hwalk : walk mem (pgdir - kernBase) va = if ¬ Present (mem.entry (dirEntry mem pgdir va)
        (va.extractLsb' 12 10)) then none else _ := walk_of_table rfl h hsmall
    by_cases hpte : Present (mem.entry (dirEntry mem pgdir va) (va.extractLsb' 12 10))
    · rw [if_neg (and_pteP_ne_zero.mpr hpte), pteAddr_eq] at hrun
      rw [if_neg (not_not_intro hpte)] at hwalk
      refine ⟨_, hrun, iff_of_false (frame_ne_failure _) ?_, ?_⟩
      · rw [hwalk]
        exact Option.some_ne_none _
      · intro pa hpa
        obtain rfl := Option.some.inj (hwalk.symm.trans hpa)
        exact (frame_append _ _).symm
    · rw [if_pos (not_not.mp (mt and_pteP_ne_zero.mp hpte))] at hrun
      rw [if_pos hpte] at hwalk
      refine ⟨_, hrun, iff_of_true rfl hwalk, ?_⟩
      intro pa hpa
      rw [hwalk] at hpa
      cases hpa
  · refine iff_of_false ?_ hlow
    rw [if_neg hlow] at hrun
    rintro ⟨r, hr, -⟩
    exact nomatch hr.symm.trans hrun

/-- The page of `va` is told unless `va` is not the first address of a page that lies in a large
one: the offset stays in the result. A page table must lie in the window of the kernel. -/
theorem va2pa_iff (m : Pmap) (mem : Memory) (pgdir va : Addr) (hdir : IsPgdir pgdir)
    (htable : TableInside m mem pgdir va) :
    TellsPage m mem pgdir va ↔ (Present (dirEntry mem pgdir va) →
      (Large (dirEntry mem pgdir va) → pgOff va = 0) ∧
      (¬ Large (dirEntry mem pgdir va) → pteAddr (dirEntry mem pgdir va) < 0x10000000)) := by
  by_cases h : Present (dirEntry mem pgdir va)
  · by_cases hlarge : Large (dirEntry mem pgdir va)
    · rw [tellsPage_large hdir h hlarge]
      refine ⟨fun hoff _ => ⟨fun _ => hoff, fun hsmall => absurd hlarge hsmall⟩, fun hcond => ?_⟩
      exact (hcond h).1 hlarge
    · rw [tellsPage_table hdir h hlarge htable]
      refine ⟨fun hlow _ => ⟨fun hl => absurd hl hlarge, fun _ => hlow⟩, fun hcond => ?_⟩
      exact (hcond h).2 hlarge
  · exact iff_of_true (tellsPage_absent hdir h) fun hp => absurd hp h

/-- A directory at the physical address 0 whose first entry maps the first 4 MB. -/
def largeMemory : Memory := (⟨fun _ => 0, []⟩ : Memory).storeBytes 0 [0x83]

theorem dirEntry_largeMemory : dirEntry largeMemory 0xF0000000 1 = 0x83 := by
  decide

/-- It also has a page table at 0x2000 for the second 4 MB, with the page 0x5000. -/
def tableMemory : Memory := (largeMemory.storeBytes 4 [0x03, 0x20]).storeBytes 0x2000 [0x03, 0x50]

theorem dirEntry_tableMemory : dirEntry tableMemory 0xF0000000 0x1000 = 0x83 ∧
    dirEntry tableMemory 0xF0000000 0x400123 = 0x2003 := by
  decide

/-- The second page of the first 4 MB, and a byte of the first page of the second 4 MB. -/
theorem va2pa_iff_mapped : TellsPage ⟨3, 0, 0⟩ tableMemory 0xF0000000 0x1000 ∧
    TellsPage ⟨3, 0, 0⟩ tableMemory 0xF0000000 0x400123 := by
  have hdir : IsPgdir 0xF0000000 := ⟨by decide, by decide⟩
  obtain ⟨hlarge, htable⟩ := dirEntry_tableMemory
  constructor
  · refine (va2pa_iff ⟨3, 0, 0⟩ tableMemory 0xF0000000 0x1000 hdir ?_).mpr ?_
    · intro _ hsmall
      rw [hlarge] at hsmall
      exact absurd (by decide) hsmall
    · rw [hlarge]
      exact fun _ => ⟨fun _ => by decide, fun hsmall => absurd (by decide) hsmall⟩
  · refine (va2pa_iff ⟨3, 0, 0⟩ tableMemory 0xF0000000 0x400123 hdir ?_).mpr ?_
    · intro _ _
      rw [htable]
      decide
    · rw [htable]
      exact fun _ => ⟨fun hpage => absurd hpage (by decide), fun _ => by decide⟩

/-- The second byte of the first page is not told to lie in it. -/
theorem va2pa_keeps_offset : ¬ ∀ m mem pgdir va, IsPgdir pgdir → TableInside m mem pgdir va →
    TellsPage m mem pgdir va := by
  intro h
  have hdir : IsPgdir 0xF0000000 := ⟨by decide, by decide⟩
  have hentry := dirEntry_largeMemory
  have hpresent : Present (dirEntry largeMemory 0xF0000000 1) := by rw [hentry]; decide
  have hlarge : Large (dirEntry largeMemory 0xF0000000 1) := by rw [hentry]; decide
  have htells := h ⟨1, 0, 0⟩ largeMemory 0xF0000000 1 hdir fun _ hsmall => absurd hlarge hsmall
  exact absurd ((tellsPage_large hdir hpresent hlarge).mp htells) (by decide)

end Jos
