import Jos.Inc.Mmu
import Jos.Kern.Pmap

/-! The page directory as a page table of itself, `mem_init` in `kern/pmap.c`. -/
namespace Jos

open Prog

/-- `PTSIZE`. -/
abbrev ptSize : BitVec 32 := pgSize * 1024

abbrev kStackTop : Addr := kernBase
abbrev mmioLim : Addr := kStackTop - ptSize
abbrev mmioBase : Addr := mmioLim - ptSize

/-- User read-only virtual page table, below `ULIM`, which is `MMIOBASE`. -/
abbrev uvpt : Addr := mmioBase - ptSize

/-- What `mem_init` puts into `kern_pgdir[PDX(UVPT)]`, where `pa` is `PADDR(kern_pgdir)`. -/
def selfEntry (pa : BitVec 32) : BitVec 32 := pa ||| PTE_U ||| PTE_P

/-- `D[i]`, for a table at the physical address `D`. -/
def tableAt (mem : Memory) (D i : BitVec 32) : BitVec 32 := mem.load32 (D + 4 * i)

variable {mem : Memory} {D va a : BitVec 32} {i : BitVec 10} {d : ℕ}

/-! ### The directory as a table -/

/-- The entry of the directory for `va`, as the walk reads it. -/
theorem entry_pdx (h : pgOff D = 0) (va : BitVec 32) :
    mem.entry D (va.extractLsb' 22 10) = tableAt mem D (pdx va) := by
  rw [Memory.entry, entryAddr_aligned h, tableAt, pdx_eq]

theorem selfEntry_eq (h : pgOff D = 0) : selfEntry D = D.extractLsb' 12 20 ++ 5#12 := by
  have hparts : D = D.extractLsb' 12 20 ++ 0#12 := (frame_of_aligned h).symm
  have hflags : (PTE_U ||| PTE_P : BitVec 32) = 0#20 ++ 5#12 := by decide
  rw [selfEntry, BitVec.or_assoc, hflags]
  conv_lhs => rw [hparts]
  rw [BitVec.or_append, BitVec.or_zero, BitVec.zero_or]

/-- The entry is present, it is not that of a large page, and it leads back to the directory. -/
theorem selfEntry_facts (h : pgOff D = 0) :
    Present (selfEntry D) ∧ ¬ Large (selfEntry D) ∧ frame (selfEntry D) = D := by
  rw [selfEntry_eq h]
  refine ⟨?_, ?_, ?_⟩
  · rw [Present, BitVec.getLsbD_append, if_pos (by decide)]
    decide
  · rw [Large, BitVec.getLsbD_append, if_pos (by decide)]
    decide
  · rw [frame_append]
    exact frame_of_aligned h

/-- Below `UVPT` the walk goes through the directory twice. -/
theorem walk_uvpt (h : pgOff D = 0) (hself : tableAt mem D (pdx uvpt) = selfEntry D)
    (ha : a.extractLsb' 22 10 = uvpt.extractLsb' 22 10)
    (hpresent : Present (mem.entry D (a.extractLsb' 12 10))) :
    walk mem D a =
      some ((mem.entry D (a.extractLsb' 12 10)).extractLsb' 12 20 ++ a.extractLsb' 0 12) := by
  obtain ⟨hp, hsmall, hframe⟩ := selfEntry_facts h
  have hpde : mem.entry D (a.extractLsb' 22 10) = selfEntry D := by
    rw [ha, entry_pdx h]
    exact hself
  have hsame : ∀ i, mem.entry (selfEntry D) i = mem.entry D i := by
    intro i
    rw [Memory.entry, ← entryAddr_frame, hframe]
    rfl
  rw [walk_of_table hpde hp hsmall, hsame, if_neg (not_not_intro hpresent)]

/-! ### The parts of the addresses -/

theorem toNat_uvpt : uvpt.toNat = 0xEF400000 := by decide

theorem toNat_uvpt_add (hd : d < 2 ^ 20) :
    (uvpt + 4 * BitVec.ofNat 32 d).toNat = 0xEF400000 + 4 * d := by
  rw [BitVec.toNat_add, BitVec.toNat_mul, BitVec.toNat_ofNat, toNat_uvpt]
  change (0xEF400000 + 4 * (d % 2 ^ 32) % 2 ^ 32) % 2 ^ 32 = _
  omega

/-- The entry `d` of the virtual page table. -/
theorem uvpt_parts (hd : d < 2 ^ 20) :
    (uvpt + 4 * BitVec.ofNat 32 d).extractLsb' 22 10 = uvpt.extractLsb' 22 10 ∧
    ((uvpt + 4 * BitVec.ofNat 32 d).extractLsb' 12 10).toNat = d / 2 ^ 10 ∧
    ((uvpt + 4 * BitVec.ofNat 32 d).extractLsb' 0 12).toNat = 4 * (d % 2 ^ 10) := by
  have hnat := toNat_uvpt_add hd
  refine ⟨?_, ?_, ?_⟩
  · apply BitVec.eq_of_toNat_eq
    rw [toNat_extract, toNat_extract, hnat, toNat_uvpt]
    omega
  · rw [toNat_extract, hnat]
    omega
  · rw [toNat_extract, hnat]
    omega

theorem pgNum_eq (va : BitVec 32) : pgNum va = BitVec.ofNat 32 (va.toNat / 2 ^ 12) := by
  apply BitVec.eq_of_toNat_eq
  have hva := va.isLt
  rw [pgNum, BitVec.toNat_ushiftRight, Nat.shiftRight_eq_div_pow, BitVec.toNat_ofNat]
  change va.toNat / 2 ^ 12 = _
  omega

/-- The address of the entry `o / 4` of the table that `pte` leads to. -/
theorem append_eq_add (pte : BitVec 32) (o : BitVec 12) {i : BitVec 32}
    (ho : o.toNat = 4 * i.toNat) : pte.extractLsb' 12 20 ++ o = pteAddr pte + 4 * i := by
  have hpte := pte.isLt
  have hlt := o.isLt
  have hmul : (4 * i).toNat = 4 * i.toNat := by
    rw [BitVec.toNat_mul]
    change 4 * i.toNat % 2 ^ 32 = _
    omega
  apply BitVec.eq_of_toNat_eq
  rw [toNat_append_eq, toNat_extract, BitVec.toNat_add, pteAddr_eq, toNat_frame, hmul, ho]
  omega

/-- The entry of a page table is found in the virtual page table at the number of its page. -/
theorem walk_uvpt_page (h : pgOff D = 0) (hself : tableAt mem D (pdx uvpt) = selfEntry D)
    (va : BitVec 32) (hpresent : Present (tableAt mem D (pdx va))) :
    walk mem D (uvpt + 4 * pgNum va) = some (pteAddr (tableAt mem D (pdx va)) + 4 * ptx va) := by
  have hva := va.isLt
  have hptx := toNat_ptx va
  obtain ⟨hdir, htab, hoff⟩ := uvpt_parts (d := va.toNat / 2 ^ 12) (by omega)
  rw [← pgNum_eq] at hdir htab hoff
  have hsame : (uvpt + 4 * pgNum va).extractLsb' 12 10 = va.extractLsb' 22 10 := by
    apply BitVec.eq_of_toNat_eq
    rw [htab, toNat_extract]
    omega
  have hentry : mem.entry D ((uvpt + 4 * pgNum va).extractLsb' 12 10) =
      tableAt mem D (pdx va) := by
    rw [hsame, entry_pdx h]
  rw [walk_uvpt h hself hdir (by rwa [hentry]), hentry]
  refine congrArg some (append_eq_add _ _ ?_)
  rw [hoff, hptx]

/-- The directory is found in the virtual page table at the page number of the table itself. -/
theorem walk_uvpt_dir (h : pgOff D = 0) (hself : tableAt mem D (pdx uvpt) = selfEntry D)
    (hd : d < 1024) :
    walk mem D (uvpt + 4 * (pgNum uvpt + BitVec.ofNat 32 d)) =
      some (D + 4 * BitVec.ofNat 32 d) := by
  obtain ⟨hp, -, hframe⟩ := selfEntry_facts h
  have hnum : pgNum uvpt + BitVec.ofNat 32 d = BitVec.ofNat 32 (0xEF400 + d) := by
    have huvpt : pgNum uvpt = BitVec.ofNat 32 0xEF400 := by decide
    rw [huvpt, BitVec.ofNat_add]
  have hnat : (BitVec.ofNat 32 d).toNat = d := by
    rw [BitVec.toNat_ofNat]
    omega
  obtain ⟨hdir, htab, hoff⟩ := uvpt_parts (d := 0xEF400 + d) (by omega)
  rw [← hnum] at hdir htab hoff
  have hsame : (uvpt + 4 * (pgNum uvpt + BitVec.ofNat 32 d)).extractLsb' 12 10 =
      uvpt.extractLsb' 22 10 := by
    apply BitVec.eq_of_toNat_eq
    rw [htab, toNat_extract, toNat_uvpt]
    omega
  have hentry : mem.entry D ((uvpt + 4 * (pgNum uvpt + BitVec.ofNat 32 d)).extractLsb' 12 10) =
      selfEntry D := by
    rw [hsame, entry_pdx h]
    exact hself
  rw [walk_uvpt h hself hdir (by rwa [hentry]), hentry,
    append_eq_add (selfEntry D) _ (i := BitVec.ofNat 32 d) ?_, pteAddr_eq, hframe]
  rw [hoff, hnat]
  omega

/-- With its own address in the entry for `UVPT`, a directory shows all page tables, and itself,
as one array of entries. -/
theorem self_mapped (mem : Memory) (D : BitVec 32) (halign : pgOff D = 0)
    (hself : tableAt mem D (pdx uvpt) = selfEntry D) :
    (∀ va, Present (tableAt mem D (pdx va)) → ¬ Large (tableAt mem D (pdx va)) →
      walk mem D (uvpt + 4 * pgNum va) = some (pteAddr (tableAt mem D (pdx va)) + 4 * ptx va)) ∧
    ∀ d < 1024, walk mem D (uvpt + 4 * (pgNum uvpt + BitVec.ofNat 32 d)) =
      some (D + 4 * BitVec.ofNat 32 d) :=
  ⟨fun va hpresent _ => walk_uvpt_page halign hself va hpresent,
    fun _ hd => walk_uvpt_dir halign hself hd⟩

/-- A directory at the physical address 0x1000 that maps itself, with a page table at 0x2000 for the
third 4 MB. -/
def selfMemory : Memory :=
  ((⟨fun _ => 0, []⟩ : Memory).storeBytes 0x1EF4 [0x05, 0x10]).storeBytes 0x1008 [0x07, 0x20]

/-- The fourth entry of the page table, and the directory's entry for itself. -/
theorem self_mapped_table : walk selfMemory 0x1000 0xEF40200C = some 0x200C ∧
    walk selfMemory 0x1000 0xEF7BDEF4 = some 0x1EF4 := by
  have hself : tableAt selfMemory 0x1000 (pdx uvpt) = selfEntry 0x1000 := by decide
  have hentry : tableAt selfMemory 0x1000 (pdx 0x803000) = 0x2007 := by decide
  obtain ⟨htables, hdir⟩ := self_mapped selfMemory 0x1000 (by decide) hself
  refine ⟨?_, hdir 957 (by decide)⟩
  have hfourth := htables 0x803000 (by rw [hentry]; decide) (by rw [hentry]; decide)
  rwa [hentry] at hfourth

end Jos
