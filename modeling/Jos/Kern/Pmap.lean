import Jos.Kern.Printf

/-! `kern/kclock.c`, `kern/pmap.h`, and the detection of memory in `kern/pmap.c`. -/
namespace Jos

open Prog

abbrev kernBase : Addr := 0xF0000000
abbrev pgSize : BitVec 32 := 4096
abbrev pgShift : ℕ := 12

/-- `PGNUM(la)`. -/
def pgNum (la : Addr) : BitVec 32 := la >>> pgShift

/-! ### Memory detection -/

/-- What the registers of the real-time clock hold. -/
abbrev Cmos := Byte → Byte

def mc146818Read (cmos : Cmos) (reg : BitVec 32) : BitVec 32 := (cmos (reg.setWidth 8)).setWidth 32

abbrev nvramBaseLo : BitVec 32 := 0xe + 7
abbrev nvramExtLo : BitVec 32 := 0xe + 9
abbrev nvramExt16Lo : BitVec 32 := 0xe + 38

def nvramRead (cmos : Cmos) (r : BitVec 32) : BitVec 32 :=
  mc146818Read cmos r ||| mc146818Read cmos (r + 1) <<< 8

/-- The globals of `kern/pmap.c`. -/
structure Pmap where
  npages : BitVec 32
  npagesBasemem : BitVec 32
  /-- The address of the array of `struct PageInfo`. -/
  pages : Addr

/-- The first of the three counts that is not 0 decides, all of them in kilobytes. -/
def totalMemory (basemem extmem ext16mem : BitVec 32) : BitVec 32 :=
  if ext16mem ≠ 0 then 16 * 1024 + ext16mem
  else if extmem ≠ 0 then 1 * 1024 + extmem
  else basemem

def i386DetectMemory (fuel : ℕ) (cmos : Cmos) (m : Pmap) (console : Console) :
    Res (Pmap × Console) := do
  let basemem := nvramRead cmos nvramBaseLo
  let extmem := nvramRead cmos nvramExtLo
  let ext16mem := nvramRead cmos nvramExt16Lo * 64
  let totalmem := totalMemory basemem extmem ext16mem
  let m := { m with npages := totalmem / (pgSize / 1024),
                    npagesBasemem := basemem / (pgSize / 1024) }
  let (_, console) ← cprintf fuel
    (cstr (lit "Physical memory: %uK available, base = %uK, extended = %uK\n"))
    [.int totalmem, .int basemem, .int (totalmem - basemem)] console
  pure (m, console)

/-! ### Conversions -/

/-- `PADDR(kva)`. -/
def paddr (kva : Addr) : Res (BitVec 32) :=
  if kva < kernBase then .error (.panic "PADDR called with invalid kva %08lx")
  else .ok (kva - kernBase)

namespace Pmap

/-- `KADDR(pa)`. -/
def kaddr (m : Pmap) (pa : BitVec 32) : Res Addr :=
  if m.npages ≤ pgNum pa then .error (.panic "KADDR called with invalid pa %08lx")
  else .ok (pa + kernBase)

/-- `sizeof(struct PageInfo)`. -/
abbrev pageInfoSize : BitVec 32 := 8

/-- `&pages[i]`. -/
def page (m : Pmap) (i : BitVec 32) : Addr := m.pages + pageInfoSize * i

def page2pa (m : Pmap) (pp : Addr) : BitVec 32 := (pp - m.pages).sdiv pageInfoSize <<< pgShift

def pa2page (m : Pmap) (pa : BitVec 32) : Res Addr :=
  if m.npages ≤ pgNum pa then .error (.panic "pa2page called with invalid pa")
  else .ok (m.page (pgNum pa))

def page2kva (m : Pmap) (pp : Addr) : Res Addr := m.kaddr (m.page2pa pp)

end Pmap

variable {cmos : Cmos} {m : Pmap} {i j : BitVec 32} {console : Console}

/-! ### The size of the memory -/

/-- The 16-bit count in two neighbouring registers. -/
def count16 (cmos : Cmos) (r : Byte) : ℕ := (cmos r).toNat + 256 * (cmos (r + 1)).toNat

theorem toNat_join (lo hi : Byte) :
    ((lo.setWidth 32 : BitVec 32) ||| (hi.setWidth 32 : BitVec 32) <<< 8).toNat =
      lo.toNat + 256 * hi.toNat := by
  have hlo := lo.isLt
  have hhi := hi.isLt
  have hshift : ((hi.setWidth 32 : BitVec 32) <<< 8).toNat = hi.toNat <<< 8 := by
    rw [BitVec.toNat_shiftLeft, BitVec.toNat_setWidth, Nat.shiftLeft_eq, Nat.shiftLeft_eq]
    omega
  have hword : (lo.setWidth 32 : BitVec 32).toNat = lo.toNat := by
    rw [BitVec.toNat_setWidth]
    omega
  rw [BitVec.toNat_or, hshift, hword, Nat.or_comm, ← Nat.shiftLeft_add_eq_or_of_lt hlo,
    Nat.shiftLeft_eq]
  omega

theorem toNat_nvramRead (r : Byte) :
    (nvramRead cmos (r.setWidth 32)).toNat = count16 cmos r := by
  have hlow : ∀ r : Byte, (r.setWidth 32 : BitVec 32).setWidth 8 = r := by decide
  have hhigh : ∀ r : Byte, ((r.setWidth 32 : BitVec 32) + 1).setWidth 8 = r + 1 := by decide
  rw [nvramRead, mc146818Read, mc146818Read, hlow, hhigh, toNat_join, count16]

theorem count16_lt (r : Byte) : count16 cmos r < 2 ^ 16 := by
  have hlo := (cmos r).isLt
  have hhi := (cmos (r + 1)).isLt
  unfold count16
  omega

/-- There is more than 256 MB exactly when the third count says so. -/
theorem totalMemory_pages {basemem extmem ext16 : BitVec 32} (hbase : basemem.toNat < 2 ^ 16)
    (hext : extmem.toNat < 2 ^ 16) (hext16 : ext16.toNat < 2 ^ 16) :
    (totalMemory basemem extmem (ext16 * 64) / (pgSize / 1024)).toNat ≤ 2 ^ 16 ↔
      ext16.toNat ≤ 3840 := by
  have hdiv : (totalMemory basemem extmem (ext16 * 64) / (pgSize / 1024)).toNat =
      (totalMemory basemem extmem (ext16 * 64)).toNat / 4 := BitVec.toNat_udiv
  rw [hdiv, totalMemory]
  by_cases h0 : ext16 * 64 = 0
  · have hsmall : ext16.toNat = 0 := by bv_omega
    rw [if_neg (not_not_intro h0)]
    split
    · bv_omega
    · omega
  · rw [if_pos h0]
    bv_omega

theorem i386DetectMemory_settles (cmos : Cmos) (m : Pmap) (console : Console) :
    ∃ m' c, Settles (fun n => i386DetectMemory n cmos m console) (.ok (m', c)) ∧
      (m'.npages.toNat ≤ 2 ^ 16 ↔ count16 cmos 0x34 ≤ 3840) := by
  have hext16 : (nvramRead cmos nvramExt16Lo).toNat = count16 cmos 0x34 := toNat_nvramRead 0x34
  have hext : (nvramRead cmos nvramExtLo).toNat = count16 cmos 0x17 := toNat_nvramRead 0x17
  have hbase : (nvramRead cmos nvramBaseLo).toNat = count16 cmos 0x15 := toNat_nvramRead 0x15
  have hfit : Fits
      (formatArgs (lit "Physical memory: %uK available, base = %uK, extended = %uK\n"))
      [.int (totalMemory (nvramRead cmos nvramBaseLo) (nvramRead cmos nvramExtLo)
          (nvramRead cmos nvramExt16Lo * 64)),
        .int (nvramRead cmos nvramBaseLo),
        .int (totalMemory (nvramRead cmos nvramBaseLo) (nvramRead cmos nvramExtLo)
          (nvramRead cmos nvramExt16Lo * 64) - nvramRead cmos nvramBaseLo)] :=
    ⟨trivial, trivial, trivial, trivial⟩
  obtain ⟨o, -, ho⟩ := vprintfmt_collects (by decide) hfit fun h => absurd h (by decide)
  refine ⟨_, _, (vcprintf_settles ho console).bind (Settles.const _), ?_⟩
  rw [← hext16]
  exact totalMemory_pages (hbase ▸ count16_lt _) (hext ▸ count16_lt _) (hext16 ▸ count16_lt _)

/-! ### Pages and addresses -/

/-- Every page is found again from its physical address, and from the address that the kernel
sees it at, which no other page shares. -/
def Pmap.Converts (m : Pmap) : Prop :=
  ∀ i < m.npages, m.pa2page (m.page2pa (m.page i)) = .ok (m.page i) ∧
    ∃ kva, m.page2kva (m.page i) = .ok kva ∧ kernBase ≤ kva ∧
      paddr kva = .ok (m.page2pa (m.page i)) ∧
      ∀ j < m.npages, m.page2kva (m.page j) = .ok kva → j = i

namespace Pmap

theorem page2pa_page (hi : i.toNat < 2 ^ 20) : m.page2pa (m.page i) = i <<< pgShift := by
  have hsub : m.page i - m.pages = pageInfoSize * i := by
    rw [page]
    bv_omega
  have hmul : (pageInfoSize * i).toNat = 8 * i.toNat := by
    simp only [pageInfoSize]
    bv_omega
  have hpos : (pageInfoSize * i).msb = false := by
    rw [BitVec.msb_eq_false_iff_two_mul_lt, hmul]
    omega
  have hdiv : (pageInfoSize * i).sdiv pageInfoSize = i := by
    apply BitVec.eq_of_toNat_eq
    rw [BitVec.sdiv_eq, hpos]
    change (pageInfoSize * i / pageInfoSize).toNat = i.toNat
    rw [BitVec.toNat_udiv, hmul]
    exact Nat.mul_div_cancel_left _ (by decide)
  rw [page2pa, hsub, hdiv]

theorem toNat_shiftLeft_pgShift (hi : i.toNat < 2 ^ 20) :
    (i <<< pgShift).toNat = 4096 * i.toNat := by
  rw [BitVec.toNat_shiftLeft, Nat.shiftLeft_eq]
  change i.toNat * 4096 % 2 ^ 32 = _
  omega

theorem pgNum_shiftLeft (hi : i.toNat < 2 ^ 20) : pgNum (i <<< pgShift) = i := by
  apply BitVec.eq_of_toNat_eq
  rw [pgNum, BitVec.toNat_ushiftRight, toNat_shiftLeft_pgShift hi, Nat.shiftRight_eq_div_pow]
  exact Nat.mul_div_cancel_left _ (by decide)

/-- The address that the kernel sees a page at, which may wrap around. -/
theorem page2kva_page (hi : i < m.npages) (hlt : i.toNat < 2 ^ 20) :
    m.page2kva (m.page i) = .ok (i <<< pgShift + kernBase) := by
  rw [page2kva, page2pa_page hlt, kaddr, pgNum_shiftLeft hlt, if_neg (BitVec.not_le.mpr hi)]

theorem toNat_kva (hi : i.toNat < 2 ^ 16) :
    (i <<< pgShift + kernBase).toNat = 4096 * i.toNat + 0xF0000000 := by
  have hk : kernBase.toNat = 0xF0000000 := rfl
  rw [BitVec.toNat_add, toNat_shiftLeft_pgShift (by omega), hk]
  omega

theorem converts_of_le (hm : m.npages.toNat ≤ 2 ^ 16) : m.Converts := by
  intro i hi
  have hlt : i.toNat < 2 ^ 16 := by bv_omega
  have hpa := page2pa_page (m := m) (i := i) (by omega)
  have habove : kernBase ≤ i <<< pgShift + kernBase := by
    rw [BitVec.le_def, toNat_kva hlt]
    exact Nat.le_add_left _ _
  refine ⟨?_, _, page2kva_page hi (by omega), habove, ?_, ?_⟩
  · rw [hpa, pa2page, pgNum_shiftLeft (by omega), if_neg (BitVec.not_le.mpr hi)]
  · rw [paddr, if_neg (BitVec.not_lt.mpr habove), hpa, BitVec.add_sub_cancel]
  · intro j hj hkva
    have hjlt : j.toNat < 2 ^ 16 := by bv_omega
    rw [page2kva_page hj (by omega)] at hkva
    have hnat := congrArg BitVec.toNat (Except.ok.inj hkva)
    rw [toNat_kva hjlt, toNat_kva hlt] at hnat
    apply BitVec.eq_of_toNat_eq
    omega

/-- The page at 256 MB is seen at address 0. -/
theorem not_converts_of_lt (hm : 2 ^ 16 < m.npages.toNat) : ¬ m.Converts := by
  intro h
  have hi : 0x10000 < m.npages := by bv_omega
  obtain ⟨-, kva, hkva, habove, -⟩ := h 0x10000 hi
  rw [page2kva_page hi (by decide)] at hkva
  rw [← Except.ok.inj hkva] at habove
  exact absurd habove (by decide)

theorem converts_iff : m.Converts ↔ m.npages.toNat ≤ 2 ^ 16 := by
  constructor
  · intro h
    by_contra hlt
    exact not_converts_of_lt (by omega) h
  · exact converts_of_le

end Pmap

/-- The conversions work for every page that is detected exactly when the machine has no more than
256 MB, that is 3840 units of 64 KB above 16 MB. -/
theorem pages_convert_iff (cmos : Cmos) (m : Pmap) (console : Console) :
    ∃ m' c, Settles (fun n => i386DetectMemory n cmos m console) (.ok (m', c)) ∧
      (m'.Converts ↔ count16 cmos 0x34 ≤ 3840) := by
  obtain ⟨m', c, hrun, hpages⟩ := i386DetectMemory_settles cmos m console
  exact ⟨m', c, hrun, Pmap.converts_iff.trans hpages⟩

/-- With 256 MB and 64 KB the conversions fail. -/
theorem pages_lost_above : ¬ ∀ (cmos : Cmos) (m : Pmap) (console : Console),
    ∃ m' c, Settles (fun n => i386DetectMemory n cmos m console) (.ok (m', c)) ∧ m'.Converts := by
  intro h
  let cmos : Cmos := fun r => if r = 0x34 then 0x01 else if r = 0x35 then 0x0F else 0
  obtain ⟨m', c, hrun, hconv⟩ := h cmos ⟨0, 0, 0⟩ (.zeroed 0)
  obtain ⟨m'', c', hrun', hpages⟩ := i386DetectMemory_settles cmos ⟨0, 0, 0⟩ (.zeroed 0)
  obtain ⟨rfl, -⟩ := Prod.mk.inj (Except.ok.inj (hrun.unique hrun'))
  exact absurd (hpages.mp (Pmap.converts_iff.mp hconv)) (by decide)

end Jos
