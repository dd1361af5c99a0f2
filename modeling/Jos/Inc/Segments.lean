import Jos.Inc.Types
import Jos.Prog.BitFields
import Jos.Prog.Paging
import Mathlib.Tactic.Ring

/-! `inc/mmu.h`: segment and gate descriptors, and what the processor finds in them. -/
namespace Jos

open Prog

/-- `.word x`. -/
def asmWord (x : BitVec 32) : List Byte := [x.setWidth 8, (x >>> 8).setWidth 8]

/-- The bit-fields of a descriptor, the lowest one first. -/
structure Segdesc where
  sdLim15_0 : BitVec 16
  sdBase15_0 : BitVec 16
  sdBase23_16 : BitVec 8
  sdType : BitVec 4
  sdS : BitVec 1
  sdDpl : BitVec 2
  sdP : BitVec 1
  sdLim19_16 : BitVec 4
  sdAvl : BitVec 1
  sdRsv1 : BitVec 1
  sdDb : BitVec 1
  sdG : BitVec 1
  sdBase31_24 : BitVec 8

def Segdesc.fields (d : Segdesc) : List BitField :=
  [⟨16, d.sdLim15_0⟩, ⟨16, d.sdBase15_0⟩, ⟨8, d.sdBase23_16⟩, ⟨4, d.sdType⟩, ⟨1, d.sdS⟩,
    ⟨2, d.sdDpl⟩, ⟨1, d.sdP⟩, ⟨4, d.sdLim19_16⟩, ⟨1, d.sdAvl⟩, ⟨1, d.sdRsv1⟩, ⟨1, d.sdDb⟩,
    ⟨1, d.sdG⟩, ⟨8, d.sdBase31_24⟩]

def Segdesc.word (d : Segdesc) : BitVec 64 := packWord 64 d.fields

/-- `SEG(type, base, lim, dpl)`. -/
def seg (type base lim dpl : BitVec 32) : Segdesc where
  sdLim15_0 := (lim >>> 12 &&& 0xffff).setWidth 16
  sdBase15_0 := (base &&& 0xffff).setWidth 16
  sdBase23_16 := (base >>> 16 &&& 0xff).setWidth 8
  sdType := type.setWidth 4
  sdS := 1
  sdDpl := dpl.setWidth 2
  sdP := 1
  sdLim19_16 := (lim >>> 28).setWidth 4
  sdAvl := 0
  sdRsv1 := 0
  sdDb := 1
  sdG := 1
  sdBase31_24 := (base >>> 24).setWidth 8

/-- `SEG16(type, base, lim, dpl)`. -/
def seg16 (type base lim dpl : BitVec 32) : Segdesc where
  sdLim15_0 := (lim &&& 0xffff).setWidth 16
  sdBase15_0 := (base &&& 0xffff).setWidth 16
  sdBase23_16 := (base >>> 16 &&& 0xff).setWidth 8
  sdType := type.setWidth 4
  sdS := 1
  sdDpl := dpl.setWidth 2
  sdP := 1
  sdLim19_16 := (lim >>> 16).setWidth 4
  sdAvl := 0
  sdRsv1 := 0
  sdDb := 1
  sdG := 0
  sdBase31_24 := (base >>> 24).setWidth 8

/-- `SEG(type,base,lim)` for the assembler. -/
def segAsm (type base lim : BitVec 32) : List Byte :=
  asmWord (lim >>> 12 &&& 0xffff) ++ asmWord (base &&& 0xffff) ++
    [(base >>> 16 &&& 0xff).setWidth 8, (0x90 ||| type).setWidth 8,
      ((0xC0 : BitVec 32) ||| (lim >>> 28 &&& 0xf)).setWidth 8, (base >>> 24 &&& 0xff).setWidth 8]

/-- The bit-fields of a gate, the lowest one first. -/
structure Gatedesc where
  gdOff15_0 : BitVec 16
  gdSel : BitVec 16
  gdArgs : BitVec 5
  gdRsv1 : BitVec 3
  gdType : BitVec 4
  gdS : BitVec 1
  gdDpl : BitVec 2
  gdP : BitVec 1
  gdOff31_16 : BitVec 16

def Gatedesc.fields (g : Gatedesc) : List BitField :=
  [⟨16, g.gdOff15_0⟩, ⟨16, g.gdSel⟩, ⟨5, g.gdArgs⟩, ⟨3, g.gdRsv1⟩, ⟨4, g.gdType⟩, ⟨1, g.gdS⟩,
    ⟨2, g.gdDpl⟩, ⟨1, g.gdP⟩, ⟨16, g.gdOff31_16⟩]

def Gatedesc.word (g : Gatedesc) : BitVec 64 := packWord 64 g.fields

abbrev STS_CG32 : BitVec 4 := 0xC
abbrev STS_IG32 : BitVec 4 := 0xE
abbrev STS_TG32 : BitVec 4 := 0xF

/-- What both macros for gates store, whatever was in the gate. -/
def gatedesc (type : BitVec 4) (sel off dpl : BitVec 32) : Gatedesc where
  gdOff15_0 := (off &&& 0xffff).setWidth 16
  gdSel := sel.setWidth 16
  gdArgs := 0
  gdRsv1 := 0
  gdType := type
  gdS := 0
  gdDpl := dpl.setWidth 2
  gdP := 1
  gdOff31_16 := (off >>> 16).setWidth 16

/-- `SETGATE(gate, istrap, sel, off, dpl)`. -/
def setGate (istrap sel off dpl : BitVec 32) : Gatedesc :=
  gatedesc (if istrap ≠ 0 then STS_TG32 else STS_IG32) sel off dpl

/-- `SETCALLGATE(gate, sel, off, dpl)`. -/
def setCallGate (sel off dpl : BitVec 32) : Gatedesc := gatedesc STS_CG32 sel off dpl

/-! ### What the processor finds -/

/-- What the processor makes of a segment descriptor. -/
structure LoadedSegment where
  base : BitVec 32
  /-- The last offset inside. -/
  limit : BitVec 32
  type : BitVec 4
  application : Bool
  dpl : BitVec 2
  present : Bool
  big : Bool
deriving DecidableEq

/-- With the granularity bit, the limit counts pages. -/
def segmentLimit (lim : BitVec 20) (g : Bool) : BitVec 32 :=
  if g then lim ++ 0xFFF#12 else lim.setWidth 32

def LoadedSegment.ofWord (x : BitVec 64) : LoadedSegment where
  base := x.extractLsb' 56 8 ++ x.extractLsb' 32 8 ++ x.extractLsb' 16 16
  limit := segmentLimit (x.extractLsb' 48 4 ++ x.extractLsb' 0 16) (x.extractLsb' 55 1 = 1)
  type := x.extractLsb' 40 4
  application := x.extractLsb' 44 1 = 1
  dpl := x.extractLsb' 45 2
  present := x.extractLsb' 47 1 = 1
  big := x.extractLsb' 54 1 = 1

/-- What the processor makes of a gate. -/
structure Gate where
  offset : BitVec 32
  selector : BitVec 16
  args : BitVec 5
  type : BitVec 4
  system : Bool
  dpl : BitVec 2
  present : Bool
deriving DecidableEq

def Gate.ofWord (x : BitVec 64) : Gate where
  offset := x.extractLsb' 48 16 ++ x.extractLsb' 0 16
  selector := x.extractLsb' 16 16
  args := x.extractLsb' 32 5
  type := x.extractLsb' 40 4
  system := x.extractLsb' 44 1 = 0
  dpl := x.extractLsb' 45 2
  present := x.extractLsb' 47 1 = 1

/-- The bytes of a descriptor in memory. -/
def descBytes (x : BitVec 64) : List Byte := wordBytes 64 x 8

variable {type base lim dpl sel off : BitVec 32}

/-! ### Segments -/

theorem Segdesc.field (d : Segdesc) (i : ℕ) (hi : i < d.fields.length) :
    d.word.extractLsb' (widths (d.fields.take i)) d.fields[i].1 = d.fields[i].2 :=
  extract_packWord (Nat.le_refl 64) i hi

/-- The processor finds the bit-fields. -/
theorem Segdesc.ofWord_word (d : Segdesc) : LoadedSegment.ofWord d.word =
    { base := d.sdBase31_24 ++ d.sdBase23_16 ++ d.sdBase15_0
      limit := segmentLimit (d.sdLim19_16 ++ d.sdLim15_0) (d.sdG = 1)
      type := d.sdType
      application := d.sdS = 1
      dpl := d.sdDpl
      present := d.sdP = 1
      big := d.sdDb = 1 } := by
  have hlow : d.word.extractLsb' 0 16 = d.sdLim15_0 := d.field 0 (by simp [fields])
  have hbase : d.word.extractLsb' 16 16 = d.sdBase15_0 := d.field 1 (by simp [fields])
  have hmid : d.word.extractLsb' 32 8 = d.sdBase23_16 := d.field 2 (by simp [fields])
  have htype : d.word.extractLsb' 40 4 = d.sdType := d.field 3 (by simp [fields])
  have hs : d.word.extractLsb' 44 1 = d.sdS := d.field 4 (by simp [fields])
  have hdpl : d.word.extractLsb' 45 2 = d.sdDpl := d.field 5 (by simp [fields])
  have hp : d.word.extractLsb' 47 1 = d.sdP := d.field 6 (by simp [fields])
  have hlim : d.word.extractLsb' 48 4 = d.sdLim19_16 := d.field 7 (by simp [fields])
  have hdb : d.word.extractLsb' 54 1 = d.sdDb := d.field 10 (by simp [fields])
  have hg : d.word.extractLsb' 55 1 = d.sdG := d.field 11 (by simp [fields])
  have htop : d.word.extractLsb' 56 8 = d.sdBase31_24 := d.field 12 (by simp [fields])
  rw [LoadedSegment.ofWord, hlow, hbase, hmid, htype, hs, hdpl, hp, hlim, hdb, hg, htop]

theorem toNat_and_mask {w : ℕ} (hw : w ≤ 32) (x : BitVec 32) :
    (x &&& BitVec.ofNat 32 (2 ^ w - 1)).toNat = x.toNat % 2 ^ w := by
  have hpow : 2 ^ w ≤ 2 ^ 32 := Nat.pow_le_pow_right (by decide) hw
  have hpos := Nat.two_pow_pos w
  have hmask : (2 ^ w - 1) % 2 ^ 32 = 2 ^ w - 1 := Nat.mod_eq_of_lt (by omega)
  rw [BitVec.toNat_and, BitVec.toNat_ofNat, hmask, Nat.and_two_pow_sub_one_eq_mod]

theorem toNat_and8 (x : BitVec 32) : (x &&& 0xff).toNat = x.toNat % 2 ^ 8 :=
  toNat_and_mask (w := 8) (by decide) x

theorem toNat_and16 (x : BitVec 32) : (x &&& 0xffff).toNat = x.toNat % 2 ^ 16 :=
  toNat_and_mask (w := 16) (by decide) x

theorem base_parts (base : BitVec 32) : (base >>> 24).setWidth 8 ++
    (base >>> 16 &&& 0xff).setWidth 8 ++ (base &&& 0xffff).setWidth 16 = base := by
  apply BitVec.eq_of_toNat_eq
  have hbase := base.isLt
  simp only [toNat_append_eq, BitVec.toNat_setWidth, toNat_and8, toNat_and16,
    BitVec.toNat_ushiftRight, Nat.shiftRight_eq_div_pow]
  omega

theorem lim_parts (lim : BitVec 32) :
    (lim >>> 28).setWidth 4 ++ (lim >>> 12 &&& 0xffff).setWidth 16 = lim.extractLsb' 12 20 := by
  apply BitVec.eq_of_toNat_eq
  have hlim := lim.isLt
  simp only [toNat_append_eq, BitVec.toNat_setWidth, toNat_and16, BitVec.toNat_ushiftRight,
    toNat_extract, Nat.shiftRight_eq_div_pow]
  omega

theorem lim16_parts (lim : BitVec 32) :
    (lim >>> 16).setWidth 4 ++ (lim &&& 0xffff).setWidth 16 = lim.setWidth 20 := by
  apply BitVec.eq_of_toNat_eq
  have hlim := lim.isLt
  simp only [toNat_append_eq, BitVec.toNat_setWidth, toNat_and16, BitVec.toNat_ushiftRight,
    Nat.shiftRight_eq_div_pow]
  omega

theorem ofWord_seg (type base lim dpl : BitVec 32) :
    LoadedSegment.ofWord (seg type base lim dpl).word =
      ⟨base, lim.extractLsb' 12 20 ++ 0xFFF#12, type.setWidth 4, true, dpl.setWidth 2, true,
        true⟩ := by
  rw [Segdesc.ofWord_word]
  simp only [seg, base_parts, lim_parts]
  rfl

theorem ofWord_seg16 (type base lim dpl : BitVec 32) :
    LoadedSegment.ofWord (seg16 type base lim dpl).word =
      ⟨base, (lim.setWidth 20).setWidth 32, type.setWidth 4, true, dpl.setWidth 2, true, true⟩ := by
  rw [Segdesc.ofWord_word]
  simp only [seg16, base_parts, lim16_parts]
  rfl

/-! ### The bytes that the assembler gives -/

theorem Segdesc.toNat_word (d : Segdesc) : d.word.toNat =
    d.sdLim15_0.toNat + 2 ^ 16 * d.sdBase15_0.toNat + 2 ^ 32 * d.sdBase23_16.toNat +
      2 ^ 40 * d.sdType.toNat + 2 ^ 44 * d.sdS.toNat + 2 ^ 45 * d.sdDpl.toNat +
      2 ^ 47 * d.sdP.toNat + 2 ^ 48 * d.sdLim19_16.toNat + 2 ^ 52 * d.sdAvl.toNat +
      2 ^ 53 * d.sdRsv1.toNat + 2 ^ 54 * d.sdDb.toNat + 2 ^ 55 * d.sdG.toNat +
      2 ^ 56 * d.sdBase31_24.toNat := by
  have hword : d.word.toNat = packed d.fields := Nat.mod_eq_of_lt (packed_lt _)
  rw [hword]
  simp only [fields, packed]
  ring

theorem toNat_seg_word (type base lim dpl : BitVec 32) : (seg type base lim dpl).word.toNat =
    lim.toNat / 2 ^ 12 % 2 ^ 16 + 2 ^ 16 * (base.toNat % 2 ^ 16) +
      2 ^ 32 * (base.toNat / 2 ^ 16 % 2 ^ 8) + 2 ^ 40 * (type.toNat % 2 ^ 4) + 2 ^ 44 +
      2 ^ 45 * (dpl.toNat % 2 ^ 2) + 2 ^ 47 + 2 ^ 48 * (lim.toNat / 2 ^ 28) + 2 ^ 54 + 2 ^ 55 +
      2 ^ 56 * (base.toNat / 2 ^ 24) := by
  have hbase := base.isLt
  have hlim := lim.isLt
  have hone : (1 : BitVec 1).toNat = 1 := rfl
  have hzero : (0 : BitVec 1).toNat = 0 := rfl
  rw [Segdesc.toNat_word]
  simp only [seg, BitVec.toNat_setWidth, toNat_and8, toNat_and16, BitVec.toNat_ushiftRight,
    Nat.shiftRight_eq_div_pow, hone, hzero]
  omega

theorem toNat_flags (k : ℕ) (hk : k < 16) :
    (0x90 ||| BitVec.ofNat 32 k).toNat = 0x90 + k ∧
      (0xC0 ||| (BitVec.ofNat 32 k &&& 0xf)).toNat = 0xC0 + k := by
  revert k
  decide

/-- The two bytes of a `.word`. -/
theorem packed_asmWord {x : BitVec 32} (hx : x.toNat < 2 ^ 16) (fs : List BitField) :
    packed ((asmWord x).map (fun b => ⟨8, b⟩) ++ fs) = x.toNat + 2 ^ 16 * packed fs := by
  have hsplit : x.toNat % 2 ^ 8 + 2 ^ 8 * (x.toNat / 2 ^ 8 % 2 ^ 8) = x.toNat := by omega
  simp only [asmWord, List.map_cons, List.map_nil, List.cons_append, List.nil_append, packed,
    BitVec.toNat_setWidth, BitVec.toNat_ushiftRight, Nat.shiftRight_eq_div_pow]
  rw [Nat.mul_add, ← Nat.add_assoc, hsplit, ← Nat.mul_assoc, ← Nat.pow_add]

/-- The macro for the assembler gives the bytes of the structure, for the highest privilege. -/
theorem segAsm_eq (htype : type.toNat < 16) :
    segAsm type base lim = descBytes (seg type base lim 0).word := by
  have hbase := base.isLt
  have hlim := lim.isLt
  have hword := toNat_seg_word type base lim 0
  have hdpl : (0 : BitVec 32).toNat = 0 := rfl
  obtain ⟨htypes, -⟩ := toNat_flags type.toNat htype
  obtain ⟨-, hhigh⟩ := toNat_flags (lim.toNat / 2 ^ 28) (by omega)
  have hshift : BitVec.ofNat 32 (lim.toNat / 2 ^ 28) = lim >>> 28 := by
    apply BitVec.eq_of_toNat_eq
    rw [BitVec.toNat_ofNat, BitVec.toNat_ushiftRight, Nat.shiftRight_eq_div_pow]
    omega
  rw [BitVec.ofNat_toNat, BitVec.setWidth_eq] at htypes
  rw [hshift] at hhigh
  have hsame : (seg type base lim 0).word =
      packWord 64 ((segAsm type base lim).map fun b => ⟨8, b⟩) := by
    apply BitVec.eq_of_toNat_eq
    have hpacked : (packWord 64 ((segAsm type base lim).map fun b => ⟨8, b⟩)).toNat =
        packed ((segAsm type base lim).map fun b => ⟨8, b⟩) := Nat.mod_eq_of_lt (packed_lt _)
    rw [hword, hpacked, hdpl, segAsm, List.append_assoc, List.map_append, List.map_append,
      packed_asmWord (by rw [toNat_and16]; omega), packed_asmWord (by rw [toNat_and16]; omega)]
    have htype4 : type.toNat % 2 ^ 4 = type.toNat := Nat.mod_eq_of_lt htype
    have hbyte5 : (0x90 + type.toNat) % 2 ^ 8 = 0x90 + type.toNat := Nat.mod_eq_of_lt (by omega)
    have hbyte6 : (0xC0 + lim.toNat / 2 ^ 28) % 2 ^ 8 = 0xC0 + lim.toNat / 2 ^ 28 :=
      Nat.mod_eq_of_lt (by omega)
    have hbyte7 : base.toNat / 2 ^ 24 % 2 ^ 8 = base.toNat / 2 ^ 24 := Nat.mod_eq_of_lt (by omega)
    simp only [List.map_cons, List.map_nil, packed, htypes, hhigh, BitVec.toNat_setWidth,
      toNat_and8, toNat_and16, BitVec.toNat_ushiftRight, Nat.shiftRight_eq_div_pow, Nat.mod_mod,
      htype4, hbyte5, hbyte6, hbyte7]
    ring
  rw [hsame]
  exact (wordBytes_packWord (segAsm type base lim) (Nat.le_refl 64)).symm

/-! ### Gates -/

theorem Gatedesc.field (g : Gatedesc) (i : ℕ) (hi : i < g.fields.length) :
    g.word.extractLsb' (widths (g.fields.take i)) g.fields[i].1 = g.fields[i].2 :=
  extract_packWord (Nat.le_refl 64) i hi

theorem Gatedesc.ofWord_word (g : Gatedesc) : Gate.ofWord g.word =
    { offset := g.gdOff31_16 ++ g.gdOff15_0
      selector := g.gdSel
      args := g.gdArgs
      type := g.gdType
      system := g.gdS = 0
      dpl := g.gdDpl
      present := g.gdP = 1 } := by
  have hlow : g.word.extractLsb' 0 16 = g.gdOff15_0 := g.field 0 (by simp [fields])
  have hsel : g.word.extractLsb' 16 16 = g.gdSel := g.field 1 (by simp [fields])
  have hargs : g.word.extractLsb' 32 5 = g.gdArgs := g.field 2 (by simp [fields])
  have htype : g.word.extractLsb' 40 4 = g.gdType := g.field 4 (by simp [fields])
  have hs : g.word.extractLsb' 44 1 = g.gdS := g.field 5 (by simp [fields])
  have hdpl : g.word.extractLsb' 45 2 = g.gdDpl := g.field 6 (by simp [fields])
  have hp : g.word.extractLsb' 47 1 = g.gdP := g.field 7 (by simp [fields])
  have hhigh : g.word.extractLsb' 48 16 = g.gdOff31_16 := g.field 8 (by simp [fields])
  rw [Gate.ofWord, hlow, hsel, hargs, htype, hs, hdpl, hp, hhigh]

theorem off_parts (off : BitVec 32) :
    (off >>> 16).setWidth 16 ++ (off &&& 0xffff).setWidth 16 = off := by
  apply BitVec.eq_of_toNat_eq
  have hoff := off.isLt
  simp only [toNat_append_eq, BitVec.toNat_setWidth, toNat_and16, BitVec.toNat_ushiftRight,
    Nat.shiftRight_eq_div_pow]
  omega

theorem ofWord_gatedesc (type : BitVec 4) (sel off dpl : BitVec 32) :
    Gate.ofWord (gatedesc type sel off dpl).word =
      ⟨off, sel.setWidth 16, 0, type, true, dpl.setWidth 2, true⟩ := by
  rw [Gatedesc.ofWord_word]
  simp only [gatedesc, off_parts]
  rfl

/-- The processor finds what the macros were given: a segment has the base, and the limit rounded
up to the end of a page, or the lowest 20 bits of it; a gate has the offset and the selector. The
macro for the assembler gives the same bytes as the one for C. -/
theorem descriptors_decode (type base lim dpl istrap sel off : BitVec 32) :
    LoadedSegment.ofWord (seg type base lim dpl).word = ⟨base, lim.extractLsb' 12 20 ++ 0xFFF#12,
      type.setWidth 4, true, dpl.setWidth 2, true, true⟩ ∧
    LoadedSegment.ofWord (seg16 type base lim dpl).word = ⟨base, (lim.setWidth 20).setWidth 32,
      type.setWidth 4, true, dpl.setWidth 2, true, true⟩ ∧
    (type.toNat < 16 → segAsm type base lim = descBytes (seg type base lim 0).word) ∧
    Gate.ofWord (setGate istrap sel off dpl).word = ⟨off, sel.setWidth 16, 0,
      if istrap ≠ 0 then STS_TG32 else STS_IG32, true, dpl.setWidth 2, true⟩ ∧
    Gate.ofWord (setCallGate sel off dpl).word =
      ⟨off, sel.setWidth 16, 0, STS_CG32, true, dpl.setWidth 2, true⟩ :=
  ⟨ofWord_seg type base lim dpl, ofWord_seg16 type base lim dpl, segAsm_eq,
    ofWord_gatedesc _ sel off dpl, ofWord_gatedesc _ sel off dpl⟩

/-! ### The table of `boot.S` -/

abbrev STA_X : BitVec 32 := 0x8
abbrev STA_W : BitVec 32 := 0x2
abbrev STA_R : BitVec 32 := 0x2

/-- `SEG_NULL` for the assembler. -/
def segNullAsm : List Byte := asmWord 0 ++ asmWord 0 ++ [0, 0, 0, 0]

def gdt : List Byte :=
  segNullAsm ++ segAsm (STA_X ||| STA_R) 0x0 0xffffffff ++ segAsm STA_W 0x0 0xffffffff

/-- The first word of `gdtdesc`. -/
def gdtLimit : BitVec 16 := 0x17

/-- The descriptor that a selector names, as far as the table reaches. -/
def descriptorAt (table : List Byte) (limit sel : BitVec 16) : Option (BitVec 64) :=
  let i := sel.toNat / 8
  if 8 * i + 7 ≤ limit.toNat then
    some (packWord 64 (((table.drop (8 * i)).take 8).map fun b => ⟨8, b⟩))
  else none

/-- The linear address of an offset in a segment that does not expand down. -/
def LoadedSegment.linear (s : LoadedSegment) (off : BitVec 32) : Option (BitVec 32) :=
  if s.present ∧ off ≤ s.limit then some (s.base + off) else none

/-- Both segments of the boot loader leave every address as it is. -/
theorem boot_segments_flat (off : BitVec 32) : ∀ sel ∈ [0x8, 0x10],
    (descriptorAt gdt gdtLimit sel).bind (fun x => (LoadedSegment.ofWord x).linear off) =
      some off := by
  have hflat : ∀ sel ∈ [0x8, 0x10], ∃ x, descriptorAt gdt gdtLimit sel = some x ∧
      (LoadedSegment.ofWord x).base = 0 ∧ (LoadedSegment.ofWord x).limit = 0xffffffff ∧
      (LoadedSegment.ofWord x).present = true := by
    intro sel hsel
    rcases List.mem_cons.mp hsel with rfl | hsel
    · exact ⟨_, rfl, by decide, by decide, by decide⟩
    · obtain rfl := List.mem_singleton.mp hsel
      exact ⟨_, rfl, by decide, by decide, by decide⟩
  intro sel hsel
  obtain ⟨x, hx, hbase, hlimit, hpresent⟩ := hflat sel hsel
  have hle : off ≤ 0xffffffff := by bv_omega
  rw [hx, Option.bind_some, LoadedSegment.linear, hbase, hlimit, hpresent, if_pos ⟨rfl, hle⟩]
  exact congrArg some (BitVec.zero_add off)

end Jos
