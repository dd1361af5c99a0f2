import Jos.Kern.Streams

/-!
`cga_init` of `kern/console.c`, and the 6845 that it reads the cursor from. What the driver
leaves there is what the driver would find there.
-/
namespace Jos

open Prog

/-- The controller of the display: the register that is selected, and the registers. -/
structure Crtc where
  index : Byte
  regs : Byte → Byte

/-- An `outb` selects a register or stores to it, when it goes to the controller at `base`. -/
def Crtc.write (base : BitVec 32) (c : Crtc) (o : BitVec 32 × Byte) : Crtc :=
  if o.1 = base then { c with index := o.2 }
  else if o.1 = base + 1 then { c with regs := Function.update c.regs c.index o.2 }
  else c

/-- `inb(base + 1)`. -/
def Crtc.read (c : Crtc) : Byte := c.regs c.index

/-- The hardware that `cga_init` finds. -/
structure Video where
  mem : Memory
  crtc : Crtc
  /-- What the colour buffer reads as when there is none. -/
  absent : Option (BitVec 16)

namespace Video

/-- `*cp`, at the colour buffer. -/
def load (v : Video) : BitVec 16 := v.absent.getD (v.mem.load16 cgaBuf)

/-- `*cp = x`, at the colour buffer. -/
def store (x : BitVec 16) (v : Video) : Video :=
  match v.absent with
  | none => { v with mem := v.mem.store16 cgaBuf x }
  | some _ => v

def outb (base : BitVec 32) (v : Video) (o : BitVec 32 × Byte) : Video :=
  { v with crtc := v.crtc.write base o }

end Video

abbrev monoBase : BitVec 32 := 0x3B4
abbrev cgaBase : BitVec 32 := 0x3D4

theorem cgaBuf_valid : cgaBuf = cgaBuf ∨ cgaBuf = monoBuf := .inl rfl

theorem monoBuf_valid : monoBuf = cgaBuf ∨ monoBuf = monoBuf := .inr rfl

/-- The colour buffer is used when it keeps what is written to it. -/
def cgaInit (v : Video) : Console × Video :=
  let was := v.load
  let v := v.store 0xA55A
  if v.load ≠ 0xA55A then cursorInit monoBuf monoBuf_valid monoBase v
  else cursorInit cgaBuf cgaBuf_valid cgaBase (v.store was)
where
  /-- Extract the cursor location. -/
  cursorInit (cp : Addr) (hcp : cp = cgaBuf ∨ cp = monoBuf) (addr6845 : BitVec 32) (v : Video) :
      Console × Video :=
    let v := v.outb addr6845 (addr6845, 14)
    let pos : BitVec 32 := v.crtc.read.setWidth 32 <<< 8
    let v := v.outb addr6845 (addr6845, 15)
    let pos := pos ||| v.crtc.read.setWidth 32
    (⟨v.mem, cp, hcp, pos.setWidth 16, addr6845, [(addr6845, 14), (addr6845, 15)]⟩, v)

/-- The controller after everything that the console has sent. -/
def Console.crtc (c : Crtc) (s : Console) : Crtc := s.outs.foldl (Crtc.write s.addr6845) c

/-- The hardware that the console leaves. -/
def Video.after (v : Video) (s : Console) : Video := { v with mem := s.mem, crtc := s.crtc v.crtc }

variable {c : Crtc} {s u w : Console} {v : Video} {ch : BitVec 32} {port : BitVec 32} {b : Byte}
  {cs : List (BitVec 32)}

/-! ### What the controller is sent -/

theorem crtc_outb : (s.outb port b).crtc c = (s.crtc c).write s.addr6845 (port, b) := by
  rw [Console.crtc, Console.outb, List.foldl_append]
  rfl

/-- From `s` to `u` the registers other than the two of the cursor are left as they were. -/
structure Kept (c : Crtc) (s u : Console) : Prop where
  display : s.Displays
  addr : u.addr6845 = s.addr6845
  buf : u.crtBuf = s.crtBuf
  others : ∀ r, r ≠ 14 → r ≠ 15 → (u.crtc c).regs r = c.regs r

/-- The two registers of the cursor hold its position. -/
structure Tracks (c : Crtc) (s u : Console) : Prop extends Kept c s u where
  high : (u.crtc c).regs 14 = (u.crtPos >>> 8).setWidth 8
  low : (u.crtc c).regs 15 = u.crtPos.setWidth 8

/-- What sends nothing changes no register. -/
theorem Kept.of_eq (h : Kept c s u) (houts : w.outs = u.outs) (haddr : w.addr6845 = u.addr6845)
    (hbuf : w.crtBuf = u.crtBuf) : Kept c s w := by
  have hcrtc : w.crtc c = u.crtc c := by rw [Console.crtc, houts, haddr]; rfl
  refine ⟨h.display, haddr.trans h.addr, hbuf.trans h.buf, ?_⟩
  rw [hcrtc]
  exact h.others

theorem Kept.outb_other (h : Kept c s u) (hbase : port ≠ s.addr6845)
    (hdata : port ≠ s.addr6845 + 1) : Kept c s (u.outb port b) := by
  rw [← h.addr] at hbase hdata
  have hcrtc : (u.outb port b).crtc c = u.crtc c := by
    rw [crtc_outb, Crtc.write, if_neg hbase, if_neg hdata]
  exact ⟨h.display, h.addr, h.buf, by rw [hcrtc]; exact h.others⟩

theorem Kept.devices (h : Kept c s u) : Kept c s (lptPutc ch (serialPutc ch u)) := by
  have hne : ∀ {p : BitVec 32}, p = com1 + comTx ∨ p = 0x378 ∨ p = 0x378 + 2 →
      p ≠ s.addr6845 ∧ p ≠ s.addr6845 + 1 := by
    intro p hp
    rcases h.display with hd | hd <;> rw [hd] <;> rcases hp with rfl | rfl | rfl <;> decide
  have hserial := hne (.inl rfl)
  have hdata := hne (.inr (.inl rfl))
  have hcontrol := hne (.inr (.inr rfl))
  have h₁ : Kept c s (serialPutc ch u) := h.outb_other hserial.1 hserial.2
  have h₂ := h₁.outb_other (b := ch.setWidth 8) hdata.1 hdata.2
  have h₃ := h₂.outb_other (b := 0x08 ||| 0x04 ||| 0x01) hcontrol.1 hcontrol.2
  exact h₃.outb_other hcontrol.1 hcontrol.2

theorem Kept.setPos (h : Kept c s u) (p : BitVec 16) : Kept c s (u.setPos p) := h.of_eq rfl rfl rfl

theorem Kept.crtStore (h : Kept c s u) (i : ℕ) (x : BitVec 16) : Kept c s (u.crtStore i x) :=
  h.of_eq rfl rfl rfl

theorem Kept.crtMove (h : Kept c s u) : Kept c s u.crtMove := h.of_eq rfl rfl rfl

theorem Kept.crtFill (h : Kept c s u) (x : BitVec 16) : Kept c s (u.crtFill x) := by
  unfold Console.crtFill
  induction List.range' (crtSize - crtCols) crtCols generalizing u with
  | nil => exact h
  | cons j js ih => exact ih (h.crtStore j x)

theorem Kept.cgaScroll (h : Kept c s u) : Kept c s (cgaScroll u) := by
  unfold Jos.cgaScroll
  split
  · exact (h.crtMove.crtFill _).setPos _
  · exact h

theorem Kept.cgaBackspace (h : Kept c s u) : Kept c s (cgaBackspace ch u) := by
  unfold Jos.cgaBackspace
  split
  · exact (h.setPos _).crtStore _ _
  · exact h

/-- The cursor is moved to the position of the driver. -/
theorem Kept.cgaCursor (h : Kept c s u) : Tracks c s (cgaCursor u) := by
  have hne : u.addr6845 + 1 ≠ u.addr6845 := by bv_omega
  have hcrtc : (Jos.cgaCursor u).crtc c = ⟨15, Function.update (Function.update (u.crtc c).regs 14
      ((u.crtPos >>> 8).setWidth 8)) 15 (u.crtPos.setWidth 8)⟩ := by
    simp only [Jos.cgaCursor, crtc_outb]
    simp only [Crtc.write, Console.outb, if_true, if_neg hne]
  refine ⟨⟨h.display, h.addr, h.buf, fun r hr hr' => ?_⟩, ?_, ?_⟩
  · rw [hcrtc, ← h.others r hr hr']
    simp only [Function.update, eq_rec_constant, dite_eq_ite, if_neg hr, if_neg hr']
  · rw [hcrtc]
    simp [Function.update, Jos.cgaCursor, Console.outb]
  · rw [hcrtc]
    simp [Function.update, Jos.cgaCursor, Console.outb]

theorem Kept.finish (h : Kept c s u) : Tracks c s (Jos.cgaCursor (Jos.cgaScroll u)) :=
  h.cgaScroll.cgaCursor

/-! ### Characters -/

theorem Kept.cgaPutc_of_ne_tab (h : Kept c s u) (hch : ch.setWidth 8 ≠ chr '\t') :
    Tracks c s (cgaPutc ch u) := by
  rw [cgaPutc]
  simp only [cgaAttr_low_iff '\t' (by decide), if_neg hch]
  by_cases hbs : cgaAttr ch &&& 0xFF = chr '\x08'
  · simp only [if_pos hbs]
    exact h.cgaBackspace.finish
  by_cases hnl : cgaAttr ch &&& 0xFF = chr '\n'
  · simp only [if_neg hbs, if_pos hnl]
    exact ((h.setPos _).setPos _).finish
  by_cases hcr : cgaAttr ch &&& 0xFF = chr '\r'
  · simp only [if_neg hbs, if_neg hnl, if_pos hcr]
    exact (h.setPos _).finish
  · simp only [if_neg hbs, if_neg hnl, if_neg hcr]
    exact ((h.crtStore _ _).setPos _).finish

theorem Kept.consPutc_of_ne_tab (h : Kept c s u) (hch : ch.setWidth 8 ≠ chr '\t') :
    Tracks c s (consPutc ch u) := by
  rw [consPutc]
  exact h.devices.cgaPutc_of_ne_tab hch

theorem Kept.cgaPutc_of_tab (h : Kept c s u) (hch : ch.setWidth 8 = chr '\t') :
    Tracks c s (cgaPutc ch u) := by
  have hsp : ∀ {u : Console}, Kept c s u → Kept c s (consPutc (chr ' ') u) :=
    fun h => (h.consPutc_of_ne_tab (by decide)).toKept
  have hfive := hsp (hsp (hsp (hsp (hsp h))))
  rw [cgaPutc]
  simp only [cgaAttr_low_iff '\x08' (by decide), cgaAttr_low_iff '\n' (by decide),
    cgaAttr_low_iff '\r' (by decide), cgaAttr_low_iff '\t' (by decide), hch]
  exact hfive.finish

theorem Kept.cputchar (h : Kept c s u) (ch : BitVec 32) : Tracks c s (cputchar ch u) := by
  rw [Jos.cputchar, consPutc]
  by_cases hch : ch.setWidth 8 = chr '\t'
  · exact h.devices.cgaPutc_of_tab hch
  · exact h.devices.cgaPutc_of_ne_tab hch

/-- The cursor follows everything that is printed. -/
theorem Tracks.emit (h : Tracks c s u) (cs : List (BitVec 32)) :
    Tracks c s (Jos.emit Jos.cputchar cs u) := by
  induction cs generalizing u with
  | nil => exact h
  | cons ch cs ih => exact ih (h.toKept.cputchar ch)

/-! ### What `cga_init` finds -/

/-- The halves of a position, and the position from its halves. -/
theorem halves (p : BitVec 16) : ((p >>> 8).setWidth 8 ++ p.setWidth 8 : BitVec 16) = p := by
  apply BitVec.eq_of_getLsbD_eq
  intro i hi
  rw [BitVec.getLsbD_append]
  split
  · rename_i hlow
    simp [hlow]
  · have hsum : 8 + (i - 8) = i := by omega
    have hlow : i - 8 < 8 := by omega
    simp [hsum, hlow]

theorem high_append (high low : Byte) : ((high ++ low : BitVec 16) >>> 8).setWidth 8 = high := by
  apply BitVec.eq_of_getLsbD_eq
  intro i hi
  have hbyte := BitVec.getLsbD_append (x := high) (y := low) (i := 8 + i)
  rw [if_neg (by omega), Nat.add_sub_cancel_left] at hbyte
  rw [BitVec.getLsbD_setWidth, BitVec.getLsbD_ushiftRight, hbyte]
  simp [hi]

theorem low_append (high low : Byte) : (high ++ low : BitVec 16).setWidth 8 = low := by
  rw [BitVec.setWidth_append]
  simp

/-- The position that is read from two registers. -/
theorem join_cursor (high low : Byte) :
    ((high.setWidth 32 : BitVec 32) <<< 8 ||| (low.setWidth 32 : BitVec 32)).setWidth 16 =
      high ++ low := by
  apply BitVec.eq_of_getLsbD_eq
  intro i hi
  rw [BitVec.getLsbD_append]
  by_cases hlow : i < 8
  · simp [hlow, hi]
  · have hbit : low.getLsbD i = false := BitVec.getLsbD_of_ge low i (by omega)
    simp [hlow, hi, hbit]

/-- There is a colour buffer, or what is read in its place looks like one. -/
def Video.Answers (v : Video) : Prop := v.absent = none ∨ v.absent = some 0xA55A

instance (v : Video) : Decidable v.Answers := inferInstanceAs (Decidable (_ ∨ _))

/-- What `cga_init` leaves: the buffer that answers and its controller, the position that the
controller holds, and all of the memory as it was. -/
structure Found (v : Video) (s : Console) : Prop where
  buf : s.crtBuf = if v.Answers then cgaBuf else monoBuf
  addr : s.addr6845 = if v.Answers then cgaBase else monoBase
  pos : s.crtPos = v.crtc.regs 14 ++ v.crtc.regs 15
  bytes : ∀ a, s.mem.bytes a = v.mem.bytes a
  outs : s.outs = [(s.addr6845, 14), (s.addr6845, 15)]

/-- The probe puts back what it has overwritten. -/
theorem bytes_restore (m : Memory) (a x : Addr) (v : BitVec 16) :
    ((m.store16 a v).store16 a (m.load16 a)).bytes x = m.bytes x := by
  simp only [Memory.store16, Memory.bytes_storeBytes (show [_, _].length < 2 ^ 32 by simp)]
  have hlow : (m.load16 a).setWidth 8 = m.bytes a := low_append _ _
  have hhigh : (m.load16 a >>> 8).setWidth 8 = m.bytes (a + 1) := high_append _ _
  rw [hlow, hhigh]
  rcases hd : (x - a).toNat with _ | _ | d
  · have hx : x = a := by bv_omega
    rw [hx]
    rfl
  · have hx : x = a + 1 := by bv_omega
    rw [hx]
    rfl
  · rfl

theorem cursorInit_pos (cp : Addr) (hcp : cp = cgaBuf ∨ cp = monoBuf) (addr : BitVec 32)
    (v : Video) :
    (cgaInit.cursorInit cp hcp addr v).1.crtPos = v.crtc.regs 14 ++ v.crtc.regs 15 := by
  have hselect : ∀ (c : Crtc) (i : Byte), (c.write addr (addr, i)).read = c.regs i := by
    intro c i
    rw [Crtc.write, if_pos rfl]
    rfl
  have hregs : (v.crtc.write addr (addr, 14)).regs = v.crtc.regs := by
    rw [Crtc.write, if_pos rfl]
  simp only [cgaInit.cursorInit, Video.outb, hselect, hregs]
  exact join_cursor _ _

theorem cgaInit_found (v : Video) : Found v (cgaInit v).1 := by
  obtain ⟨mem, crtc, absent⟩ := v
  cases absent with
  | none =>
    have hans : Video.Answers ⟨mem, crtc, none⟩ := .inl rfl
    have hload : Video.load (Video.store 0xA55A ⟨mem, crtc, none⟩) = 0xA55A :=
      Memory.load16_store16 _
    have hinit : cgaInit ⟨mem, crtc, none⟩ = cgaInit.cursorInit cgaBuf cgaBuf_valid cgaBase
        ⟨(mem.store16 cgaBuf 0xA55A).store16 cgaBuf (mem.load16 cgaBuf), crtc, none⟩ := by
      rw [cgaInit, if_neg (not_not_intro hload)]
      rfl
    rw [hinit]
    refine ⟨?_, ?_, cursorInit_pos .., fun a => bytes_restore _ _ _ _, rfl⟩
    · rw [if_pos hans]
      rfl
    · rw [if_pos hans]
      rfl
  | some x =>
    have hload : Video.load ⟨mem, crtc, some x⟩ = x := rfl
    have hstore : ∀ y, Video.store y ⟨mem, crtc, some x⟩ = ⟨mem, crtc, some x⟩ := fun _ => rfl
    by_cases hx : x = 0xA55A
    · have hans : Video.Answers ⟨mem, crtc, some x⟩ := .inr (congrArg some hx)
      have hinit : cgaInit ⟨mem, crtc, some x⟩ = cgaInit.cursorInit cgaBuf cgaBuf_valid cgaBase
          ⟨mem, crtc, some x⟩ := by
        rw [cgaInit, hstore, hload, if_neg (not_not_intro hx), hstore]
      rw [hinit]
      refine ⟨?_, ?_, cursorInit_pos .., fun a => rfl, rfl⟩
      · rw [if_pos hans]
        rfl
      · rw [if_pos hans]
        rfl
    · have hans : ¬ Video.Answers ⟨mem, crtc, some x⟩ := by
        rintro (h | h)
        · cases h
        · exact hx (Option.some.inj h)
      have hinit : cgaInit ⟨mem, crtc, some x⟩ = cgaInit.cursorInit monoBuf monoBuf_valid monoBase
          ⟨mem, crtc, some x⟩ := by
        rw [cgaInit, hstore, hload, if_pos hx]
      rw [hinit]
      refine ⟨?_, ?_, cursorInit_pos .., fun a => rfl, rfl⟩
      · rw [if_neg hans]
        rfl
      · rw [if_neg hans]
        rfl

theorem Found.displays (h : Found v s) : s.Displays := by
  rw [Console.Displays, h.addr]
  by_cases hans : v.Answers
  · exact .inr (if_pos hans)
  · exact .inl (if_neg hans)

/-- At first the registers hold the position that has been read from them. -/
theorem Found.tracks (h : Found v s) : Tracks v.crtc s s := by
  have hcrtc : (s.crtc v.crtc).regs = v.crtc.regs := by
    rw [Console.crtc, h.outs]
    simp only [List.foldl_cons, List.foldl_nil, Crtc.write, if_true]
  refine ⟨⟨h.displays, rfl, rfl, fun r _ _ => by rw [hcrtc]⟩, ?_, ?_⟩
  · rw [hcrtc, h.pos, high_append]
  · rw [hcrtc, h.pos, low_append]

/-- Whatever has been printed, `cga_init` finds the display as the driver left it: the same buffer
with the same contents, the same controller and the same position. The driver has changed no other
register of the controller. -/
theorem cga_init_recovers (v : Video) (cs : List (BitVec 32)) :
    let s := emit cputchar cs (cgaInit v).1
    let t := (cgaInit (v.after s)).1
    t.crtBuf = s.crtBuf ∧ t.addr6845 = s.addr6845 ∧ t.crtPos = s.crtPos ∧
      (∀ a, t.mem.bytes a = s.mem.bytes a) ∧
      ∀ r, r ≠ 14 → r ≠ 15 → (v.after s).crtc.regs r = v.crtc.regs r := by
  have hfound := cgaInit_found v
  have htracks := hfound.tracks.emit cs
  have hagain := cgaInit_found (v.after (emit cputchar cs (cgaInit v).1))
  have hbuf := hagain.buf.trans (hfound.buf.symm.trans htracks.buf.symm)
  have haddr := hagain.addr.trans (hfound.addr.symm.trans htracks.addr.symm)
  refine ⟨hbuf, haddr, ?_, hagain.bytes, htracks.others⟩
  have hregs : ∀ r, (v.after (emit cputchar cs (cgaInit v).1)).crtc.regs r =
      ((emit cputchar cs (cgaInit v).1).crtc v.crtc).regs r := fun _ => rfl
  rw [hagain.pos, hregs, hregs, htracks.high, htracks.low, halves]

end Jos
