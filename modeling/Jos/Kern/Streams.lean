import Jos.Kern.Screen
import Jos.Lib.Emission

/-! What the console sends to the serial port and to the parallel port. -/
namespace Jos

open Prog

/-- The data ports of the serial and the parallel interface. -/
abbrev serialPort : BitVec 32 := com1 + comTx
abbrev parallelPort : BitVec 32 := 0x378

/-- The bytes that were sent to a port, oldest first. -/
def Console.sent (port : BitVec 32) (s : Console) : List Byte :=
  (s.outs.filter (·.1 = port)).map (·.2)

/-- `cga_init` found one of two displays. -/
def Console.Displays (s : Console) : Prop := s.addr6845 = 0x3B4 ∨ s.addr6845 = 0x3D4

/-- What one character brings to the wire: a tab is followed by the five blanks that the screen
driver passes back to `cons_putc`. -/
def wire (c : BitVec 32) : List Byte :=
  if c.setWidth 8 = chr '\t' then chr '\t' :: List.replicate 5 (chr ' ') else [c.setWidth 8]

variable {s u w : Console} {c : BitVec 32} {v : BitVec 16} {cs : List (BitVec 32)}
  {port : BitVec 32} {b : Byte} {bs bs' : List Byte}

/-! ### One operation -/

/-- From `s` to `u` the bytes `bs` were sent to both ports. -/
structure Sends (bs : List Byte) (s u : Console) : Prop where
  serial : u.sent serialPort = s.sent serialPort ++ bs
  parallel : u.sent parallelPort = s.sent parallelPort ++ bs
  display : u.addr6845 = s.addr6845

theorem Sends.refl (s : Console) : Sends [] s s := ⟨by simp, by simp, rfl⟩

theorem Sends.trans (h : Sends bs s u) (h' : Sends bs' u w) : Sends (bs ++ bs') s w where
  serial := by rw [h'.serial, h.serial, List.append_assoc]
  parallel := by rw [h'.parallel, h.parallel, List.append_assoc]
  display := h'.display.trans h.display

/-- Nothing is sent by what leaves the ports alone. -/
theorem sends_nil (houts : u.outs = s.outs) (haddr : u.addr6845 = s.addr6845) : Sends [] s u := by
  refine ⟨?_, ?_, haddr⟩
  · rw [Console.sent, houts, List.append_nil]
    rfl
  · rw [Console.sent, houts, List.append_nil]
    rfl

theorem Sends.displays (h : Sends bs s u) (hs : s.Displays) : u.Displays := by
  unfold Console.Displays at hs ⊢
  rwa [h.display]

theorem sent_outb_self : (s.outb port b).sent port = s.sent port ++ [b] := by
  simp [Console.sent, Console.outb]

theorem sent_outb_of_ne {p : BitVec 32} (h : p ≠ port) : (s.outb p b).sent port = s.sent port := by
  simp [Console.sent, Console.outb, h]

theorem sends_devices : Sends [c.setWidth 8] s (lptPutc c (serialPutc c s)) := by
  refine ⟨?_, ?_, rfl⟩
  · simp only [lptPutc, serialPutc]
    rw [sent_outb_of_ne (by decide), sent_outb_of_ne (by decide), sent_outb_of_ne (by decide),
      sent_outb_self]
  · simp only [lptPutc, serialPutc]
    rw [sent_outb_of_ne (by decide), sent_outb_of_ne (by decide), sent_outb_self,
      sent_outb_of_ne (by decide)]

theorem sends_cgaCursor (h : s.Displays) : Sends [] s (cgaCursor s) := by
  have hne : ∀ k : BitVec 32, k = 0 ∨ k = 1 → s.addr6845 + k ≠ serialPort ∧
      s.addr6845 + k ≠ parallelPort := by
    rintro k (rfl | rfl) <;> rcases h with h | h <;> rw [h] <;> decide
  have h0 := hne 0 (.inl rfl)
  have h1 := hne 1 (.inr rfl)
  have hadd : s.addr6845 + 0 = s.addr6845 := BitVec.add_zero _
  rw [hadd] at h0
  refine ⟨?_, ?_, rfl⟩
  · simp only [cgaCursor]
    rw [sent_outb_of_ne h1.1, sent_outb_of_ne h0.1, sent_outb_of_ne h1.1, sent_outb_of_ne h0.1,
      List.append_nil]
  · simp only [cgaCursor]
    rw [sent_outb_of_ne h1.2, sent_outb_of_ne h0.2, sent_outb_of_ne h1.2, sent_outb_of_ne h0.2,
      List.append_nil]

theorem sends_setPos (p : BitVec 16) : Sends [] s (s.setPos p) := sends_nil rfl rfl

theorem sends_crtStore (i : ℕ) : Sends [] s (s.crtStore i v) := sends_nil rfl rfl

theorem sends_crtMove : Sends [] s s.crtMove := sends_nil rfl rfl

theorem sends_crtFill : Sends [] s (s.crtFill v) := by
  unfold Console.crtFill
  induction List.range' (crtSize - crtCols) crtCols generalizing s with
  | nil => exact .refl s
  | cons j js ih => exact (sends_crtStore j).trans ih

theorem sends_cgaScroll : Sends [] s (cgaScroll s) := by
  unfold cgaScroll
  split
  · exact (sends_crtMove.trans sends_crtFill).trans (sends_setPos _)
  · exact .refl s

theorem sends_cgaBackspace : Sends [] s (cgaBackspace c s) := by
  unfold cgaBackspace
  split
  · exact (sends_setPos _).trans (sends_crtStore _)
  · exact .refl s

/-- The tail of `cga_putc`, after the `switch`. -/
theorem Sends.finish (h : Sends bs s u) (hs : s.Displays) :
    Sends bs s (cgaCursor (cgaScroll u)) := by
  have hscroll : Sends (bs ++ []) s (cgaScroll u) := h.trans sends_cgaScroll
  have hcursor := hscroll.trans (sends_cgaCursor (hscroll.displays hs))
  rwa [List.append_nil, List.append_nil] at hcursor

/-! ### One character -/

/-- The screen driver itself sends nothing, but for a tab. -/
theorem sends_cgaPutc (hs : s.Displays) (hc : c.setWidth 8 ≠ chr '\t') :
    Sends [] s (cgaPutc c s) := by
  rw [cgaPutc]
  simp only [cgaAttr_low_iff '\t' (by decide), if_neg hc]
  by_cases hbs : cgaAttr c &&& 0xFF = chr '\x08'
  · simp only [if_pos hbs]
    exact sends_cgaBackspace.finish hs
  by_cases hnl : cgaAttr c &&& 0xFF = chr '\n'
  · simp only [if_neg hbs, if_pos hnl]
    exact Sends.finish ((sends_setPos _).trans (sends_setPos _)) hs
  by_cases hcr : cgaAttr c &&& 0xFF = chr '\r'
  · simp only [if_neg hbs, if_neg hnl, if_pos hcr]
    exact Sends.finish (sends_setPos _) hs
  · simp only [if_neg hbs, if_neg hnl, if_neg hcr]
    exact Sends.finish ((sends_crtStore _).trans (sends_setPos _)) hs

theorem sends_consPutc (hs : s.Displays) (hc : c.setWidth 8 ≠ chr '\t') :
    Sends [c.setWidth 8] s (consPutc c s) := by
  have hdev := sends_devices (s := s) (c := c)
  have hcga := hdev.trans (sends_cgaPutc (hdev.displays hs) hc)
  rwa [consPutc, ← List.append_nil [c.setWidth 8]]

/-- The five blanks of a tab go to all three devices. -/
theorem sends_tab (hs : s.Displays) (hc : c.setWidth 8 = chr '\t') :
    Sends (List.replicate 5 (chr ' ')) s (cgaPutc c s) := by
  have hsp : ∀ {s : Console}, s.Displays → Sends [chr ' '] s (consPutc (chr ' ') s) :=
    fun hs => sends_consPutc hs (by decide)
  have h₁ := hsp hs
  have h₂ := h₁.trans (hsp (h₁.displays hs))
  have h₃ := h₂.trans (hsp (h₂.displays hs))
  have h₄ := h₃.trans (hsp (h₃.displays hs))
  have h₅ := h₄.trans (hsp (h₄.displays hs))
  rw [cgaPutc]
  simp only [cgaAttr_low_iff '\x08' (by decide), cgaAttr_low_iff '\n' (by decide),
    cgaAttr_low_iff '\r' (by decide), cgaAttr_low_iff '\t' (by decide), hc]
  exact Sends.finish h₅ hs

theorem sends_cputchar (hs : s.Displays) : Sends (wire c) s (cputchar c s) := by
  unfold wire cputchar
  by_cases hc : c.setWidth 8 = chr '\t'
  · have hdev := sends_devices (s := s) (c := c)
    have hcga := hdev.trans (sends_tab (hdev.displays hs) hc)
    rw [if_pos hc, consPutc]
    rwa [hc] at hcga
  · rw [if_neg hc]
    exact sends_consPutc hs hc

/-! ### A sequence of characters -/

theorem sends_emit (hs : s.Displays) (cs : List (BitVec 32)) :
    Sends (cs.flatMap wire) s (emit cputchar cs s) := by
  induction cs generalizing s with
  | nil => exact .refl s
  | cons c cs ih =>
    have hc := sends_cputchar (c := c) hs
    exact hc.trans (ih (hc.displays hs))

theorem length_le_flatMap_wire (cs : List (BitVec 32)) : cs.length ≤ (cs.flatMap wire).length := by
  induction cs with
  | nil => simp
  | cons c cs ih =>
    have hone : 1 ≤ (wire c).length := by
      unfold wire
      split <;> simp
    rw [List.flatMap_cons, List.length_append, List.length_cons]
    omega

/-- Only the blanks of a tab are too many. -/
theorem flatMap_wire_iff :
    cs.flatMap wire = cs.map (·.setWidth 8) ↔ ∀ c ∈ cs, c.setWidth 8 ≠ chr '\t' := by
  induction cs with
  | nil => simp
  | cons c cs ih =>
    rw [List.flatMap_cons, List.map_cons, List.forall_mem_cons, ← ih]
    by_cases hc : c.setWidth 8 = chr '\t'
    · refine iff_of_false (fun h => ?_) (fun h => h.1 hc)
      have hlen := congrArg List.length h
      have hle := length_le_flatMap_wire cs
      simp only [wire, if_pos hc, List.length_append, List.length_cons, List.length_replicate,
        List.length_map] at hlen
      omega
    · simp [wire, hc]

/-- The two ports get exactly the low bytes of the characters when there is no tab among them. -/
theorem streams_agree_iff (s : Console) (hs : s.Displays) (cs : List (BitVec 32)) :
    ((emit cputchar cs s).sent serialPort = s.sent serialPort ++ cs.map (·.setWidth 8) ∧
      (emit cputchar cs s).sent parallelPort = s.sent parallelPort ++ cs.map (·.setWidth 8)) ↔
    ∀ c ∈ cs, c.setWidth 8 ≠ chr '\t' := by
  have hsends := sends_emit hs cs
  rw [hsends.serial, hsends.parallel, List.append_cancel_left_eq, List.append_cancel_left_eq,
    and_self, flatMap_wire_iff]

theorem streams_agree_iff_ok :
    ((emit cputchar [chr 'o', chr 'k'] (.zeroed 0)).sent serialPort =
        (Console.zeroed 0).sent serialPort ++ [(chr 'o' : BitVec 32), chr 'k'].map (·.setWidth 8) ∧
      (emit cputchar [chr 'o', chr 'k'] (.zeroed 0)).sent parallelPort =
        (Console.zeroed 0).sent parallelPort ++
          [(chr 'o' : BitVec 32), chr 'k'].map (·.setWidth 8)) ↔
    ∀ c ∈ [(chr 'o' : BitVec 32), chr 'k'], c.setWidth 8 ≠ chr '\t' :=
  streams_agree_iff (.zeroed 0) (.inr rfl) [chr 'o', chr 'k']

/-- A tab sends six bytes to each port. -/
theorem tab_sends_blanks : ¬
    ((emit cputchar [chr '\t'] (.zeroed 0)).sent serialPort =
        (Console.zeroed 0).sent serialPort ++ [(chr '\t' : BitVec 32)].map (·.setWidth 8) ∧
      (emit cputchar [chr '\t'] (.zeroed 0)).sent parallelPort =
        (Console.zeroed 0).sent parallelPort ++ [(chr '\t' : BitVec 32)].map (·.setWidth 8)) := by
  have hdisp : (Console.zeroed 0).Displays := .inr rfl
  have hsends := sends_emit hdisp [chr '\t']
  rw [hsends.serial, hsends.parallel]
  decide

end Jos
