import Jos.Inc.Types
import Jos.Lib.String

/-! `kern/console.c`: the output side of the console. -/
namespace Jos

open Prog

abbrev crtRows : ℕ := 25
abbrev crtCols : ℕ := 80
abbrev crtSize : ℕ := crtRows * crtCols

def com1 : BitVec 32 := 0x3F8
def comTx : BitVec 32 := 0

/-- `KERNBASE + CGA_BUF` and `KERNBASE + MONO_BUF`. -/
def cgaBuf : Addr := 0xF0000000 + 0xB8000
def monoBuf : Addr := 0xF0000000 + 0xB0000

/-- The state of the three output devices. -/
structure Console where
  mem : Memory
  crtBuf : Addr
  /-- `cga_init` leaves one of two buffers. -/
  crtBuf_mem : crtBuf = cgaBuf ∨ crtBuf = monoBuf
  crtPos : BitVec 16
  addr6845 : BitVec 32
  /-- Every `outb`, as port and value, oldest first. -/
  outs : List (BitVec 32 × Byte)

namespace Console

def outb (s : Console) (port : BitVec 32) (v : Byte) : Console :=
  { s with outs := s.outs ++ [(port, v)] }

def setPos (s : Console) (p : BitVec 16) : Console := { s with crtPos := p }

/-- The address of `crt_buf[i]`. -/
def crtAddr (s : Console) (i : ℕ) : Addr := s.crtBuf + BitVec.ofNat 32 (2 * i)

/-- `crt_buf[i]`. -/
def cell (s : Console) (i : ℕ) : BitVec 16 := s.mem.load16 (s.crtAddr i)

/-- `crt_buf[i] = v`. -/
def crtStore (s : Console) (i : ℕ) (v : BitVec 16) : Console :=
  { s with mem := s.mem.store16 (s.crtAddr i) v }

/-- `memmove(crt_buf, crt_buf + CRT_COLS, (CRT_SIZE - CRT_COLS) * sizeof(uint16_t))`. -/
def crtMove (s : Console) : Console :=
  { s with mem := memmove s.mem (s.crtAddr 0) (s.crtAddr crtCols)
                    (BitVec.ofNat 32 ((crtSize - crtCols) * 2)) }

/-- `for (i = CRT_SIZE - CRT_COLS; i < CRT_SIZE; i++) crt_buf[i] = v`. -/
def crtFill (s : Console) (v : BitVec 16) : Console :=
  (List.range' (crtSize - crtCols) crtCols).foldl (fun s i => s.crtStore i v) s

/-- A console with an empty memory and the cursor at `p`. -/
def zeroed (p : BitVec 16) : Console where
  mem := ⟨fun _ => 0, []⟩
  crtBuf := cgaBuf
  crtBuf_mem := .inl rfl
  crtPos := p
  addr6845 := 0x3D4
  outs := []

end Console

/-- The wait before the transmitter is ready is bounded and its outcome is not looked at. -/
def serialPutc (c : BitVec 32) (s : Console) : Console :=
  s.outb (com1 + comTx) (c.setWidth 8)

def lptPutc (c : BitVec 32) (s : Console) : Console :=
  ((s.outb 0x378 (c.setWidth 8)).outb (0x378 + 2) (0x08 ||| 0x04 ||| 0x01)).outb (0x378 + 2) 0x08

/-- If no attribute is given, black on white. -/
def cgaAttr (c : BitVec 32) : BitVec 32 :=
  if c &&& ~~~0xFF#32 = 0 then c ||| 0x0700 else c

/-- Move the rows up by one when the cursor has left the screen. -/
def cgaScroll (s : Console) : Console :=
  if crtSize ≤ s.crtPos.toNat then
    let s := s.crtMove.crtFill (0x0700 ||| chr ' ')
    s.setPos (s.crtPos - BitVec.ofNat 16 crtCols)
  else s

/-- Move that little blinky thing. -/
def cgaCursor (s : Console) : Console :=
  (((s.outb s.addr6845 14).outb (s.addr6845 + 1) ((s.crtPos >>> 8).setWidth 8)).outb
    s.addr6845 15).outb (s.addr6845 + 1) (s.crtPos.setWidth 8)

def cgaBackspace (c : BitVec 32) (s : Console) : Console :=
  if 0 < s.crtPos then
    let s := s.setPos (s.crtPos - 1)
    s.crtStore s.crtPos.toNat (((c &&& ~~~0xFF#32) ||| chr ' ').setWidth 16)
  else s

def cgaReturn (s : Console) : Console :=
  s.setPos (s.crtPos - s.crtPos % BitVec.ofNat 16 crtCols)

/-- Falls through to the case of `'\r'`. -/
def cgaNewline (s : Console) : Console :=
  cgaReturn (s.setPos (s.crtPos + BitVec.ofNat 16 crtCols))

def cgaChar (c : BitVec 32) (s : Console) : Console :=
  (s.crtStore s.crtPos.toNat (c.setWidth 16)).setPos (s.crtPos + 1)

theorem space_ne_tab : ¬ cgaAttr (chr ' ') &&& 0xFF = chr '\t' := by decide

mutual

def cgaPutc (c : BitVec 32) (s : Console) : Console :=
  let s :=
    if cgaAttr c &&& 0xFF = chr '\x08' then cgaBackspace (cgaAttr c) s
    else if cgaAttr c &&& 0xFF = chr '\n' then cgaNewline s
    else if cgaAttr c &&& 0xFF = chr '\r' then cgaReturn s
    else if cgaAttr c &&& 0xFF = chr '\t' then
      let s := consPutc (chr ' ') s
      let s := consPutc (chr ' ') s
      let s := consPutc (chr ' ') s
      let s := consPutc (chr ' ') s
      consPutc (chr ' ') s
    else cgaChar (cgaAttr c) s
  cgaCursor (cgaScroll s)
termination_by if cgaAttr c &&& 0xFF = chr '\t' then 2 else 0
decreasing_by all_goals rw [if_neg space_ne_tab, if_pos ‹_›]; omega

/-- Output a character to the console: all three devices. -/
def consPutc (c : BitVec 32) (s : Console) : Console :=
  cgaPutc c (lptPutc c (serialPutc c s))
termination_by if cgaAttr c &&& 0xFF = chr '\t' then 3 else 1
decreasing_by split <;> omega

end

def cputchar (c : BitVec 32) (s : Console) : Console := consPutc c s

end Jos
