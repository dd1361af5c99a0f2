import Jos.Kern.Console
import Jos.Prog.Machine

/-!
What the CGA driver is for: a terminal of 80 columns and unbounded height, of which
the bottom 25 rows are seen. Nothing here mentions the video memory.
-/
namespace Jos

open Prog

/-- A blank cell, black on white. -/
def blankCell : BitVec 16 := 0x0720

/-- All rows ever written, the position `P` of the cursor and the top row `T` of the window. -/
structure Terminal where
  cells : ℕ → BitVec 16
  cursor : ℕ
  top : ℕ

namespace Terminal

variable {t : Terminal} {v : BitVec 16}

/-- The cell that an `int` stands for: attribute 7 when it is a bare character. -/
def glyph (c : BitVec 32) : BitVec 16 :=
  if c.toNat < 256 then 0x07#8 ++ c.setWidth 8 else c.setWidth 16

/-- A blank in the attribute of `c`. -/
def blankOf (c : BitVec 32) : BitVec 16 := ((glyph c) >>> 8).setWidth 8 ++ 0x20#8

/-- The window follows the cursor down. -/
def scroll (t : Terminal) : Terminal :=
  if crtCols * (t.top + crtRows) ≤ t.cursor then { t with top := t.top + 1 } else t

/-- Write a cell at the cursor and advance. -/
def put (t : Terminal) (v : BitVec 16) : Terminal :=
  { t with cells := Function.update t.cells t.cursor v, cursor := t.cursor + 1 }

def newline (t : Terminal) : Terminal := { t with cursor := crtCols * (t.cursor / crtCols + 1) }

def carriageReturn (t : Terminal) : Terminal := { t with cursor := crtCols * (t.cursor / crtCols) }

/-- Step back and blank, but not above the first visible cell. -/
def backspace (t : Terminal) (v : BitVec 16) : Terminal :=
  if t.cursor = crtCols * t.top then t
  else { t with cells := Function.update t.cells (t.cursor - 1) v, cursor := t.cursor - 1 }

/-- One blank, after which the window may move. -/
def space (t : Terminal) : Terminal := (t.put blankCell).scroll

/-- The meaning of one `int` given to the terminal. -/
def type (t : Terminal) (c : BitVec 32) : Terminal :=
  let b : BitVec 8 := c.setWidth 8
  if b = chr '\x08' then t.backspace (blankOf c)
  else if b = chr '\n' then t.newline.scroll
  else if b = chr '\r' then t.carriageReturn
  else if b = chr '\t' then t.space.space.space.space.space
  else (t.put (glyph c)).scroll

/-- The terminal on which nothing has happened but what the screen shows. -/
def ofScreen (s : Console) : Terminal where
  cells k := if k < crtSize then s.cell k else blankCell
  cursor := s.crtPos.toNat
  top := 0

end Terminal

/-- The terminal as a machine that is fed characters. -/
def terminal : Machine Terminal (BitVec 32) := ⟨Terminal.type⟩

/-- The CGA driver as a machine that is fed characters. -/
def cga : Machine Console (BitVec 32) := ⟨fun s c => cgaPutc c s⟩

end Jos
