import Jos.Kern.Printf
import Jos.Kern.Screen
import Jos.Lib.Text

/-! The same bytes on the screen, as the string of a `%s` and one at a time. -/
namespace Jos

open Prog

/-- The two screens look the same: cells with their attributes, and the cursor. -/
def SameScreen (s u : Console) : Prop :=
  s.crtPos = u.crtPos ∧ ∀ i < crtSize, s.cell i = u.cell i

/-- Which byte was put in each cell. It is none for a cell that was only blanked. -/
abbrev Ink := ℕ → Option Byte

namespace Terminal

/-- What the byte `b` changes about it, when the terminal is in the state `t`. -/
def ink (t : Terminal) (b : Byte) (w : Ink) : Ink :=
  if b = chr '\x08' then
    if t.cursor = crtCols * t.top then w else Function.update w (t.cursor - 1) none
  else if b = chr '\n' then w
  else if b = chr '\r' then w
  else if b = chr '\t' then
    (List.range' t.cursor 5).foldl (fun w k => Function.update w k none) w
  else Function.update w t.cursor (some b)

/-- The bytes in the cells after all of `s`. -/
def inked : List Byte → Terminal → Ink → Ink
  | [], _, w => w
  | b :: s, t, w => inked s (t.type (b.setWidth 32)) (t.ink b w)

end Terminal

/-- No byte from `0x80` on is left in a visible cell. -/
def Legible (s : List Byte) (t : Terminal) : Prop :=
  ∀ j < crtSize, ∀ b, Terminal.inked s t (fun _ => none)
    (crtCols * (terminal.run t (chars s)).top + j) = some b → b.toNat < 0x80

/-- Two terminals that have been given the same bytes, the first one as signed `char`s. -/
structure Agree (t u : Terminal) (w : Ink) : Prop where
  cursor : t.cursor = u.cursor
  top : t.top = u.top
  cells : ∀ k, t.cells k = u.cells k ↔ ∀ b, w k = some b → b.toNat < 0x80

namespace Agree

variable {t u : Terminal} {w : Ink} {v v' : BitVec 16} {o : Option Byte} {k : ℕ}

/-- The same place of both terminals is written. -/
theorem update (h : Agree t u w) (hv : v = v' ↔ ∀ b, o = some b → b.toNat < 0x80) (j k : ℕ) :
    Function.update t.cells k v j = Function.update u.cells k v' j ↔
      ∀ b, Function.update w k o j = some b → b.toNat < 0x80 := by
  by_cases hj : j = k
  · subst j
    rw [Function.update_self, Function.update_self, Function.update_self]
    exact hv
  · rw [Function.update_of_ne hj, Function.update_of_ne hj, Function.update_of_ne hj]
    exact h.cells j

theorem blank_iff : v = v ↔ ∀ b : Byte, none = some b → b.toNat < 0x80 :=
  iff_of_true rfl fun _ h => nomatch h

theorem scroll (h : Agree t u w) : Agree t.scroll u.scroll w := by
  refine ⟨?_, ?_, ?_⟩
  · rw [scroll_cursor, scroll_cursor, h.cursor]
  · unfold Terminal.scroll
    rw [h.cursor, h.top]
    split
    · rfl
    · exact h.top
  · intro k
    rw [scroll_cells, scroll_cells]
    exact h.cells k

theorem put (h : Agree t u w) (hv : v = v' ↔ ∀ b, o = some b → b.toNat < 0x80) :
    Agree (t.put v) (u.put v') (Function.update w u.cursor o) := by
  refine ⟨congrArg (· + 1) h.cursor, h.top, ?_⟩
  intro j
  rw [Terminal.put, Terminal.put, h.cursor]
  exact h.update hv j u.cursor

theorem space (h : Agree t u w) :
    Agree t.space u.space (Function.update w u.cursor none) :=
  (h.put blank_iff).scroll

theorem cursor_space (t : Terminal) : t.space.cursor = t.cursor + 1 := by
  rw [Terminal.space, scroll_cursor]
  rfl

theorem newline (h : Agree t u w) : Agree t.newline u.newline w := by
  refine ⟨?_, h.top, h.cells⟩
  rw [Terminal.newline, Terminal.newline, h.cursor]

theorem carriageReturn (h : Agree t u w) : Agree t.carriageReturn u.carriageReturn w := by
  refine ⟨?_, h.top, h.cells⟩
  rw [Terminal.carriageReturn, Terminal.carriageReturn, h.cursor]

theorem backspace (h : Agree t u w) : Agree (t.backspace v) (u.backspace v)
    (if u.cursor = crtCols * u.top then w else Function.update w (u.cursor - 1) none) := by
  unfold Terminal.backspace
  rw [h.cursor, h.top]
  split
  · exact h
  · refine ⟨rfl, rfl, ?_⟩
    intro j
    exact h.update blank_iff j (u.cursor - 1)

theorem spaces (h : Agree t u w) (n : ℕ) : Agree (Terminal.space^[n] t) (Terminal.space^[n] u)
    ((List.range' u.cursor n).foldl (fun w k => Function.update w k none) w) := by
  induction n generalizing t u w with
  | zero => exact h
  | succ n ih =>
    have hn := ih h.space
    rw [cursor_space] at hn
    exact hn

/-- A byte that is no control character has another glyph when its sign is extended. -/
theorem glyph_iff (b : Byte) : Terminal.glyph (b.signExtend 32) = Terminal.glyph (b.setWidth 32) ↔
    ∀ c, some b = some c → c.toNat < 0x80 := by
  have hglyph : Terminal.glyph (b.signExtend 32) = Terminal.glyph (b.setWidth 32) ↔
      b.toNat < 0x80 := by
    revert b
    decide
  rw [hglyph]
  constructor
  · intro h c hc
    rwa [← Option.some.inj hc]
  · intro h
    exact h b rfl

theorem type (h : Agree t u w) (b : Byte) :
    Agree (t.type (b.signExtend 32)) (u.type (b.setWidth 32)) (u.ink b w) := by
  have hsigned : (b.signExtend 32 : BitVec 32).setWidth 8 = b := by
    revert b
    decide
  have hunsigned : (b.setWidth 32 : BitVec 32).setWidth 8 = b := by
    revert b
    decide
  unfold Terminal.type Terminal.ink
  rw [hsigned, hunsigned]
  by_cases hbs : b = chr '\x08'
  · subst b
    exact h.backspace
  by_cases hnl : b = chr '\n'
  · simp only [if_neg hbs, if_pos hnl]
    exact h.newline.scroll
  by_cases hcr : b = chr '\r'
  · simp only [if_neg hbs, if_neg hnl, if_pos hcr]
    exact h.carriageReturn
  by_cases htab : b = chr '\t'
  · have hfive := h.spaces 5
    simp only [Function.iterate_succ_apply, Function.iterate_zero_apply] at hfive
    simp only [if_neg hbs, if_neg hnl, if_neg hcr, if_pos htab]
    exact hfive
  · simp only [if_neg hbs, if_neg hnl, if_neg hcr, if_neg htab]
    exact (h.put (glyph_iff b)).scroll

/-- The same bytes give terminals that differ where a byte from `0x80` on is left. -/
theorem run (h : Agree t u w) (s : List Byte) :
    Agree (terminal.run t (s.map (BitVec.signExtend 32))) (terminal.run u (chars s))
      (Terminal.inked s u w) := by
  induction s generalizing t u w with
  | nil => exact h
  | cons b s ih => exact ih (h.type b)

end Agree

variable {s : Console} {t : Terminal} {bs : List Byte}

theorem Shows.emit (h : Shows s t) (cs : List (BitVec 32)) :
    Shows (Jos.emit Jos.cputchar cs s) (terminal.run t cs) := by
  induction cs generalizing s t with
  | nil => exact h
  | cons c cs ih => exact ih h.cputchar

theorem sameScreen_iff (hpos : s.crtPos.toNat < crtSize) (bs : List Byte) :
    SameScreen (emit cputchar (bs.map (BitVec.signExtend 32)) s) (emit cputchar (chars bs) s) ↔
      Legible bs (.ofScreen s) := by
  have hstart : Agree (.ofScreen s) (.ofScreen s) fun _ => none :=
    ⟨rfl, rfl, fun _ => Agree.blank_iff⟩
  have hagree := hstart.run bs
  have ht := (shows_ofScreen hpos).emit (bs.map (BitVec.signExtend 32))
  have hu := (shows_ofScreen hpos).emit (chars bs)
  have hcell : ∀ j < crtSize,
      (emit cputchar (bs.map (BitVec.signExtend 32)) s).cell j =
        (emit cputchar (chars bs) s).cell j ↔
      ∀ b, Terminal.inked bs (.ofScreen s) (fun _ => none)
        (crtCols * (terminal.run (.ofScreen s) (chars bs)).top + j) = some b →
        b.toNat < 0x80 := by
    intro j hj
    rw [ht.cells j hj, hu.cells j hj, hagree.top]
    exact hagree.cells _
  constructor
  · rintro ⟨-, hcells⟩ j hj
    exact (hcell j hj).mp (hcells j hj)
  · intro h
    refine ⟨?_, fun j hj => (hcell j hj).mpr (h j hj)⟩
    apply BitVec.eq_of_toNat_eq
    rw [ht.pos, hu.pos, hagree.cursor, hagree.top]

/-- `%s` leaves the screen that the bytes leave when they are printed one at a time exactly
when no byte from `0x80` on is left in a visible cell. -/
theorem string_same_screen_iff (s : Console) (hpos : s.crtPos.toNat < crtSize) (bs : List Byte)
    (h0 : 0 ∉ bs) (hlen : bs.length < 2 ^ 31) :
    (∃ r u, Settles (fun n => cprintf n (cstr (lit "%s")) [.str (some (cstr bs))] s)
        (.ok (r, u)) ∧ SameScreen u (emit cputchar (chars bs) s)) ↔
      Legible bs (.ofScreen s) := by
  have hrun := vcprintf_settles (vprintfmt_string h0 hlen) s
  rw [← sameScreen_iff hpos bs]
  constructor
  · rintro ⟨r, u, hu, hsame⟩
    obtain ⟨-, rfl⟩ := Prod.mk.inj (Except.ok.inj (hu.unique hrun))
    exact hsame
  · intro hsame
    exact ⟨_, _, hrun, hsame⟩

/-- A byte that is taken back leaves no trace. -/
theorem string_same_screen_iff_erased :
    (∃ r u, Settles (fun n => cprintf n (cstr (lit "%s")) [.str (some (cstr [0xE9, chr '\x08']))]
        (.zeroed 0)) (.ok (r, u)) ∧
        SameScreen u (emit cputchar (chars [0xE9, chr '\x08']) (.zeroed 0))) ↔
      Legible [0xE9, chr '\x08'] (.ofScreen (.zeroed 0)) :=
  string_same_screen_iff (.zeroed 0) (by decide) [0xE9, chr '\x08'] (by decide) (by decide)

/-- One byte from `0x80` on loses its attribute. -/
theorem string_loses_attribute : ¬ ∃ r u,
    Settles (fun n => cprintf n (cstr (lit "%s")) [.str (some (cstr [0xE9]))] (.zeroed 0))
      (.ok (r, u)) ∧ SameScreen u (emit cputchar (chars [0xE9]) (.zeroed 0)) := by
  have hpos : (Console.zeroed 0).crtPos.toNat < crtSize := by decide
  have hrun := vcprintf_settles (vprintfmt_string (s := [0xE9]) (by decide) (by decide)) (.zeroed 0)
  rintro ⟨r, u, hu, hsame⟩
  obtain ⟨-, rfl⟩ := Prod.mk.inj (Except.ok.inj (hu.unique hrun))
  have hlegible := (sameScreen_iff hpos [0xE9]).mp hsame
  exact absurd (hlegible 0 (by decide) 0xE9 rfl) (by decide)

end Jos
