import Jos.Kern.Screen
import Jos.Lib.Readline

/-! What `readline` echoes stays on the screen as long as the line is edited. -/
namespace Jos

open Prog

variable {s u : Editor} {t : Terminal} {b : Byte} {n j : ℕ}

/-- The line stands on the terminal, just before the cursor and inside the window. -/
structure Echoes (s : Editor) (t : Terminal) : Prop where
  shows : Shows s.console t
  lt : s.i < bufLen
  room : crtCols * t.top + s.i ≤ t.cursor
  cells : ∀ j < s.i, t.cells (t.cursor - s.i + j) = 0x07#8 ++ s.buf j

/-- What is put on the CGA screen by a character that is printed. -/
theorem type_printable (hb : chr ' ' ≤ b) :
    t.type (b.setWidth 32) = (t.put (0x07#8 ++ b)).scroll := by
  have hlow : ((b.setWidth 32 : BitVec 32).setWidth 8 : BitVec 8) = b := key_low
  have hglyph : Terminal.glyph (b.setWidth 32) = 0x07#8 ++ b := by
    have hlt : (b.setWidth 32 : BitVec 32).toNat < 256 := by
      have := b.isLt
      simp only [BitVec.toNat_setWidth]
      omega
    rw [Terminal.glyph, if_pos hlt, hlow]
  have hctl : b ≠ chr '\x08' ∧ b ≠ chr '\n' ∧ b ≠ chr '\r' ∧ b ≠ chr '\t' := by
    refine ⟨?_, ?_, ?_, ?_⟩ <;> rintro rfl <;> exact absurd hb (by decide)
  obtain ⟨h₁, h₂, h₃, h₄⟩ := hctl
  simp only [Terminal.type, hlow, hglyph, if_neg h₁, if_neg h₂, if_neg h₃, if_neg h₄]

theorem type_backspace (h : t.cursor ≠ crtCols * t.top) :
    ∃ v, t.type (chr '\x08') = { t with
      cells := Function.update t.cells (t.cursor - 1) v, cursor := t.cursor - 1 } := by
  refine ⟨Terminal.blankOf (chr '\x08'), ?_⟩
  change t.backspace _ = _
  rw [Terminal.backspace, if_neg h]

/-- The last character is taken off the line and off the screen. -/
theorem Echoes.erase (h : Echoes s t) (hs : 0 < s.i) :
    Echoes { s with i := s.i - 1, console := Jos.cputchar (chr '\x08') s.console }
      (t.type (chr '\x08')) := by
  have hroom := h.room
  have hlt := h.lt
  refine ⟨h.shows.cputchar, ?_, ?_, ?_⟩
  · change s.i - 1 < bufLen
    omega
  · obtain ⟨v, htype⟩ := type_backspace (t := t) (by omega)
    rw [htype]
    change crtCols * t.top + (s.i - 1) ≤ t.cursor - 1
    omega
  · obtain ⟨v, htype⟩ := type_backspace (t := t) (by omega)
    rw [htype]
    intro j hj
    change j < s.i - 1 at hj
    change Function.update t.cells (t.cursor - 1) v (t.cursor - 1 - (s.i - 1) + j) = _
    have hidx : t.cursor - 1 - (s.i - 1) + j = t.cursor - s.i + j := by omega
    rw [hidx, Function.update_of_ne (by omega)]
    exact h.cells j (by omega)

/-- A line that fits the buffer is not scrolled off: the window moves by one row when the cursor
has left it, and the line is shorter than the rows that stay. -/
theorem scroll_room {i : ℕ} (hi : i < bufLen) (h : crtCols * t.top + i ≤ t.cursor) :
    crtCols * t.scroll.top + i ≤ t.scroll.cursor := by
  rw [scroll_cursor]
  unfold Terminal.scroll
  split
  · rename_i hlow
    change crtCols * (t.top + 1) + i ≤ t.cursor
    simp only [bufLen, crtCols, crtRows] at *
    omega
  · exact h

/-- A character is added to the line and to the screen. -/
theorem Echoes.insert (h : Echoes s t) (hb : chr ' ' ≤ b) (hs : s.i < bufLen - 1) :
    Echoes { s with buf := Function.update s.buf s.i b, i := s.i + 1,
                    console := Jos.cputchar (b.setWidth 32) s.console }
      (t.type (b.setWidth 32)) := by
  have hroom := h.room
  refine ⟨h.shows.cputchar, ?_, ?_, ?_⟩
  · change s.i + 1 < bufLen
    omega
  · rw [type_printable hb]
    refine scroll_room (t := t.put _) (show s.i + 1 < bufLen by omega) ?_
    change crtCols * t.top + (s.i + 1) ≤ t.cursor + 1
    omega
  · rw [type_printable hb, scroll_cursor, scroll_cells]
    intro j hj
    change j < s.i + 1 at hj
    change Function.update t.cells t.cursor _ (t.cursor + 1 - (s.i + 1) + j) =
      0x07#8 ++ Function.update s.buf s.i b j
    have hidx : t.cursor + 1 - (s.i + 1) + j = t.cursor - s.i + j := by omega
    rw [hidx]
    rcases Nat.lt_succ_iff_lt_or_eq.mp hj with hlt | rfl
    · rw [Function.update_of_ne (by omega), Function.update_of_ne (by omega), h.cells j hlt]
    · rw [Nat.sub_add_cancel (by omega), Function.update_self, Function.update_self]

/-- A key leaves the line on the screen, whatever the key is. -/
theorem Echoes.key (h : Echoes s t) (b : Byte)
    (hkey : readlineKey n (iscons 0) (b.setWidth 32) s = .ok (.inl u)) : ∃ t, Echoes u t := by
  by_cases herase : isErase b ∧ 0 < s.i
  · rw [readlineKey_erase herase.1 herase.2] at hkey
    obtain rfl := Sum.inl.inj (Except.ok.inj hkey)
    exact ⟨_, h.erase herase.2⟩
  by_cases hins : chr ' ' ≤ b ∧ s.i < bufLen - 1
  · rw [readlineKey_insert herase hins.1 hins.2] at hkey
    obtain rfl := Sum.inl.inj (Except.ok.inj hkey)
    exact ⟨_, h.insert hins.1 hins.2⟩
  by_cases hend : isEnd b
  · rw [readlineKey_end hend h.lt] at hkey
    cases hkey
  · rw [readlineKey_ignore herase hins hend] at hkey
    obtain rfl := Sum.inl.inj (Except.ok.inj hkey)
    exact ⟨t, h⟩

/-- `getchar` waits for a byte. -/
theorem getchar_ok {polls rest : List Byte} {c : BitVec 32} (h : getchar polls = .ok (c, rest)) :
    ∃ b : Byte, c = b.setWidth 32 := by
  induction polls with
  | nil => cases h
  | cons d polls ih =>
    rw [getchar] at h
    split at h
    · exact ih h
    · obtain ⟨rfl, -⟩ := Prod.mk.inj (Except.ok.inj h)
      exact ⟨d, rfl⟩

theorem Echoes.step (h : ∃ t, Echoes s t) (hstep : readlineBody n (iscons 0) s = .ok (.inl u)) :
    ∃ t, Echoes u t := by
  obtain ⟨t, h⟩ := h
  obtain ⟨⟨c, polls⟩, hget, hkey⟩ := bind_eq_ok.mp hstep
  obtain ⟨b, rfl⟩ := getchar_ok hget
  have hs : Echoes { s with polls := polls } t := ⟨h.shows, h.lt, h.room, h.cells⟩
  exact hs.key b hkey

/-- What the terminal shows is what the screen shows. -/
theorem Echoes.screen (h : Echoes s t) :
    s.i ≤ bufLen - 1 ∧ s.i ≤ s.console.crtPos.toNat ∧
    ∀ j < s.i, s.console.cell (s.console.crtPos.toNat - s.i + j) = 0x07#8 ++ s.buf j := by
  have hpos := h.shows.pos
  have hroom := h.room
  have hlt := h.shows.pos_lt
  have hi := h.lt
  refine ⟨by omega, by omega, ?_⟩
  intro j hj
  have hidx : crtCols * t.top + (s.console.crtPos.toNat - s.i + j) = t.cursor - s.i + j := by
    omega
  rw [h.shows.cells _ (by omega), hidx, h.cells j hj]

/-- At every point of every run, the screen holds the line just before the cursor. -/
theorem readline_echoes (s : Editor) (hi : s.i = 0) (hpos : s.console.crtPos.toNat < crtSize)
    (n : ℕ) (u : Editor) (hu : Reaches (readlineBody n (iscons 0)) s u) :
    u.i ≤ bufLen - 1 ∧ u.i ≤ u.console.crtPos.toNat ∧
    ∀ j < u.i, u.console.cell (u.console.crtPos.toNat - u.i + j) = 0x07#8 ++ u.buf j := by
  have hstart : ∃ t, Echoes s t := by
    refine ⟨.ofScreen s.console, shows_ofScreen hpos, ?_, ?_, ?_⟩
    · rw [hi]
      decide
    · rw [hi]
      exact Nat.zero_le _
    · intro j hj
      omega
  obtain ⟨t, h⟩ := hu.invariant (I := fun s => ∃ t, Echoes s t) (fun _ _ => Echoes.step) hstart
  exact h.screen

/-- A character in the last cell of the screen is scrolled, and is still there. -/
theorem readline_echoes_corner :
    ∃ u, Reaches (readlineBody 0 (iscons 0)) (.start 1999 [chr 'a']) u ∧ u.i = 1 ∧
      u.console.cell (u.console.crtPos.toNat - u.i + 0) = 0x07#8 ++ (chr 'a' : Byte) := by
  have hkey := readlineKey_insert (s := .start 1999 []) (b := chr 'a') (n := 0) (by decide)
    (by decide) (by decide)
  have hbody : readlineBody 0 (iscons 0) (.start 1999 [chr 'a']) =
      readlineKey 0 (iscons 0) ((chr 'a' : Byte).setWidth 32) (.start 1999 []) := rfl
  have hu := Reaches.step .refl (hbody.trans hkey)
  exact ⟨_, hu, rfl, (readline_echoes (.start 1999 [chr 'a']) rfl (by decide) 0 _ hu).2.2 0
    (by decide)⟩

end Jos
