import Jos.Kern.Terminal
import Mathlib.Tactic.IntervalCases

/-! The CGA driver keeps the window of the terminal in video memory. -/
namespace Jos

open Prog

variable {s u : Console} {t : Terminal} {c : BitVec 32} {v : BitVec 16} {i j : ℕ}

/-! ### What single operations do to cells -/

namespace Console

@[simp] theorem outb_mem (p : BitVec 32) (b : Byte) : (s.outb p b).mem = s.mem := rfl
@[simp] theorem outb_crtBuf (p : BitVec 32) (b : Byte) : (s.outb p b).crtBuf = s.crtBuf := rfl
@[simp] theorem outb_crtPos (p : BitVec 32) (b : Byte) : (s.outb p b).crtPos = s.crtPos := rfl
@[simp] theorem setPos_mem (p : BitVec 16) : (s.setPos p).mem = s.mem := rfl
@[simp] theorem setPos_crtBuf (p : BitVec 16) : (s.setPos p).crtBuf = s.crtBuf := rfl
@[simp] theorem setPos_crtPos (p : BitVec 16) : (s.setPos p).crtPos = p := rfl
@[simp] theorem crtStore_crtPos : (s.crtStore i v).crtPos = s.crtPos := rfl
@[simp] theorem crtStore_crtBuf : (s.crtStore i v).crtBuf = s.crtBuf := rfl

theorem cell_congr (hm : u.mem = s.mem) (hb : u.crtBuf = s.crtBuf) (i : ℕ) :
    u.cell i = s.cell i := by
  simp [cell, crtAddr, hm, hb]

@[simp] theorem cell_setPos (p : BitVec 16) : (s.setPos p).cell i = s.cell i :=
  cell_congr rfl rfl i

theorem cell_crtStore (hi : i ≤ crtSize) (hj : j ≤ crtSize) :
    (s.crtStore j v).cell i = if i = j then v else s.cell i := by
  simp only [crtSize, crtRows, crtCols] at hi hj
  split
  · subst i
    exact Memory.load16_store16 v
  · have hne : i < j ∨ j < i := by omega
    apply Memory.load16_store16_of_ne
    · simp only [crtAddr, crtStore_crtBuf]
      bv_omega
    · simp only [crtAddr, crtStore_crtBuf]
      bv_omega

theorem crtBuf_toNat_le (s : Console) : s.crtBuf.toNat + 2 * crtSize ≤ 2 ^ 32 := by
  rcases s.crtBuf_mem with h | h <;> rw [h] <;> decide

/-- The move of the lower rows, as the cells see it. -/
theorem cell_crtMove (hi : i < crtSize) :
    s.crtMove.cell i = if i < crtSize - crtCols then s.cell (i + crtCols) else s.cell i := by
  have hbuf := s.crtBuf_toNat_le
  simp only [crtSize, crtRows, crtCols] at hi hbuf ⊢
  have hn : (BitVec.ofNat 32 ((25 * 80 - 80) * 2)).toNat = 3840 := rfl
  have hsrc : (s.crtAddr 80).toNat = s.crtBuf.toNat + 160 := by simp only [crtAddr]; bv_omega
  have hdst : (s.crtAddr 0).toNat = s.crtBuf.toNat := by simp only [crtAddr]; bv_omega
  have hs : (s.crtAddr 80).toNat + (BitVec.ofNat 32 ((25 * 80 - 80) * 2)).toNat ≤ 2 ^ 32 := by
    omega
  have hd : (s.crtAddr 0).toNat + (BitVec.ofNat 32 ((25 * 80 - 80) * 2)).toNat ≤ 2 ^ 32 := by
    omega
  have hbytes := fun x => bytes_memmove (m := s.mem) (x := x) hs hd
  simp only [crtMove, cell, crtAddr, crtSize, crtRows, crtCols, Memory.load16] at hbytes ⊢
  simp only [hbytes, hn]
  have hlo : (s.crtAddr i - s.crtAddr 0).toNat = 2 * i := by simp only [crtAddr]; bv_omega
  have hhi : (s.crtAddr i + 1 - s.crtAddr 0).toNat = 2 * i + 1 := by
    simp only [crtAddr]
    bv_omega
  simp only [crtAddr] at hlo hhi ⊢
  rw [hlo, hhi]
  by_cases hlt : i < 25 * 80 - 80
  · have ha : s.crtBuf + BitVec.ofNat 32 (2 * 80) +
        (s.crtBuf + BitVec.ofNat 32 (2 * i) - (s.crtBuf + BitVec.ofNat 32 (2 * 0))) =
        s.crtBuf + BitVec.ofNat 32 (2 * (i + 80)) := by
      bv_omega
    have hb : s.crtBuf + BitVec.ofNat 32 (2 * 80) +
        (s.crtBuf + BitVec.ofNat 32 (2 * i) + 1 - (s.crtBuf + BitVec.ofNat 32 (2 * 0))) =
        s.crtBuf + BitVec.ofNat 32 (2 * (i + 80)) + 1 := by
      bv_omega
    rw [if_pos (by omega), if_pos (by omega), if_pos hlt, ha, hb]
  · rw [if_neg (by omega), if_neg (by omega), if_neg hlt]

theorem cell_foldl_crtStore {js : List ℕ} (hi : i ≤ crtSize) (hjs : ∀ j ∈ js, j ≤ crtSize) :
    (js.foldl (fun s i => s.crtStore i v) s).cell i = if i ∈ js then v else s.cell i := by
  induction js generalizing s with
  | nil => simp
  | cons j js ih =>
    have hj : j ≤ crtSize := hjs j (by simp)
    rw [List.foldl_cons, ih fun k hk => hjs k (by simp [hk]), cell_crtStore hi hj]
    by_cases hmem : i ∈ js
    · simp [hmem]
    · simp [hmem]

/-- The rows that a scroll clears. -/
theorem mem_lastRow : i ∈ List.range' (crtSize - crtCols) crtCols ↔
    crtSize - crtCols ≤ i ∧ i < crtSize := by
  simp only [List.mem_range'_1, crtSize, crtRows, crtCols]

theorem cell_crtFill (hi : i < crtSize) :
    (s.crtFill v).cell i = if crtSize - crtCols ≤ i then v else s.cell i := by
  rw [crtFill, cell_foldl_crtStore (Nat.le_of_lt hi) fun j hj => (mem_lastRow.mp hj).2.le]
  simp only [mem_lastRow, hi, and_true]

@[simp] theorem crtMove_crtPos : s.crtMove.crtPos = s.crtPos := rfl

@[simp] theorem crtFill_crtPos : (s.crtFill v).crtPos = s.crtPos := by
  unfold crtFill
  induction List.range' (crtSize - crtCols) crtCols generalizing s with
  | nil => rfl
  | cons j js ih => rw [List.foldl_cons, ih, crtStore_crtPos]

/-! ### Where stores go -/

/-- From `s` to `u` the memory was stored to inside the screen only. -/
def OnScreen (s u : Console) : Prop :=
  u.crtBuf = s.crtBuf ∧ ∃ new, u.mem.stores = s.mem.stores ++ new ∧
    ∀ a ∈ new, (a - s.crtBuf).toNat < 2 * crtSize

theorem OnScreen.refl (s : Console) : OnScreen s s := ⟨rfl, [], by simp⟩

theorem OnScreen.trans {w : Console} (h : OnScreen s u) (h' : OnScreen u w) : OnScreen s w := by
  obtain ⟨hb, new, hnew, hin⟩ := h
  obtain ⟨hb', new', hnew', hin'⟩ := h'
  refine ⟨hb'.trans hb, new ++ new', by rw [hnew', hnew, List.append_assoc], ?_⟩
  intro a ha
  rcases List.mem_append.mp ha with ha | ha
  · exact hin a ha
  · rw [← hb]
    exact hin' a ha

theorem OnScreen.setPos (h : OnScreen s u) (p : BitVec 16) : OnScreen s (u.setPos p) := h

theorem OnScreen.cgaCursor (h : OnScreen s u) : OnScreen s (cgaCursor u) := h

theorem onScreen_crtStore (hi : i < crtSize) : OnScreen s (s.crtStore i v) := by
  obtain ⟨new, hnew, hin⟩ := Memory.stores_storeBytes s.mem (s.crtAddr i)
    [v.setWidth 8, (v >>> 8).setWidth 8]
  refine ⟨rfl, new, hnew, ?_⟩
  intro a ha
  obtain ⟨k, hk, rfl⟩ := hin a ha
  simp only [List.length_cons, List.length_nil, crtSize, crtRows, crtCols, crtAddr] at hi hk ⊢
  bv_omega

theorem onScreen_crtMove : OnScreen s s.crtMove := by
  have hbuf := s.crtBuf_toNat_le
  simp only [crtSize, crtRows, crtCols] at hbuf
  have hle : s.crtAddr 0 ≤ s.crtAddr 80 := by
    simp only [crtAddr]
    bv_omega
  obtain ⟨new, hnew, hin⟩ := stores_memmove_down (m := s.mem)
    (n := BitVec.ofNat 32 ((25 * 80 - 80) * 2)) hle
  refine ⟨rfl, new, hnew, ?_⟩
  intro a ha
  have := hin a ha
  simp only [crtAddr] at this
  simp only [crtSize, crtRows, crtCols]
  bv_omega

theorem onScreen_foldl_crtStore {js : List ℕ} (hjs : ∀ j ∈ js, j < crtSize) :
    OnScreen s (js.foldl (fun s i => s.crtStore i v) s) := by
  induction js generalizing s with
  | nil => exact .refl s
  | cons j js ih =>
    exact (onScreen_crtStore (hjs j (by simp))).trans (ih fun k hk => hjs k (by simp [hk]))

theorem onScreen_crtFill : OnScreen s (s.crtFill v) :=
  onScreen_foldl_crtStore fun _ hi => (mem_lastRow.mp hi).2

end Console

/-! ### The attribute and the character of an `int` -/

theorem and_not_low (c : BitVec 32) : c &&& ~~~0xFF#32 = c >>> 8 <<< 8 := by
  rw [BitVec.shiftLeft_ushiftRight]
  rfl

theorem and_not_low_eq_zero : c &&& ~~~0xFF#32 = 0 ↔ c.toNat < 256 := by
  rw [and_not_low, ← BitVec.toNat_inj]
  have := c.isLt
  simp [BitVec.toNat_shiftLeft, BitVec.toNat_ushiftRight, Nat.shiftLeft_eq,
    Nat.shiftRight_eq_div_pow]
  omega

theorem and_low (c : BitVec 32) : c &&& 0xFF#32 = (c.setWidth 8).setWidth 32 := by
  apply BitVec.eq_of_toNat_eq
  have h := Nat.and_two_pow_sub_one_eq_mod c.toNat 8
  simp at h ⊢
  omega

theorem setWidth_cgaAttr : (cgaAttr c).setWidth 8 = c.setWidth 8 := by
  unfold cgaAttr
  split
  · rw [BitVec.setWidth_or]
    simp
  · rfl

/-- The `switch` looks at the low byte of its argument, whatever the attribute. -/
theorem cgaAttr_low_iff (ch : Char) (hch : ch.toNat < 256) :
    cgaAttr c &&& 0xFF = chr ch ↔ c.setWidth 8 = chr ch := by
  have hw : (chr ch : BitVec 32) = (chr ch : BitVec 8).setWidth 32 := by
    simp only [chr, BitVec.setWidth_ofNat_of_le_of_lt (show 8 ≤ 32 by decide) hch]
  have hlow : cgaAttr c &&& 0xFF = ((cgaAttr c).setWidth 8).setWidth 32 := and_low _
  rw [← setWidth_cgaAttr, hlow, hw]
  constructor
  · intro h
    simpa using congrArg (BitVec.setWidth 8) h
  · intro h
    rw [h]

theorem or_attr (b : BitVec 8) : (b.setWidth 32 ||| 0x0700#32).setWidth 16 = 0x07#8 ++ b := by
  revert b
  decide

theorem setWidth_cgaAttr_eq_glyph : (cgaAttr c).setWidth 16 = Terminal.glyph c := by
  unfold cgaAttr Terminal.glyph
  by_cases h : c.toNat < 256
  · have hc : c = (c.setWidth 8).setWidth 32 := by bv_omega
    rw [if_pos (and_not_low_eq_zero.mpr h), if_pos h, ← or_attr, ← hc]
    rfl
  · rw [if_neg (fun he => h (and_not_low_eq_zero.mp he)), if_neg h]

theorem blank_attr (g : BitVec 16) :
    (g &&& 0xFF00#16) ||| 0x20#16 = (g >>> 8).setWidth 8 ++ 0x20#8 := by
  apply BitVec.eq_of_getLsbD_eq
  intro i hi
  rw [BitVec.getLsbD_append]
  interval_cases i <;> simp

theorem setWidth_blank_eq_blankOf :
    ((cgaAttr c &&& ~~~0xFF#32) ||| chr ' ').setWidth 16 = Terminal.blankOf c := by
  rw [BitVec.setWidth_or, BitVec.setWidth_and, setWidth_cgaAttr_eq_glyph]
  exact blank_attr _

/-! ### The simulation -/

/-- The screen shows the window of the terminal, the cursor perhaps just below it. -/
structure Window (s : Console) (t : Terminal) : Prop where
  top_le : crtCols * t.top ≤ t.cursor
  cursor_le : t.cursor ≤ crtCols * t.top + crtSize
  pos : s.crtPos.toNat = t.cursor - crtCols * t.top
  cells : ∀ j < crtSize, s.cell j = t.cells (crtCols * t.top + j)
  unseen : ∀ k, crtCols * t.top + crtSize ≤ k → t.cells k = blankCell

/-- Between two characters the cursor is inside the window. -/
structure Shows (s : Console) (t : Terminal) : Prop extends Window s t where
  cursor_lt : t.cursor < crtCols * t.top + crtSize

theorem Shows.pos_lt (h : Shows s t) : s.crtPos.toNat < crtSize := by
  have := h.pos
  have := h.cursor_lt
  have := h.top_le
  omega

theorem Window.congr (h : Window s t) (hm : u.mem = s.mem) (hb : u.crtBuf = s.crtBuf)
    (hp : u.crtPos = s.crtPos) : Window u t where
  top_le := h.top_le
  cursor_le := h.cursor_le
  pos := by rw [hp, h.pos]
  cells j hj := by rw [Console.cell_congr hm hb, h.cells j hj]
  unseen := h.unseen

theorem Shows.congr (h : Shows s t) (hm : u.mem = s.mem) (hb : u.crtBuf = s.crtBuf)
    (hp : u.crtPos = s.crtPos) : Shows u t where
  toWindow := h.toWindow.congr hm hb hp
  cursor_lt := h.cursor_lt

/-- A store at a visible cell is the same update of the terminal. -/
theorem cell_update (h : ∀ j < crtSize, s.cell j = t.cells (crtCols * t.top + j)) {k : ℕ}
    (hk : crtCols * t.top ≤ k) (hk' : k < crtCols * t.top + crtSize) (hj : j < crtSize) :
    (s.crtStore (k - crtCols * t.top) v).cell j =
      Function.update t.cells k v (crtCols * t.top + j) := by
  rw [Console.cell_crtStore (by omega) (by omega), Function.update_apply, h j hj]
  by_cases hjk : j = k - crtCols * t.top
  · rw [if_pos hjk, if_pos (by omega)]
  · rw [if_neg hjk, if_neg (by omega)]

theorem update_unseen (h : ∀ k, crtCols * t.top + crtSize ≤ k → t.cells k = blankCell) {k : ℕ}
    (hk : k < crtCols * t.top + crtSize) :
    ∀ j, crtCols * t.top + crtSize ≤ j → Function.update t.cells k v j = blankCell := by
  intro j hj
  rw [Function.update_of_ne (by omega), h j hj]

theorem Shows.window_char (h : Shows s t) :
    Window (cgaChar c s) (t.put (c.setWidth 16)) ∧ Console.OnScreen s (cgaChar c s) := by
  have hlt := h.pos_lt
  have hpos := h.pos
  have htop := h.top_le
  have hcur := h.cursor_lt
  unfold cgaChar
  refine ⟨⟨?_, ?_, ?_, ?_, update_unseen h.unseen hcur⟩, ?_⟩
  · change crtCols * t.top ≤ t.cursor + 1
    omega
  · change t.cursor + 1 ≤ crtCols * t.top + crtSize
    omega
  · change (s.crtPos + 1).toNat = t.cursor + 1 - crtCols * t.top
    simp only [crtSize, crtRows, crtCols] at *
    bv_omega
  · intro j hj
    rw [Console.cell_setPos, hpos]
    exact cell_update h.cells htop hcur hj
  · exact (Console.onScreen_crtStore hlt).setPos _

/-- The cursor column is the same on the screen and in the terminal. -/
theorem toNat_sub_mod_cols {p : BitVec 16} {k n : ℕ} (hp : p.toNat = k - crtCols * n)
    (hk : crtCols * n ≤ k) :
    (p - p % BitVec.ofNat 16 crtCols).toNat = crtCols * (k / crtCols) - crtCols * n := by
  simp only [crtCols] at *
  have hmod : (p % BitVec.ofNat 16 80).toNat = p.toNat % 80 := by simp
  have hle : p.toNat % 80 ≤ p.toNat := Nat.mod_le _ _
  rw [BitVec.toNat_sub_of_le (by bv_omega), hmod]
  omega

theorem Shows.shows_return (h : Shows s t) : Shows (cgaReturn s) t.carriageReturn := by
  have htop := h.top_le
  have hcur := h.cursor_lt
  refine ⟨⟨?_, ?_, toNat_sub_mod_cols h.pos htop, ?_, h.unseen⟩, ?_⟩
  · change crtCols * t.top ≤ crtCols * (t.cursor / crtCols)
    simp only [crtCols] at *
    omega
  · change crtCols * (t.cursor / crtCols) ≤ crtCols * t.top + crtSize
    simp only [crtSize, crtRows, crtCols] at *
    omega
  · intro j hj
    rw [cgaReturn, Console.cell_setPos]
    exact h.cells j hj
  · change crtCols * (t.cursor / crtCols) < crtCols * t.top + crtSize
    simp only [crtSize, crtRows, crtCols] at *
    omega

theorem Shows.window_newline (h : Shows s t) : Window (cgaNewline s) t.newline := by
  have hlt := h.pos_lt
  have hpos := h.pos
  have htop := h.top_le
  have hcur := h.cursor_lt
  refine ⟨?_, ?_, ?_, ?_, h.unseen⟩
  · change crtCols * t.top ≤ crtCols * (t.cursor / crtCols + 1)
    simp only [crtCols] at *
    omega
  · change crtCols * (t.cursor / crtCols + 1) ≤ crtCols * t.top + crtSize
    simp only [crtSize, crtRows, crtCols] at *
    omega
  · have hp : (s.crtPos + BitVec.ofNat 16 crtCols).toNat =
        t.cursor + crtCols - crtCols * t.top := by
      simp only [crtSize, crtRows, crtCols] at *
      bv_omega
    have hnl := toNat_sub_mod_cols hp (by omega)
    rw [Nat.add_div_right _ (by decide)] at hnl
    exact hnl
  · intro j hj
    rw [cgaNewline, cgaReturn, Console.cell_setPos, Console.cell_setPos]
    exact h.cells j hj

theorem Shows.shows_backspace (h : Shows s t) :
    Shows (cgaBackspace (cgaAttr c) s) (t.backspace (Terminal.blankOf c)) ∧
      Console.OnScreen s (cgaBackspace (cgaAttr c) s) := by
  have hlt := h.pos_lt
  have hpos := h.pos
  have htop := h.top_le
  have hcur := h.cursor_lt
  unfold cgaBackspace Terminal.backspace
  by_cases h0 : t.cursor = crtCols * t.top
  · rw [if_neg (by bv_omega), if_pos h0]
    exact ⟨h, .refl s⟩
  · rw [if_pos (by bv_omega), if_neg h0, setWidth_blank_eq_blankOf]
    have hdec : (s.crtPos - 1).toNat = t.cursor - 1 - crtCols * t.top := by bv_omega
    simp only [Console.setPos_crtPos, hdec]
    refine ⟨⟨⟨?_, ?_, hdec, ?_, update_unseen h.unseen (by omega)⟩, ?_⟩, ?_⟩
    · change crtCols * t.top ≤ t.cursor - 1
      omega
    · change t.cursor - 1 ≤ crtCols * t.top + crtSize
      omega
    · intro j hj
      refine cell_update (s := s.setPos (s.crtPos - 1)) ?_ (by omega) (by omega) hj
      intro k hk
      rw [Console.cell_setPos, h.cells k hk]
    · change t.cursor - 1 < crtCols * t.top + crtSize
      omega
    · have hin : t.cursor - 1 - crtCols * t.top < crtSize := by omega
      exact (Console.onScreen_crtStore (s := s.setPos (s.crtPos - 1)) hin)

/-- When the cursor has left the screen it stands on the first cell below it. -/
theorem Window.scroll_cursor (h : Window s t) (hlow : crtCols * (t.top + crtRows) ≤ t.cursor) :
    s.crtPos.toNat = crtSize ∧ t.cursor = crtCols * t.top + crtSize := by
  have hpos := h.pos
  have hcur := h.cursor_le
  rw [Nat.mul_add] at hlow
  simp only [crtSize, crtRows, crtCols] at *
  omega

/-- The rows move up, and the row that comes into sight was never shown. -/
theorem Window.cell_scroll (h : Window s t) (hj : j < crtSize) :
    (s.crtMove.crtFill (0x0700 ||| chr ' ')).cell j = t.cells (crtCols * (t.top + 1) + j) := by
  rw [Console.cell_crtFill hj, Console.cell_crtMove hj]
  by_cases hj' : j < crtSize - crtCols
  · have hk : j + crtCols < crtSize := by omega
    have hidx : crtCols * t.top + (j + crtCols) = crtCols * (t.top + 1) + j := by
      rw [Nat.mul_succ]
      omega
    rw [if_neg (by omega), if_pos hj', h.cells _ hk, hidx]
  · rw [if_pos (by omega), h.unseen _ (by rw [Nat.mul_succ]; omega)]
    rfl

theorem Window.shows_scroll (h : Window s t) :
    Shows (cgaScroll s) t.scroll ∧ Console.OnScreen s (cgaScroll s) := by
  have hpos := h.pos
  have htop := h.top_le
  have hcur := h.cursor_le
  unfold cgaScroll Terminal.scroll
  by_cases hlow : crtCols * (t.top + crtRows) ≤ t.cursor
  · obtain ⟨hend, hcursor⟩ := h.scroll_cursor hlow
    have hon : Console.OnScreen s (s.crtMove.crtFill (0x0700 ||| chr ' ')) :=
      Console.onScreen_crtMove.trans Console.onScreen_crtFill
    have hcrt : (s.crtMove.crtFill (0x0700 ||| chr ' ')).crtPos = s.crtPos := by simp
    have hcell := fun j hj => h.cell_scroll (j := j) hj
    rw [if_pos hend.ge, if_pos hlow]
    generalize s.crtMove.crtFill (0x0700 ||| chr ' ') = u at hon hcrt hcell ⊢
    have hstep : crtCols * (t.top + 1) = crtCols * t.top + crtCols := Nat.mul_succ _ _
    refine ⟨⟨⟨?_, ?_, ?_, ?_, fun k hk => h.unseen k ?_⟩, ?_⟩, hon.setPos _⟩
    · change crtCols * (t.top + 1) ≤ t.cursor
      simp only [crtSize, crtRows, crtCols] at *
      omega
    · change t.cursor ≤ crtCols * (t.top + 1) + crtSize
      omega
    · change (u.crtPos - BitVec.ofNat 16 crtCols).toNat = t.cursor - crtCols * (t.top + 1)
      rw [hcrt, hstep, hcursor]
      simp only [crtSize, crtRows, crtCols] at *
      bv_omega
    · intro j hj
      exact (Console.cell_setPos _).trans (hcell j hj)
    · change crtCols * (t.top + 1) + crtSize ≤ k at hk
      omega
    · change t.cursor < crtCols * (t.top + 1) + crtSize
      simp only [crtSize, crtRows, crtCols] at *
      omega
  · rw [Nat.mul_add] at hlow
    have hlt : t.cursor < crtCols * t.top + crtSize := by
      simp only [crtSize, crtRows, crtCols] at *
      omega
    rw [if_neg (by omega), if_neg (by rw [Nat.mul_add]; exact hlow)]
    exact ⟨⟨h, hlt⟩, .refl s⟩

theorem Shows.cgaCursor (h : Shows s t) : Shows (cgaCursor s) t :=
  h.congr (u := Jos.cgaCursor s) rfl rfl rfl

/-- The tail of `cga_putc`, after the `switch`. -/
theorem Window.finish (h : Window s t) :
    Shows (Jos.cgaCursor (cgaScroll s)) t.scroll ∧
      Console.OnScreen s (Jos.cgaCursor (cgaScroll s)) := by
  obtain ⟨hshows, hon⟩ := h.shows_scroll
  exact ⟨hshows.cgaCursor, hon.cgaCursor⟩

/-- Scrolling does nothing while the cursor is inside the window. -/
theorem Shows.scroll_eq (h : Shows s t) : t.scroll = t := by
  have := h.cursor_lt
  unfold Terminal.scroll
  rw [if_neg]
  rw [Nat.mul_add]
  simp only [crtSize, crtRows, crtCols] at *
  omega

theorem Shows.finish (h : Shows s t) :
    Shows (Jos.cgaCursor (cgaScroll s)) t ∧
      Console.OnScreen s (Jos.cgaCursor (cgaScroll s)) := by
  have hw := h.toWindow.finish
  rwa [h.scroll_eq] at hw

/-- One call of `cga_putc` for anything but a tab. -/
theorem Shows.cgaPutc_of_ne_tab (h : Shows s t) (hc : c.setWidth 8 ≠ chr '\t') :
    Shows (cgaPutc c s) (t.type c) ∧ Console.OnScreen s (cgaPutc c s) := by
  rw [cgaPutc]
  unfold Terminal.type
  simp only [cgaAttr_low_iff '\x08' (by decide), cgaAttr_low_iff '\n' (by decide),
    cgaAttr_low_iff '\r' (by decide), cgaAttr_low_iff '\t' (by decide), if_neg hc]
  by_cases hbs : c.setWidth 8 = chr '\x08'
  · simp only [if_pos hbs]
    obtain ⟨hw, hon⟩ := h.shows_backspace (c := c)
    exact ⟨hw.finish.1, hon.trans hw.finish.2⟩
  by_cases hnl : c.setWidth 8 = chr '\n'
  · simp only [if_neg hbs, if_pos hnl]
    exact h.window_newline.finish
  by_cases hcr : c.setWidth 8 = chr '\r'
  · simp only [if_neg hbs, if_neg hnl, if_pos hcr]
    exact h.shows_return.finish
  · simp only [if_neg hbs, if_neg hnl, if_neg hcr]
    obtain ⟨hw, hon⟩ := h.window_char (c := cgaAttr c)
    rw [setWidth_cgaAttr_eq_glyph] at hw
    exact ⟨hw.finish.1, hon.trans hw.finish.2⟩

/-- The other two devices do not touch the screen. -/
theorem Shows.devices (h : Shows s t) : Shows (lptPutc c (serialPutc c s)) t :=
  h.congr (u := lptPutc c (serialPutc c s)) rfl rfl rfl

theorem type_space : t.type (chr ' ') = t.space := rfl

theorem Shows.consPutc_space (h : Shows s t) :
    Shows (consPutc (chr ' ') s) t.space ∧ Console.OnScreen s (consPutc (chr ' ') s) := by
  rw [consPutc, ← type_space]
  have hsp : (chr ' ' : BitVec 32).setWidth 8 ≠ chr '\t' := by decide
  exact (h.devices (c := chr ' ')).cgaPutc_of_ne_tab hsp

/-- The five blanks of a tab may scroll the screen in the middle of the outer call. -/
theorem Shows.cgaPutc_of_tab (h : Shows s t) (hc : c.setWidth 8 = chr '\t') :
    Shows (cgaPutc c s) (t.type c) ∧ Console.OnScreen s (cgaPutc c s) := by
  obtain ⟨h₁, on₁⟩ := h.consPutc_space
  obtain ⟨h₂, on₂⟩ := h₁.consPutc_space
  obtain ⟨h₃, on₃⟩ := h₂.consPutc_space
  obtain ⟨h₄, on₄⟩ := h₃.consPutc_space
  obtain ⟨h₅, on₅⟩ := h₄.consPutc_space
  have hon := (((on₁.trans on₂).trans on₃).trans on₄).trans on₅
  have hbs : (chr '\t' : Byte) ≠ chr '\x08' := by decide
  have hnl : (chr '\t' : Byte) ≠ chr '\n' := by decide
  have hcr : (chr '\t' : Byte) ≠ chr '\r' := by decide
  rw [cgaPutc]
  unfold Terminal.type
  simp only [cgaAttr_low_iff '\x08' (by decide), cgaAttr_low_iff '\n' (by decide),
    cgaAttr_low_iff '\r' (by decide), cgaAttr_low_iff '\t' (by decide), hc, if_neg hbs, if_neg hnl,
    if_neg hcr, if_true]
  obtain ⟨hshows, hfin⟩ := h₅.finish
  exact ⟨hshows, hon.trans hfin⟩

theorem Shows.cgaPutc (h : Shows s t) :
    Shows (cgaPutc c s) (t.type c) ∧ Console.OnScreen s (Jos.cgaPutc c s) := by
  by_cases hc : c.setWidth 8 = chr '\t'
  · exact h.cgaPutc_of_tab hc
  · exact h.cgaPutc_of_ne_tab hc

theorem Shows.cputchar (h : Shows s t) :
    Shows (Jos.cputchar c s) (t.type c) := by
  rw [Jos.cputchar, consPutc]
  exact h.devices.cgaPutc.1

theorem scroll_cursor (t : Terminal) : t.scroll.cursor = t.cursor := by
  unfold Terminal.scroll
  split <;> rfl

theorem scroll_cells (t : Terminal) : t.scroll.cells = t.cells := by
  unfold Terminal.scroll
  split <;> rfl

theorem shows_ofScreen (h : s.crtPos.toNat < crtSize) : Shows s (Terminal.ofScreen s) where
  top_le := Nat.zero_le _
  cursor_le := by simpa [Terminal.ofScreen] using h.le
  pos := by simp [Terminal.ofScreen]
  cells j hj := by simp [Terminal.ofScreen, hj]
  unseen k hk := if_neg (by simpa [Terminal.ofScreen] using hk)
  cursor_lt := by simpa [Terminal.ofScreen] using h

theorem cga_simulates : Simulates cga terminal Shows := fun _ _ _ h => h.cgaPutc.1

theorem onScreen_run (h : s.crtPos.toNat < crtSize) (cs : List (BitVec 32)) :
    Console.OnScreen s (cga.run s cs) := by
  have hinv := cga.run_invariant (I := fun u => Console.OnScreen s u ∧ ∃ t, Shows u t)
    (fun u c hu => by
      obtain ⟨hon, t, ht⟩ := hu
      exact ⟨hon.trans ht.cgaPutc.2, t.type c, ht.cgaPutc.1⟩)
    ⟨.refl s, _, shows_ofScreen h⟩ cs
  exact hinv.1

/-- Any run of `cga_putc` stays inside the screen and shows the bottom window of the terminal. -/
theorem cga_run_refines_terminal (s : Console) (h : s.crtPos.toNat < crtSize)
    (cs : List (BitVec 32)) :
    (∃ new, (cga.run s cs).mem.stores = s.mem.stores ++ new ∧
      ∀ a ∈ new, ∃ i < crtSize, a = s.crtAddr i ∨ a = s.crtAddr i + 1) ∧
    (cga.run s cs).crtPos.toNat < crtSize ∧
    crtCols * (terminal.run (.ofScreen s) cs).top ≤ (terminal.run (.ofScreen s) cs).cursor ∧
    (cga.run s cs).crtPos.toNat = (terminal.run (.ofScreen s) cs).cursor -
      crtCols * (terminal.run (.ofScreen s) cs).top ∧
    ∀ j < crtSize, (cga.run s cs).cell j =
      (terminal.run (.ofScreen s) cs).cells (crtCols * (terminal.run (.ofScreen s) cs).top + j) := by
  have hshows := cga_simulates.run (shows_ofScreen h) cs
  obtain ⟨_, new, hnew, hin⟩ := onScreen_run h cs
  refine ⟨⟨new, hnew, ?_⟩, hshows.pos_lt, hshows.top_le, hshows.pos, hshows.cells⟩
  intro a ha
  have hlt := hin a ha
  refine ⟨(a - s.crtBuf).toNat / 2, by omega, ?_⟩
  simp only [Console.crtAddr]
  rcases Nat.mod_two_eq_zero_or_one (a - s.crtBuf).toNat with hmod | hmod
  · left
    bv_omega
  · right
    bv_omega

/-- A character in the last cell scrolls the screen, and a tab follows. -/
theorem cga_run_refines_terminal_corner :
    (cga.run (.zeroed 1999) [chr 'A', chr '\t']).crtPos.toNat =
      (terminal.run (.ofScreen (.zeroed 1999)) [chr 'A', chr '\t']).cursor -
        crtCols * (terminal.run (.ofScreen (.zeroed 1999)) [chr 'A', chr '\t']).top :=
  (cga_run_refines_terminal (.zeroed 1999) (by decide) [chr 'A', chr '\t']).2.2.2.1

end Jos
