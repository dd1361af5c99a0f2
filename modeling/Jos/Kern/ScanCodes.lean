import Jos.Kern.Modifiers

/-! The shift word after any bytes from the keyboard, told by these bytes alone. -/
namespace Jos

open Prog

/-- Each byte, with whether an `E0` comes directly before it. -/
def escapesFrom (escaped : Bool) : List Byte → List (Bool × Byte)
  | [] => []
  | b :: bytes => (escaped, b) :: escapesFrom (b = 0xE0) bytes

def escapes (bytes : List Byte) : List (Bool × Byte) := escapesFrom false bytes

/-- The shift word says what the bytes were. -/
structure ScanState (bytes : List Byte) (shift : BitVec 32) : Prop where
  escape : shift &&& E0ESC ≠ 0 ↔ bytes.getLast? = some 0xE0
  toggle : ∀ t : Toggle, shift &&& t.mask ≠ 0 ↔ (escapes bytes).count (false, t.code) % 2 = 1
  level : ∀ m : Modifier, shift &&& m.mask ≠ 0 ↔
    ∃ e, ((escapes bytes).filter m.has).getLast? = some e ∧ e.2 &&& 0x80 = 0
  others : ∀ i, 7 ≤ i → shift.getLsbD i = false

variable {bytes : List Byte} {b : Byte} {shift : BitVec 32} {esc : Bool}

/-! ### Bytes and what comes before them -/

theorem escapesFrom_snoc : escapesFrom esc (bytes ++ [b]) = escapesFrom esc bytes ++
    [((bytes.getLast?.map fun a => decide (a = 0xE0)).getD esc, b)] := by
  induction bytes generalizing esc with
  | nil => rfl
  | cons a bytes ih =>
    rw [List.cons_append, escapesFrom, ih, escapesFrom, List.cons_append]
    rcases bytes with _ | ⟨a', bytes⟩
    · rfl
    · rw [List.getLast?_cons_cons, List.getLast?_cons]
      rfl

theorem escapes_snoc : escapes (bytes ++ [b]) =
    escapes bytes ++ [(decide (bytes.getLast? = some 0xE0), b)] := by
  rw [escapes, escapesFrom_snoc]
  cases bytes.getLast? with
  | none => rfl
  | some a => simp [escapes]

/-! ### All bytes -/

theorem scanState_nil : ScanState [] 0 where
  escape := by decide
  toggle t := by cases t <;> decide
  level m := by
    constructor
    · intro h
      exact absurd (BitVec.zero_and ..) h
    · rintro ⟨e, he, -⟩
      cases he
  others i _ := BitVec.getLsbD_zero

/-- The state after one more byte. -/
theorem ScanState.step (h : ScanState bytes shift) (b : Byte) :
    ∃ sh c, kbdByte shift b = .ok (sh, c) ∧ ScanState (bytes ++ [b]) sh := by
  obtain ⟨sh, c, hbyte, h6, htoggle, hlevel, hothers⟩ := kbdByte_bits shift b
  have hesc : shift.getLsbD 6 = decide (bytes.getLast? = some 0xE0) := by
    rw [Bool.eq_iff_iff, ← and_escape_iff, decide_eq_true_iff]
    exact h.escape
  refine ⟨sh, c, hbyte, ?_, fun t => ?_, fun m => ?_, fun i hi => hothers i hi (h.others i hi)⟩
  · rw [and_escape_iff, h6, List.getLast?_concat]
    simp
  · have hbit : shift.getLsbD t.index =
        decide ((escapes bytes).count (false, t.code) % 2 = 1) := by
      rw [Bool.eq_iff_iff, ← Toggle.and_mask_iff, decide_eq_true_iff]
      exact h.toggle t
    rw [Toggle.and_mask_iff, htoggle, hbit, hesc, escapes_snoc, List.count_append,
      List.count_singleton]
    by_cases heq : (decide (bytes.getLast? = some 0xE0), b) = (false, t.code)
    · rw [decide_eq_true heq, if_pos (by simpa using heq)]
      by_cases hodd : (escapes bytes).count (false, t.code) % 2 = 1
      · simp [hodd]
        omega
      · simp [hodd]
        omega
    · rw [decide_eq_false heq, if_neg (by simpa using heq)]
      simp
  · rw [and_mask_iff, hlevel, hesc, escapes_snoc, List.filter_append]
    by_cases hhas : m.has (decide (bytes.getLast? = some 0xE0), b)
    · rw [if_pos hhas, List.filter_cons_of_pos hhas, List.filter_nil, List.getLast?_concat]
      simp
    · rw [if_neg hhas, List.filter_cons_of_neg hhas, List.filter_nil, List.append_nil,
        ← and_mask_iff]
      exact h.level m

theorem shiftAfter_scanState (bytes : List Byte) :
    ∃ sh, shiftAfter 0 bytes = .ok sh ∧ ScanState bytes sh := by
  induction bytes using List.reverseRecOn with
  | nil => exact ⟨0, rfl, scanState_nil⟩
  | append_singleton bytes b ih =>
    obtain ⟨shift, hshift, hstate⟩ := ih
    obtain ⟨sh, c, hbyte, hnext⟩ := hstate.step b
    refine ⟨sh, ?_, hnext⟩
    rw [shiftAfter, List.foldlM_append]
    exact (congrArg (· >>= _) hshift).trans (shiftAfter_singleton hbyte)

/-- The keyboard controller when it has received `bytes`, before any of them is read. -/
def Devices.received (d : Devices) (bytes : List Byte) : Devices :=
  { d with kbc := bytes.map fun b => ⟨false, b⟩, shift := 0 }

/-- The keyboard driver understands every sequence of bytes, and the shift word that it is left
with is told by the bytes. -/
theorem scan_codes (d : Devices) (bytes : List Byte) :
    (∃ cs d', Gives kbdProcData (d.received bytes) cs d') ∧
      ∀ cs d', Gives kbdProcData (d.received bytes) cs d' → ScanState bytes d'.shift := by
  refine ⟨kbd_gives _, fun cs d' hg => ?_⟩
  obtain ⟨sh, hsh, hstate⟩ := shiftAfter_scanState bytes
  obtain rfl := Except.ok.inj ((hg.shiftAfter rfl).symm.trans hsh)
  exact hstate

/-- An escaped release of the right control key, and then the caps lock. -/
theorem scan_codes_release : ∃ cs d',
    Gives kbdProcData ((typed []).received [0x1D, 0xE0, 0x9D, 0x3A]) cs d' ∧
      ScanState [0x1D, 0xE0, 0x9D, 0x3A] d'.shift := by
  obtain ⟨⟨cs, d', hg⟩, hstate⟩ := scan_codes (typed []) [0x1D, 0xE0, 0x9D, 0x3A]
  exact ⟨cs, d', hg, hstate cs d' hg⟩

end Jos
