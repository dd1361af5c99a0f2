import Jos.Kern.Input

/-! The bits of the shift word, and what one byte from the keyboard does to them. -/
namespace Jos

open Prog

/-- A key, by its make code and whether an `E0` comes before it. -/
structure Key where
  escaped : Bool
  code : Byte
  make : code &&& 0x80 = 0
  /-- The break code of such a key would be the escape itself. -/
  ne_escape : code ≠ 0x60
deriving DecidableEq

inductive Modifier where
  | shift | ctl | alt
deriving DecidableEq

namespace Modifier

/-- The bit of the shift word. -/
def mask : Modifier → BitVec 32
  | shift => SHIFT
  | ctl => CTL
  | alt => ALT

def index : Modifier → ℕ
  | shift => 0
  | ctl => 1
  | alt => 2

/-- The left key and the right key. -/
def keys : Modifier → List Key
  | shift => [⟨false, 0x2A, rfl, by decide⟩, ⟨false, 0x36, rfl, by decide⟩]
  | ctl => [⟨false, 0x1D, rfl, by decide⟩, ⟨true, 0x1D, rfl, by decide⟩]
  | alt => [⟨false, 0x38, rfl, by decide⟩, ⟨true, 0x38, rfl, by decide⟩]

end Modifier

def shiftLeft : Key := ⟨false, 0x2A, rfl, by decide⟩
def shiftRight : Key := ⟨false, 0x36, rfl, by decide⟩

/-- An event of one of the keys of `m`, make or break. -/
def Modifier.has (m : Modifier) (e : Bool × Byte) : Bool :=
  m.keys.any fun k => k.escaped = e.1 ∧ k.code = e.2 &&& 0x7F

inductive Toggle where
  | caps | num | scroll
deriving DecidableEq

namespace Toggle

/-- The bit of the shift word. -/
def mask : Toggle → BitVec 32
  | caps => CAPSLOCK
  | num => NUMLOCK
  | scroll => SCROLLLOCK

def index : Toggle → ℕ
  | caps => 3
  | num => 4
  | scroll => 5

/-- The make code. -/
def code : Toggle → Byte
  | caps => 0x3A
  | num => 0x45
  | scroll => 0x46

end Toggle

variable {bytes : List Byte} {b : Byte} {shift sh c : BitVec 32} {d d' : Devices}
  {cs : List (BitVec 32)} {t : Toggle} {m : Modifier} {i : ℕ}

/-! ### The shift word after a sequence of bytes -/

/-- The shift word that the bytes leave. -/
def shiftAfter (shift : BitVec 32) (bytes : List Byte) : Res (BitVec 32) :=
  bytes.foldlM (fun shift b => do
    let (shift, _) ← kbdByte shift b
    pure shift) shift

/-- A keyboard controller that delivers all it holds has understood all bytes. -/
theorem Gives.shiftAfter (h : Gives kbdProcData d cs d')
    (hd : d.kbc = bytes.map fun b => ⟨false, b⟩) :
    shiftAfter d.shift bytes = .ok d'.shift := by
  induction bytes generalizing d cs with
  | nil =>
    have hempty := (Settles.const _).congr (kbdProcData_empty hd)
    cases h with
    | done hend =>
      obtain ⟨-, rfl⟩ := Prod.mk.inj (Except.ok.inj (hend.unique hempty))
      rfl
    | more hc hne _ =>
      obtain ⟨rfl, -⟩ := Prod.mk.inj (Except.ok.inj (hc.unique hempty))
      exact absurd rfl hne
  | cons b bytes ih =>
    obtain ⟨sh, c, hb, hlt⟩ := kbdByte_total d.shift b
    obtain ⟨con, hkey⟩ := kbdProcData_key hd hb
    cases h with
    | done hend =>
      obtain ⟨rfl, -⟩ := Prod.mk.inj (Except.ok.inj (hend.unique hkey))
      exact absurd hlt (by decide)
    | more hc _ hrest =>
      obtain ⟨-, rfl⟩ := Prod.mk.inj (Except.ok.inj (hc.unique hkey))
      have hrun := ih hrest rfl
      rw [Jos.shiftAfter, List.foldlM_cons, hb]
      exact hrun

theorem shiftAfter_singleton {b : Byte} (h : kbdByte shift b = .ok (sh, c)) :
    shiftAfter shift [b] = .ok sh := by
  rw [shiftAfter, List.foldlM_cons, h]
  rfl

/-! ### The bits of the shift word -/

theorem Modifier.index_lt (m : Modifier) : m.index < 3 := by
  cases m <;> decide

theorem Toggle.index_mem (t : Toggle) : 3 ≤ t.index ∧ t.index < 6 := by
  cases t <;> decide

theorem and_mask_iff : shift &&& m.mask ≠ 0 ↔ shift.getLsbD m.index := by
  have hmask : m.mask = BitVec.twoPow 32 m.index := by
    cases m <;> rfl
  rw [hmask]
  have := m.index_lt
  exact and_twoPow_ne_zero (by omega)

theorem Toggle.and_mask_iff : shift &&& t.mask ≠ 0 ↔ shift.getLsbD t.index := by
  have hmask : t.mask = BitVec.twoPow 32 t.index := by
    cases t <;> rfl
  rw [hmask]
  have := t.index_mem
  exact and_twoPow_ne_zero (by omega)

theorem and_escape_iff : shift &&& E0ESC ≠ 0 ↔ shift.getLsbD 6 :=
  and_twoPow_ne_zero (by decide)

/-! ### The tables -/

/-- The index into the tables: both ways of reading a byte end in it. -/
def keycode (esc : Bool) (b : Byte) : Byte := if esc then b ||| 0x80 else b &&& 0x7F

theorem getLsbD_shiftcode_byte (esc : Bool) (b : Byte) (m : Modifier) :
    (shiftcode (keycode esc b)).getLsbD m.index = m.has (esc, b) := by
  cases m <;> cases esc <;> (revert b; decide +kernel)

theorem getLsbD_togglecode_make (hmake : b &&& 0x80 = 0) (esc : Bool) (t : Toggle) :
    (togglecode (keycode esc b)).getLsbD t.index = decide ((esc, b) = (false, t.code)) := by
  cases t <;> cases esc <;> (revert b; decide +kernel)

/-- The bits of the modifiers come first, those of the toggles after them. -/
theorem tables_range (b : Byte) : (shiftcode b).toNat < 2 ^ 3 ∧ (togglecode b).toNat < 2 ^ 6 ∧
    (togglecode b).toNat % 2 ^ 3 = 0 := by
  refine ⟨?_, ?_, ?_⟩
  · unfold shiftcode
    split_ifs <;> decide
  · unfold togglecode
    split_ifs <;> decide
  · unfold togglecode
    split_ifs <;> decide

theorem getLsbD_shiftcode_high (b : Byte) (hi : 3 ≤ i) : (shiftcode b).getLsbD i = false :=
  Nat.testBit_lt_two_pow
    (Nat.lt_of_lt_of_le (tables_range b).1 (Nat.pow_le_pow_right (by decide) hi))

theorem getLsbD_togglecode_high (b : Byte) (hi : 6 ≤ i) : (togglecode b).getLsbD i = false :=
  Nat.testBit_lt_two_pow
    (Nat.lt_of_lt_of_le (tables_range b).2.1 (Nat.pow_le_pow_right (by decide) hi))

theorem getLsbD_togglecode_low (b : Byte) (hi : i < 3) : (togglecode b).getLsbD i = false := by
  have hbit := Nat.testBit_mod_two_pow (togglecode b).toNat 3 i
  rw [(tables_range b).2.2, Nat.zero_testBit, decide_eq_true hi, Bool.true_and] at hbit
  exact hbit.symm

theorem getLsbD_E0ESC (i : ℕ) : E0ESC.getLsbD i = decide (i = 6) := by
  have htwo : E0ESC = BitVec.twoPow 32 6 := rfl
  rw [htwo, BitVec.getLsbD_twoPow]
  by_cases h : i = 6
  · simp [h]
  · simp [h, Ne.symm h]

/-! ### One byte -/

/-- What a byte leaves in the shift word. -/
theorem kbdByte_cases (shift : BitVec 32) (b : Byte) : ∃ sh c, kbdByte shift b = .ok (sh, c) ∧
    (b = 0xE0 ∧ sh = shift ||| E0ESC ∨
     b ≠ 0xE0 ∧ b &&& 0x80 ≠ 0 ∧
      sh = shift &&& ~~~(shiftcode (keycode (shift.getLsbD 6) b) ||| E0ESC) ∨
     b &&& 0x80 = 0 ∧ sh = ((shift &&& ~~~E0ESC) ||| shiftcode (keycode (shift.getLsbD 6) b)) ^^^
        togglecode (keycode (shift.getLsbD 6) b)) := by
  have hmakes : ∀ b : Byte, b &&& 0x80 = 0 → b &&& 0x7F = b := by decide
  have hbreaks : ∀ b : Byte, b &&& 0x80 ≠ 0 → b ||| 0x80 = b := by decide
  have hescape : (shift &&& E0ESC ≠ 0) ↔ shift.getLsbD 6 = true := and_escape_iff
  unfold kbdByte
  by_cases hE0 : b = 0xE0
  · rw [if_pos hE0]
    exact ⟨_, _, rfl, .inl ⟨hE0, rfl⟩⟩
  rw [if_neg hE0]
  by_cases hbreak : b &&& 0x80 ≠ 0
  · rw [if_pos hbreak]
    refine ⟨_, _, rfl, .inr (.inl ⟨hE0, hbreak, ?_⟩)⟩
    cases hesc : shift.getLsbD 6 with
    | true => rw [if_pos (hescape.mpr hesc), keycode, if_pos rfl, hbreaks b hbreak]
    | false => rw [if_neg (by rw [hescape, hesc]; decide), keycode, if_neg (by decide)]
  rw [if_neg hbreak]
  have hmake := not_not.mp hbreak
  cases hesc : shift.getLsbD 6 with
  | true =>
    obtain ⟨c, hc, -⟩ := kbdPress_ok (shift &&& ~~~E0ESC) (b ||| 0x80)
    rw [if_pos (hescape.mpr hesc)]
    exact ⟨_, c, hc, .inr (.inr ⟨hmake, rfl⟩)⟩
  | false =>
    obtain ⟨c, hc, -⟩ := kbdPress_ok shift b
    have hclear : shift &&& ~~~E0ESC = shift := by
      apply BitVec.eq_of_getLsbD_eq
      intro i hi
      rw [BitVec.getLsbD_and, BitVec.getLsbD_not, getLsbD_E0ESC]
      by_cases h6 : i = 6
      · rw [h6, hesc]
        rfl
      · simp [h6, hi]
    have hcode : keycode false b = b := hmakes b hmake
    rw [if_neg (by rw [hescape, hesc]; decide), hclear, hcode]
    exact ⟨_, c, hc, .inr (.inr ⟨hmake, rfl⟩)⟩

/-- Each bit of the shift word `sh` after a byte, told by the byte and the word before. -/
structure AfterByte (shift : BitVec 32) (b : Byte) (sh : BitVec 32) : Prop where
  escape : sh.getLsbD 6 = decide (b = 0xE0)
  toggle : ∀ t : Toggle, sh.getLsbD t.index =
    (shift.getLsbD t.index ^^ decide ((shift.getLsbD 6, b) = (false, t.code)))
  level : ∀ m : Modifier, sh.getLsbD m.index =
    if m.has (shift.getLsbD 6, b) then decide (b &&& 0x80 = 0) else shift.getLsbD m.index
  others : ∀ i, 7 ≤ i → shift.getLsbD i = false → sh.getLsbD i = false

theorem Toggle.ne_break (hb : b &&& 0x80 ≠ 0) (esc : Bool) (t : Toggle) :
    (esc, b) ≠ (false, t.code) := by
  intro h
  have hcode : b = t.code := (Prod.mk.inj h).2
  subst hcode
  cases t <;> exact hb rfl

/-- The escape is no code of any table. -/
theorem afterByte_escape (shift : BitVec 32) : AfterByte shift 0xE0 (shift ||| E0ESC) where
  escape := by simp
  toggle t := by
    have := t.index_mem
    rw [BitVec.getLsbD_or, getLsbD_E0ESC, decide_eq_false (by omega),
      decide_eq_false (t.ne_break (by decide) _), Bool.or_false, Bool.xor_false]
  level m := by
    have := m.index_lt
    have hnone : m.has (shift.getLsbD 6, 0xE0) = false := by
      cases m <;> cases shift.getLsbD 6 <;> rfl
    rw [hnone, if_neg Bool.false_ne_true, BitVec.getLsbD_or, getLsbD_E0ESC,
      decide_eq_false (by omega), Bool.or_false]
  others i hi h := by
    rw [BitVec.getLsbD_or, getLsbD_E0ESC, h, decide_eq_false (by omega), Bool.or_false]

theorem afterByte_break (hE0 : b ≠ 0xE0) (hbreak : b &&& 0x80 ≠ 0) (shift : BitVec 32) :
    AfterByte shift b (shift &&& ~~~(shiftcode (keycode (shift.getLsbD 6) b) ||| E0ESC)) where
  escape := by
    rw [BitVec.getLsbD_and, BitVec.getLsbD_not, BitVec.getLsbD_or, getLsbD_E0ESC,
      decide_eq_false hE0]
    simp
  toggle t := by
    obtain ⟨hlo, hhi⟩ := t.index_mem
    rw [BitVec.getLsbD_and, BitVec.getLsbD_not, BitVec.getLsbD_or, getLsbD_E0ESC,
      getLsbD_shiftcode_high _ hlo, decide_eq_false (t.ne_break hbreak _),
      decide_eq_true (by omega), decide_eq_false (by omega)]
    simp
  level m := by
    have hlt := m.index_lt
    rw [BitVec.getLsbD_and, BitVec.getLsbD_not, BitVec.getLsbD_or, getLsbD_E0ESC,
      getLsbD_shiftcode_byte, decide_eq_true (by omega), decide_eq_false (by omega),
      decide_eq_false hbreak]
    cases m.has (shift.getLsbD 6, b) <;> simp
  others i hi h := by
    rw [BitVec.getLsbD_and, h, Bool.false_and]

theorem afterByte_make (hmake : b &&& 0x80 = 0) (shift : BitVec 32) :
    AfterByte shift b (((shift &&& ~~~E0ESC) ||| shiftcode (keycode (shift.getLsbD 6) b)) ^^^
      togglecode (keycode (shift.getLsbD 6) b)) where
  escape := by
    have hE0 : b ≠ 0xE0 := by
      rintro rfl
      exact absurd hmake (by decide)
    rw [BitVec.getLsbD_xor, BitVec.getLsbD_or, BitVec.getLsbD_and, BitVec.getLsbD_not,
      getLsbD_E0ESC, getLsbD_shiftcode_high _ (by decide), getLsbD_togglecode_high _ (by decide),
      decide_eq_false hE0]
    simp
  toggle t := by
    obtain ⟨hlo, hhi⟩ := t.index_mem
    rw [BitVec.getLsbD_xor, BitVec.getLsbD_or, BitVec.getLsbD_and, BitVec.getLsbD_not,
      getLsbD_E0ESC, getLsbD_shiftcode_high _ hlo, getLsbD_togglecode_make hmake,
      decide_eq_true (by omega), decide_eq_false (by omega)]
    simp
  level m := by
    have hlt := m.index_lt
    rw [BitVec.getLsbD_xor, BitVec.getLsbD_or, BitVec.getLsbD_and, BitVec.getLsbD_not,
      getLsbD_E0ESC, getLsbD_togglecode_low _ hlt, getLsbD_shiftcode_byte,
      decide_eq_true (by omega), decide_eq_false (by omega), decide_eq_true hmake]
    cases m.has (shift.getLsbD 6, b) <;> simp
  others i hi h := by
    rw [BitVec.getLsbD_xor, BitVec.getLsbD_or, BitVec.getLsbD_and, h,
      getLsbD_shiftcode_high _ (by omega), getLsbD_togglecode_high _ (by omega)]
    rfl

/-- The keyboard driver understands every byte. -/
theorem kbdByte_bits (shift : BitVec 32) (b : Byte) :
    ∃ sh c, kbdByte shift b = .ok (sh, c) ∧ AfterByte shift b sh := by
  obtain ⟨sh, c, hbyte, hsh⟩ := kbdByte_cases shift b
  refine ⟨sh, c, hbyte, ?_⟩
  rcases hsh with ⟨rfl, rfl⟩ | ⟨hE0, hbreak, rfl⟩ | ⟨hmake, rfl⟩
  · exact afterByte_escape shift
  · exact afterByte_break hE0 hbreak shift
  · exact afterByte_make hmake shift

end Jos
