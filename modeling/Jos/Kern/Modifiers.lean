import Jos.Kern.ShiftWord
import Mathlib.Data.List.Induction

/-! The keys held down, and what the shift word says about them. -/
namespace Jos

open Prog

/-- A key goes down, or repeats while it is down, or goes up. -/
structure KeyEvent where
  key : Key
  press : Bool

/-- The bytes that the keyboard sends. -/
def KeyEvent.codes (e : KeyEvent) : List Byte :=
  (if e.key.escaped then [0xE0] else []) ++ [if e.press then e.key.code else e.key.code ||| 0x80]

/-- Whether the last event of the keys in `p` was a press. -/
def lastPressed (p : Key → Bool) (es : List KeyEvent) : Bool :=
  es.foldl (fun b e => if p e.key then e.press else b) false

/-- The key is down after these events. -/
def Down (es : List KeyEvent) (k : Key) : Prop := lastPressed (· = k) es

instance (es : List KeyEvent) (k : Key) : Decidable (Down es k) :=
  inferInstanceAs (Decidable (lastPressed (· = k) es = true))

/-- Keys are released only after they were pressed. -/
def WellFormed (es : List KeyEvent) : Prop :=
  ∀ pre k post, es = pre ++ ⟨k, false⟩ :: post → Down pre k

variable {es : List KeyEvent} {e : KeyEvent} {p : Key → Bool} {shift : BitVec 32}

/-! ### The last event of some keys -/

theorem lastPressed_snoc : lastPressed p (es ++ [e]) =
    if p e.key then e.press else lastPressed p es := by
  rw [lastPressed, List.foldl_append]
  rfl

/-- The key that was pressed last is still down. -/
theorem lastPressed_down (h : lastPressed p es) : ∃ k, p k ∧ Down es k := by
  induction es using List.reverseRecOn with
  | nil => cases h
  | append_singleton es e ih =>
    rw [lastPressed_snoc] at h
    by_cases hp : p e.key
    · rw [if_pos hp] at h
      refine ⟨e.key, hp, ?_⟩
      rw [Down, lastPressed_snoc, h]
      simp
    · rw [if_neg hp] at h
      obtain ⟨k, hk, hdown⟩ := ih h
      have hne : ¬ e.key = k := by
        rintro rfl
        exact hp hk
      refine ⟨k, hk, ?_⟩
      rw [Down, lastPressed_snoc, if_neg (by simpa using hne)]
      exact hdown

/-! ### The bytes of one event -/

theorem Modifier.has_key {k : Key} {b : Byte} (hcode : b &&& 0x7F = k.code) (m : Modifier) :
    m.has (k.escaped, b) = decide (k ∈ m.keys) := by
  rw [Bool.eq_iff_iff, decide_eq_true_iff, Modifier.has, List.any_eq_true]
  constructor
  · rintro ⟨k', hmem, heq⟩
    obtain ⟨hesc, hk'⟩ := of_decide_eq_true heq
    obtain rfl : k' = k := by
      cases k
      cases k'
      simp_all
    exact hmem
  · intro hmem
    exact ⟨k, hmem, decide_eq_true ⟨rfl, hcode.symm⟩⟩

/-- The last byte of an event. -/
def KeyEvent.last (e : KeyEvent) : Byte := if e.press then e.key.code else e.key.code ||| 0x80

/-- It is no escape, and the key and the kind of the event are found in it. -/
theorem KeyEvent.last_eq (e : KeyEvent) : e.last ≠ 0xE0 ∧ e.last &&& 0x7F = e.key.code ∧
    decide (e.last &&& 0x80 = 0) = e.press := by
  obtain ⟨⟨escaped, code, hmake, hne⟩, press⟩ := e
  simp only [KeyEvent.last]
  clear escaped
  revert code press
  decide

/-- After the bytes before the last one, the flag tells whether there was an escape. -/
theorem shiftAfter_codes (h : shift.getLsbD 6 = false) (e : KeyEvent) :
    ∃ sh, shiftAfter shift e.codes = shiftAfter sh [e.last] ∧ sh.getLsbD 6 = e.key.escaped ∧
      ∀ m : Modifier, sh.getLsbD m.index = shift.getLsbD m.index := by
  cases hesc : e.key.escaped with
  | false =>
    refine ⟨shift, ?_, h, fun _ => rfl⟩
    rw [KeyEvent.codes, hesc]
    rfl
  | true =>
    obtain ⟨sh, c, hbyte, hafter⟩ := kbdByte_bits shift 0xE0
    refine ⟨sh, ?_, hafter.escape, fun m => ?_⟩
    · rw [KeyEvent.codes, hesc]
      exact congrArg (· >>= _) (congrArg (· >>= _) hbyte)
    · have hnone : m.has (false, 0xE0) = false := by cases m <;> rfl
      rw [hafter.level, h, hnone, if_neg Bool.false_ne_true]

/-- One event decides the bit of its kind and leaves the others. -/
theorem shiftAfter_event (h : shift.getLsbD 6 = false) (e : KeyEvent) :
    ∃ sh, shiftAfter shift e.codes = .ok sh ∧ sh.getLsbD 6 = false ∧
      ∀ m : Modifier, sh.getLsbD m.index =
        if e.key ∈ m.keys then e.press else shift.getLsbD m.index := by
  obtain ⟨hE0, hcode, hpress⟩ := e.last_eq
  obtain ⟨mid, hcodes, hmid6, hmid⟩ := shiftAfter_codes h e
  obtain ⟨sh, c, hbyte, hafter⟩ := kbdByte_bits mid e.last
  refine ⟨sh, hcodes.trans (shiftAfter_singleton hbyte), ?_, fun m => ?_⟩
  · rw [hafter.escape, decide_eq_false hE0]
  · rw [hafter.level, hmid6, Modifier.has_key hcode, hpress, hmid]
    simp

/-- Every bit says what the last event of its kind was. -/
theorem shiftAfter_events (es : List KeyEvent) :
    ∃ sh, shiftAfter 0 (es.flatMap KeyEvent.codes) = .ok sh ∧ sh.getLsbD 6 = false ∧
      ∀ m : Modifier, sh.getLsbD m.index = lastPressed (· ∈ m.keys) es := by
  induction es using List.reverseRecOn with
  | nil => exact ⟨0, rfl, rfl, fun m => by cases m <;> rfl⟩
  | append_singleton es e ih =>
    obtain ⟨sh, hsh, h6, hbits⟩ := ih
    obtain ⟨sh', hsh', h6', hbits'⟩ := shiftAfter_event h6 e
    refine ⟨sh', ?_, h6', ?_⟩
    · rw [List.flatMap_append, List.flatMap_singleton, shiftAfter, List.foldlM_append]
      exact (congrArg (· >>= _) hsh).trans hsh'
    · intro m
      rw [hbits', lastPressed_snoc, hbits]
      simp

/-! ### Keys held down -/

/-- The bits are set exactly when a key of their kind is down. -/
def Held (shift : BitVec 32) (es : List KeyEvent) : Prop :=
  ∀ m : Modifier, shift &&& m.mask ≠ 0 ↔ ∃ k ∈ m.keys, Down es k

/-- While a modifier key is down, the last event of its kind is a press. -/
def PressedLast (es : List KeyEvent) : Prop :=
  ∀ m : Modifier, ∀ k ∈ m.keys, Down es k → lastPressed (· ∈ m.keys) es

theorem held_iff (hbits : ∀ m : Modifier, shift.getLsbD m.index = lastPressed (· ∈ m.keys) es) :
    Held shift es ↔ PressedLast es := by
  constructor
  · intro h m k hk hdown
    rw [← hbits, ← and_mask_iff]
    exact (h m).mpr ⟨k, hk, hdown⟩
  · intro h m
    rw [and_mask_iff, hbits]
    constructor
    · intro hlast
      obtain ⟨k, hk, hdown⟩ := lastPressed_down hlast
      exact ⟨k, by simpa using hk, hdown⟩
    · rintro ⟨k, hk, hdown⟩
      exact h m k hk hdown

/-- The shift word that the keyboard driver is left with tells which modifiers are held down
exactly when no key has been released while the other key of its kind was down, unless that
key was pressed again. -/
theorem modifiers_held_iff (es : List KeyEvent) (d d' : Devices) (cs : List (BitVec 32))
    (hshift : d.shift = 0) (hkbc : d.kbc = (es.flatMap KeyEvent.codes).map fun b => ⟨false, b⟩)
    (hg : Gives kbdProcData d cs d') : Held d'.shift es ↔ PressedLast es := by
  obtain ⟨sh, hsh, -, hbits⟩ := shiftAfter_events es
  have hafter := hg.shiftAfter hkbc
  rw [hshift] at hafter
  obtain rfl := Except.ok.inj (hafter.symm.trans hsh)
  exact held_iff hbits

/-- A keyboard controller that holds what the keyboard has sent. -/
def typed (es : List KeyEvent) : Devices where
  uart := []
  serialExists := true
  kbc := (es.flatMap KeyEvent.codes).map fun b => ⟨false, b⟩
  shift := 0
  console := .zeroed 0

/-- One key of a pair is pressed, and the other one after it. -/
theorem modifiers_held_iff_pair : ∃ cs d',
    Gives kbdProcData (typed [⟨shiftLeft, true⟩, ⟨shiftRight, true⟩]) cs d' ∧
      (Held d'.shift [⟨shiftLeft, true⟩, ⟨shiftRight, true⟩] ↔
        PressedLast [⟨shiftLeft, true⟩, ⟨shiftRight, true⟩]) := by
  obtain ⟨cs, d', hg⟩ := kbd_gives (typed [⟨shiftLeft, true⟩, ⟨shiftRight, true⟩])
  exact ⟨cs, d', hg, modifiers_held_iff _ _ d' cs rfl rfl hg⟩

/-- Both keys of a pair are pressed and one of them is released. -/
theorem release_clears_modifier : ¬ ∀ es, WellFormed es → ∀ d d' cs, d.shift = 0 →
    d.kbc = (es.flatMap KeyEvent.codes).map (fun b => ⟨false, b⟩) →
    Gives kbdProcData d cs d' → Held d'.shift es := by
  intro h
  let es : List KeyEvent := [⟨shiftLeft, true⟩, ⟨shiftRight, true⟩, ⟨shiftLeft, false⟩]
  have hwf : WellFormed es := by
    intro pre k post heq
    rcases pre with _ | ⟨a, _ | ⟨b, _ | ⟨c, pre⟩⟩⟩
    · simp [es] at heq
    · simp [es] at heq
    · obtain ⟨rfl, rfl, rfl, -⟩ : _ ∧ _ ∧ _ ∧ _ := by simpa [es] using heq
      decide
    · simp [es] at heq
  obtain ⟨cs, d', hg⟩ := kbd_gives (typed es)
  have hheld := h es hwf _ d' cs rfl rfl hg
  obtain ⟨sh, hsh, -, hbits⟩ := shiftAfter_events es
  obtain rfl := Except.ok.inj ((hg.shiftAfter rfl).symm.trans hsh)
  have hlast := (held_iff hbits).mp hheld .shift shiftRight (by decide)
    (by decide)
  exact absurd hlast (by decide)

end Jos
