import Jos.Kern.Session
import Jos.Kern.ShiftWord

/-!
What comes of typing on a keyboard with the usual layout: the characters of the keys that are
pressed, as the shift keys and the caps lock stand, in the order in which they are pressed.
-/
namespace Jos

open Prog

/-! ### The keyboard -/

/-- What is printed on a key: its make code, and its characters without and with a shift key. -/
structure KeyCap where
  code : Byte
  plain : Byte
  shifted : Byte
deriving DecidableEq

/-- Neighbouring keys, from the code of the first one. -/
def keyRow (first : Byte) (plain shifted : List Byte) : List KeyCap :=
  (plain.zip shifted).mapIdx fun i (p, s) => ⟨first + BitVec.ofNat 8 i, p, s⟩

def layout : List KeyCap :=
  keyRow 0x02 (lit "1234567890-=\x08\t") (lit "!@#$%^&*()_+\x08\t") ++
  keyRow 0x10 (lit "qwertyuiop[]\n") (lit "QWERTYUIOP\x7b\x7d\n") ++
  keyRow 0x1E (lit "asdfghjkl;" ++ [0x27, 0x60]) (lit "ASDFGHJKL:" ++ [0x22, 0x7E]) ++
  keyRow 0x2B (lit "\\zxcvbnm,./") (lit "|ZXCVBNM<>?") ++
  [⟨0x39, chr ' ', chr ' '⟩]

/-- How the shift keys and the caps lock stand; of two shift keys, the last event counts. -/
structure Board where
  shift : Bool
  caps : Bool
deriving DecidableEq

def isLetter (b : Byte) : Bool := chr 'a' ≤ b ∧ b ≤ chr 'z'

/-- The caps lock reverses the shift keys on letters. -/
def KeyCap.char (k : KeyCap) (b : Board) : Byte :=
  if b.shift ^^ (b.caps && isLetter k.plain) then k.shifted else k.plain

/-- A key of the layout, a shift key or the caps lock is pressed or released. -/
inductive Stroke where
  | press (k : { k // k ∈ layout })
  | release (k : { k // k ∈ layout })
  | shift (right down : Bool)
  | caps (down : Bool)

def Stroke.code : Stroke → Byte
  | .press k => k.1.code
  | .release k => k.1.code ||| 0x80
  | .shift right down => (if right then 0x36 else 0x2A) ||| (if down then 0 else 0x80)
  | .caps down => 0x3A ||| (if down then 0 else 0x80)

namespace Board

def after (b : Board) : Stroke → Board
  | .press _ => b
  | .release _ => b
  | .shift _ down => { b with shift := down }
  | .caps down => { b with caps := b.caps ^^ down }

def output (b : Board) : Stroke → List Byte
  | .press k => [k.1.char b]
  | _ => []

/-- What is typed. -/
def spelled (b : Board) : List Stroke → List Byte
  | [] => []
  | e :: es => b.output e ++ (b.after e).spelled es

/-- How the keys stand in the end. -/
def afterAll (b : Board) (es : List Stroke) : Board := es.foldl after b

end Board

/-- The shift word as the board stands; the other locks and the alternate keys do not matter. -/
structure Reads (shift : BitVec 32) (b : Board) : Prop where
  held : shift.getLsbD 0 = b.shift
  ctl : shift.getLsbD 1 = false
  caps : shift.getLsbD 3 = b.caps
  escape : shift.getLsbD 6 = false

variable {shift sh c : BitVec 32} {b : Board} {e : Stroke} {es fs : List Stroke} {data : Byte}
  {d d' : Devices} {rest : List KbcByte} {cs : List (BitVec 32)}

theorem Board.spelled_append (b : Board) (es fs : List Stroke) :
    b.spelled (es ++ fs) = b.spelled es ++ (b.afterAll es).spelled fs := by
  induction es generalizing b with
  | nil => rfl
  | cons e es ih => simp only [List.cons_append, spelled, ih, List.append_assoc]; rfl

theorem Board.afterAll_append (b : Board) (es fs : List Stroke) :
    b.afterAll (es ++ fs) = (b.afterAll es).afterAll fs := List.foldl_append

/-! ### The tables -/

theorem layout_codes : ∀ k ∈ layout, k.code &&& 0x80 = 0 ∧ k.code ||| 0x80 ≠ 0xE0 ∧
    Modifier.shift.has (false, k.code) = false ∧ Modifier.ctl.has (false, k.code) = false ∧
    Modifier.shift.has (false, k.code ||| 0x80) = false ∧
    Modifier.ctl.has (false, k.code ||| 0x80) = false ∧ k.code ≠ Toggle.caps.code := by
  decide +kernel

/-- What a code gives on a board: the map, with the letters swapped by the caps lock. -/
def mapped (b : Board) (data : Byte) : BitVec 32 :=
  capsSwap (if b.caps then CAPSLOCK else 0)
    (((if b.shift then shiftmap else normalmap) data).setWidth 32)

theorem layout_mapped : ∀ k ∈ layout, ∀ s c : Bool,
    mapped ⟨s, c⟩ k.code = (k.char ⟨s, c⟩).setWidth 32 ∧ k.char ⟨s, c⟩ ≠ 0 ∧
      k.char ⟨s, c⟩ ≠ KEY_DEL := by
  decide +kernel


/-! ### One byte -/

theorem getLsbD_small {n i : ℕ} (hn : n < 4) (hi : 2 ≤ i) :
    (BitVec.ofNat 32 n).getLsbD i = false := by
  have hpow : 2 ^ 2 ≤ 2 ^ i := Nat.pow_le_pow_right (show 0 < 2 by decide) hi
  rw [BitVec.getLsbD, BitVec.toNat_ofNat]
  refine Nat.testBit_lt_two_pow (Nat.lt_of_le_of_lt (Nat.mod_le n _) ?_)
  exact Nat.lt_of_lt_of_le hn hpow

/-- Without the control keys, the shift bit chooses the map. -/
theorem charcode_of_bits (hctl : shift.getLsbD 1 = false) :
    charcode (shift &&& (CTL ||| SHIFT)) =
      .ok (if shift.getLsbD 0 then shiftmap else normalmap) := by
  have hmask : shift &&& (CTL ||| SHIFT) = if shift.getLsbD 0 then 1 else 0 := by
    have hboth : CTL ||| SHIFT = BitVec.ofNat 32 3 := rfl
    rw [hboth]
    apply BitVec.eq_of_getLsbD_eq
    intro i hi
    rw [BitVec.getLsbD_and]
    rcases i with _ | _ | i
    · cases shift.getLsbD 0 <;> rfl
    · rw [hctl]
      cases shift.getLsbD 0 <;> rfl
    · rw [getLsbD_small (by decide) (by omega), Bool.and_false]
      cases shift.getLsbD 0
      · exact (getLsbD_small (n := 0) (by decide) (by omega)).symm
      · exact (getLsbD_small (n := 1) (by decide) (by omega)).symm
  rw [hmask]
  cases shift.getLsbD 0 <;> rfl

theorem capsSwap_congr (h : sh &&& CAPSLOCK ≠ 0 ↔ shift &&& CAPSLOCK ≠ 0) :
    capsSwap sh c = capsSwap shift c := by
  unfold capsSwap
  by_cases hcaps : shift &&& CAPSLOCK ≠ 0
  · rw [if_pos hcaps, if_pos (h.mpr hcaps)]
  · rw [if_neg hcaps, if_neg (mt h.mp hcaps)]

/-- A key that is pressed gives what the map for the board has. -/
theorem Reads.kbdPress (h : Reads ((shift ||| shiftcode data) ^^^ togglecode data) b) :
    kbdPress shift data =
      .ok ((shift ||| shiftcode data) ^^^ togglecode data, mapped b data) := by
  have hcaps : capsSwap ((shift ||| shiftcode data) ^^^ togglecode data) =
      capsSwap (if b.caps then CAPSLOCK else 0) := by
    funext c
    apply capsSwap_congr
    rw [show CAPSLOCK = Toggle.caps.mask from rfl, Toggle.and_mask_iff,
      show Toggle.caps.index = 3 from rfl, h.caps]
    cases b.caps <;> decide
  rw [Jos.kbdPress, charcode_of_bits h.ctl, h.held, hcaps]
  rfl

/-- The character of a byte, by the board that it leaves. -/
theorem kbdByte_char (hbyte : kbdByte shift data = .ok (sh, c)) (hesc : shift.getLsbD 6 = false)
    (hE0 : data ≠ 0xE0) (hsh : Reads sh b) :
    c = if data &&& 0x80 = 0 then mapped b data else 0 := by
  have hclear : ¬ shift &&& E0ESC ≠ 0 := by rw [and_escape_iff, hesc]; decide
  unfold kbdByte at hbyte
  rw [if_neg hE0] at hbyte
  by_cases hbreak : data &&& 0x80 ≠ 0
  · rw [if_pos hbreak] at hbyte
    rw [if_neg hbreak]
    exact (Prod.mk.inj (Except.ok.inj hbyte)).2.symm
  · rw [if_neg hbreak, if_neg hclear] at hbyte
    rw [if_pos (not_not.mp hbreak)]
    obtain ⟨c', hpress, -⟩ := kbdPress_ok shift data
    obtain ⟨rfl, rfl⟩ := Prod.mk.inj (Except.ok.inj (hpress.symm.trans hbyte))
    rw [hsh.kbdPress] at hpress
    exact (Prod.mk.inj (Except.ok.inj hpress)).2.symm

/-- What the code of a stroke does to the bits, and the character it gives. -/
structure Stroke.Means (e : Stroke) (b : Board) : Prop where
  ne_escape : e.code ≠ 0xE0
  shift : (if Modifier.shift.has (false, e.code) then decide (e.code &&& 0x80 = 0) else b.shift) =
    (b.after e).shift
  ctl : Modifier.ctl.has (false, e.code) = false
  caps : (b.caps ^^ decide ((false, e.code) = (false, Toggle.caps.code))) = (b.after e).caps
  char : ∃ k : Byte, (if e.code &&& 0x80 = 0 then mapped (b.after e) e.code else 0) =
    k.setWidth 32 ∧ k ≠ KEY_DEL ∧ b.output e = if k = 0 then [] else [k]

theorem Stroke.means (e : Stroke) (b : Board) : e.Means b := by
  have hbreak : ∀ data : Byte, ¬ (data ||| 0x80) &&& 0x80 = 0 := by decide
  have hcaps : ∀ data : Byte, data ||| 0x80 ≠ Toggle.caps.code := by decide
  obtain ⟨s, c⟩ := b
  cases e with
  | press k =>
    obtain ⟨k, hk⟩ := k
    obtain ⟨hmake, -, hshift, hctl, -, -, hne⟩ := layout_codes k hk
    obtain ⟨hchar, hzero, hdel⟩ := layout_mapped k hk s c
    refine ⟨?_, ?_, hctl, ?_, k.char ⟨s, c⟩, ?_, hdel, ?_⟩
    · rintro hE0
      change k.code = 0xE0 at hE0
      rw [hE0] at hmake
      exact absurd hmake (by decide)
    · change (if Modifier.shift.has (false, k.code) then _ else _) = _
      rw [hshift]
      rfl
    · change (c ^^ decide ((false, k.code) = (false, Toggle.caps.code))) = c
      rw [decide_eq_false fun h => hne (Prod.mk.inj h).2, Bool.xor_false]
    · exact (if_pos hmake).trans hchar
    · exact (if_neg hzero).symm
  | release k =>
    obtain ⟨k, hk⟩ := k
    obtain ⟨-, hE0, -, -, hshift, hctl, -⟩ := layout_codes k hk
    refine ⟨hE0, ?_, hctl, ?_, 0, ?_, by decide, rfl⟩
    · change (if Modifier.shift.has (false, k.code ||| 0x80) then _ else _) = _
      rw [hshift]
      rfl
    · change (c ^^ decide ((false, k.code ||| 0x80) = (false, Toggle.caps.code))) = c
      rw [decide_eq_false fun h => hcaps _ (Prod.mk.inj h).2, Bool.xor_false]
    · exact if_neg (hbreak k.code)
  | shift right down =>
    cases right <;> cases down <;> cases s <;> cases c <;>
      exact ⟨by decide, rfl, rfl, rfl, 0, by decide +kernel, by decide, rfl⟩
  | caps down =>
    cases down <;> cases s <;> cases c <;>
      exact ⟨by decide, rfl, rfl, rfl, 0, by decide +kernel, by decide, rfl⟩

/-- The driver follows the board, and never takes what is typed for Ctrl-Alt-Del. -/
theorem Reads.stroke (h : Reads shift b) (e : Stroke) :
    ∃ sh c, kbdByte shift e.code = .ok (sh, c) ∧ Reads sh (b.after e) ∧ isReboot sh c = false ∧
      c ≠ -1 ∧ delivered [c] = b.output e := by
  obtain ⟨sh, c, hbyte, hbits⟩ := kbdByte_bits shift e.code
  have hm := e.means b
  have hlevel := hbits.level
  have htoggle := hbits.toggle .caps
  rw [h.escape] at htoggle
  simp only [h.escape] at hlevel
  have hsh : Reads sh (b.after e) := by
    refine ⟨?_, ?_, ?_, ?_⟩
    · rw [← hm.shift, ← h.held]
      exact hlevel .shift
    · have hctl := hlevel .ctl
      rw [hm.ctl, if_neg Bool.false_ne_true] at hctl
      exact hctl.trans h.ctl
    · rw [← hm.caps, ← h.caps]
      exact htoggle
    · rw [hbits.escape, decide_eq_false hm.ne_escape]
  obtain ⟨k, hk, hdel, hout⟩ := hm.char
  have hc : c = k.setWidth 32 := (kbdByte_char hbyte h.escape hm.ne_escape hsh).trans hk
  refine ⟨sh, c, hbyte, hsh, ?_, ?_, ?_⟩
  · rw [isReboot, decide_eq_false]
    rintro ⟨-, hreboot⟩
    refine hdel ?_
    rw [hc] at hreboot
    bv_omega
  · rw [hc]
    exact byte_ne_neg_one k
  · rw [hout, hc]
    by_cases hzero : k = 0
    · rw [hzero, if_pos rfl]
      rfl
    · rw [if_neg hzero, delivered_cons fun h => hzero (by bv_omega),
        BitVec.setWidth_setWidth_of_le _ (by decide), BitVec.setWidth_eq]
      rfl

/-! ### What the driver delivers -/

/-- What the keyboard controller holds when these strokes have come. -/
def Stroke.byte (e : Stroke) : KbcByte := ⟨false, e.code⟩

/-- The keyboard delivers what is typed, and does nothing else. -/
theorem Gives.strokes (h : Gives kbdProcData d cs d') (hd : d.kbc = es.map Stroke.byte)
    (hr : Reads d.shift b) :
    delivered cs = b.spelled es ∧ Reads d'.shift (b.afterAll es) ∧
      d' = { d with kbc := [], shift := d'.shift } := by
  induction es generalizing d cs b with
  | nil =>
    have hempty := (Settles.const _).congr (kbdProcData_empty hd)
    cases h with
    | done hend =>
      obtain ⟨-, rfl⟩ := Prod.mk.inj (Except.ok.inj (hend.unique hempty))
      have hnil : d'.kbc = [] := hd
      exact ⟨rfl, hr, by rw [← hnil]⟩
    | more hc hne _ =>
      obtain ⟨rfl, -⟩ := Prod.mk.inj (Except.ok.inj (hc.unique hempty))
      exact absurd rfl hne
  | cons e es ih =>
    obtain ⟨sh, c, hb, hsh, hre, hne, hout⟩ := hr.stroke e
    have hkey := (Settles.const _).congr (kbdProcData_plain hd hb (by rw [hre]; decide))
    cases h with
    | done hend =>
      obtain ⟨rfl, -⟩ := Prod.mk.inj (Except.ok.inj (hend.unique hkey))
      exact absurd rfl hne
    | more hc _ hrest =>
      obtain ⟨rfl, rfl⟩ := Prod.mk.inj (Except.ok.inj (hc.unique hkey))
      obtain ⟨hds, hreads, hdev⟩ := ih hrest rfl hsh
      refine ⟨?_, hreads, hdev⟩
      rw [Board.spelled, ← hout, ← hds, delivered, delivered, delivered, ← List.map_append,
        ← List.filter_append]
      rfl

/-! ### Runs in which something is typed -/

/-- What a poll returns, as a byte. -/
def Action.poll : Action → Option Byte
  | .consGetc c => some (c.setWidth 8)
  | _ => none

def polled (as : List Action) : List Byte := as.filterMap Action.poll

/-- Of the strokes, the early ones have been delivered and the late ones wait. -/
structure Heard (d : Devices) (b : Board) (es : List Stroke) (h : History) : Prop where
  strokes : ∃ early late, es = early ++ late ∧ h.delivered = b.spelled early ∧
    Reads h.devices.shift (b.afterAll early) ∧
    h.devices = { d with kbc := late.map Stroke.byte, shift := h.devices.shift }

variable {h g : History} {a : Action} {as : List Action}

theorem heard_start (hkbc : d.kbc = []) (hr : Reads d.shift b) : Heard d b [] (.start d) where
  strokes := ⟨[], [], rfl, rfl, hr, by rw [List.map_nil, ← hkbc]; rfl⟩

/-- A keyboard interrupt delivers what waits. -/
theorem Heard.serve {t : Input} (hh : Heard d b es h) (hg : Gives kbdProcData h.devices cs d')
    (ht : t.devices = d') : Heard d b es { h.deliver (delivered cs) with input := t } := by
  obtain ⟨early, late, rfl, hdel, hr, hdev⟩ := hh.strokes
  obtain ⟨hds, hreads, hd'⟩ := hg.strokes (by rw [hdev]) hr
  refine ⟨early ++ late, [], (List.append_nil _).symm, ?_, ?_, ?_⟩
  · change h.delivered ++ delivered cs = _
    rw [hdel, hds, Board.spelled_append]
  · change Reads t.devices.shift _
    rw [ht, Board.afterAll_append]
    exact hreads
  · change t.devices = { d with kbc := _, shift := t.devices.shift }
    rw [ht]
    refine hd'.trans ?_
    rw [hdev]
    rfl

theorem Heard.idle {t : Input} (hh : Heard d b es h) (ht : t.devices = h.devices) :
    Heard d b es { h.deliver [] with input := t } := by
  obtain ⟨early, late, hes, hdel, hr, hdev⟩ := hh.strokes
  refine ⟨early, late, hes, (List.append_nil _).trans hdel, ?_, ?_⟩
  · change Reads t.devices.shift _
    rw [ht]
    exact hr
  · change t.devices = { d with kbc := _, shift := t.devices.shift }
    rw [ht]
    exact hdev

theorem Heard.read (hh : Heard d b es h) (c : BitVec 32) : Heard d b es (h.read c) := by
  unfold History.read
  split
  · exact hh
  · exact ⟨hh.strokes⟩

/-- With nothing at the serial port, serving it changes nothing. -/
theorem serialGives_quiet (hu : d.uart = []) (hg : SerialGives d cs d') : cs = [] ∧ d' = d := by
  unfold SerialGives at hg
  split at hg
  · have hempty := (Settles.const _).congr (serialProcData_empty hu)
    cases hg with
    | done hend =>
      obtain ⟨-, rfl⟩ := Prod.mk.inj (Except.ok.inj (hend.unique hempty))
      exact ⟨rfl, rfl⟩
    | more hc hne _ =>
      obtain ⟨rfl, -⟩ := Prod.mk.inj (Except.ok.inj (hc.unique hempty))
      exact absurd rfl hne
  · exact hg

theorem Heard.uart (hh : Heard d b es h) (hu : d.uart = []) : h.devices.uart = [] := by
  obtain ⟨-, late, -, -, -, hdev⟩ := hh.strokes
  rw [hdev]
  exact hu

/-- One action, as long as only strokes come. -/
theorem Heard.step (hu : d.uart = []) (hs : h.input.Sound) (hh : Heard d b es h)
    (hstep : Step h a g) (harr : a.arrival.toList = fs.map fun e => .inl e.byte) :
    Heard d b (es ++ fs) g := by
  have hnone : a.arrival = none → fs = [] := by
    intro hno
    rw [hno] at harr
    exact List.map_eq_nil_iff.mp harr.symm
  cases hstep with
  | serialByte c =>
    cases fs with
    | nil => cases harr
    | cons e fs => cases (List.cons.inj harr).1
  | kbcByte k =>
    obtain ⟨e, rfl, hk⟩ : ∃ e, fs = [e] ∧ k = e.byte := by
      cases fs with
      | nil => cases harr
      | cons e fs =>
        obtain ⟨hk, hnil⟩ := List.cons.inj harr
        exact ⟨e, by rw [List.map_eq_nil_iff.mp hnil.symm], Sum.inl.inj hk⟩
    obtain ⟨early, late, rfl, hdel, hr, hdev⟩ := hh.strokes
    refine ⟨early, late ++ [e], List.append_assoc .., hdel, hr, ?_⟩
    have hkbc : h.devices.kbc = late.map Stroke.byte := by rw [hdev]
    change { h.devices with kbc := h.devices.kbc ++ [k] } = _
    rw [hk, hkbc, List.map_append]
    exact congrArg (fun x : Devices => { x with kbc := late.map Stroke.byte ++ [e.byte] }) hdev
  | serialIntr hg hrun =>
    have hdev := hs.serialIntr_devices hg hrun
    obtain ⟨rfl, hsame⟩ := serialGives_quiet (hh.uart hu) hg
    rw [hnone rfl, List.append_nil]
    exact hh.idle (hdev.trans hsame)
  | kbdIntr hg hrun =>
    rw [hnone rfl, List.append_nil]
    exact hh.serve hg (hs.kbdIntr_devices hg hrun)
  | consGetc hserial hkbd hrun =>
    have hdev := hs.consGetc_devices hserial hkbd hrun
    obtain ⟨rfl, rfl⟩ := serialGives_quiet (hh.uart hu) hserial
    rw [hnone rfl, List.append_nil]
    exact (hh.serve hkbd hdev).read _

/-- A poll leaves nothing waiting. -/
theorem Heard.poll (hu : d.uart = []) (hh : Heard d b es h)
    (hstep : Step h (.consGetc c) g) : g.delivered = b.spelled es := by
  cases hstep with
  | consGetc hserial hkbd hrun =>
    obtain ⟨rfl, rfl⟩ := serialGives_quiet (hh.uart hu) hserial
    obtain ⟨early, late, rfl, hdel, hr, hdev⟩ := hh.strokes
    obtain ⟨hds, -, -⟩ := hkbd.strokes (by rw [hdev]) hr
    rw [History.read_delivered, Board.spelled_append, ← hdel, ← hds]
    rfl

/-- The polls have returned what has been taken from the buffer. -/
theorem Step.returned (hs : h.input.Sound) (hstep : Step h a g) :
    g.returned = h.returned ++ a.poll.toList.filter (· ≠ 0) := by
  obtain ⟨xs, hholds⟩ := hs
  have hnone : h.returned = h.returned ++ [] := (List.append_nil _).symm
  cases hstep with
  | serialByte | kbcByte | serialIntr | kbdIntr => exact hnone
  | consGetc hserial hkbd hrun =>
    obtain ⟨c, t, ht, -, hc⟩ := consGetc_pops hserial hkbd hholds rfl
    obtain ⟨rfl, rfl⟩ := Prod.mk.inj (Except.ok.inj (hrun.unique ht))
    rcases hc with ⟨rfl, -, -⟩ | ⟨k, ys, rfl, -, -⟩
    · exact hnone
    · by_cases hk : k = 0
      · subst hk
        exact hnone
      · have hc : (k.setWidth 32 : BitVec 32) ≠ 0 := fun h => hk (by bv_omega)
        have hbyte : ((k.setWidth 32 : BitVec 32).setWidth 8 : Byte) = k := by bv_omega
        rw [History.read, if_neg hc, hbyte, Action.poll, hbyte, Option.toList_some,
          List.filter_cons_of_pos (by simpa using hk)]
        rfl

theorem polled_snoc : polled (as ++ [a]) = polled as ++ a.poll.toList := by
  rw [polled, List.filterMap_append]
  cases h : a.poll <;> simp [h, polled]

/-- All that is kept in a run in which nothing comes but strokes. -/
theorem trace_heard (hu : d.uart = []) (hk : d.kbc = []) (hr : Reads d.shift b)
    (htrace : Trace Step (.start d) as h) :
    h.input.Sound ∧ h.returned = (polled as).filter (· ≠ 0) ∧
      ∀ es, arrivals as = es.map (fun e => .inl e.byte) → Heard d b es h := by
  refine htrace.invariant (I := fun as h => h.input.Sound ∧
      h.returned = (polled as).filter (· ≠ 0) ∧
      ∀ es : List Stroke, arrivals as = es.map (fun e => .inl e.byte) → Heard d b es h) ?_ ?_
  · refine ⟨Input.sound_start d, rfl, fun es hes => ?_⟩
    rw [List.map_eq_nil_iff.mp hes.symm]
    exact heard_start hk hr
  · rintro as a h g ⟨hs, hret, hheard⟩ hstep
    refine ⟨hstep.move.sound hs, ?_, fun es hes => ?_⟩
    · rw [hstep.returned hs, hret, polled_snoc, List.filter_append]
    · rw [arrivals_snoc] at hes
      obtain ⟨fs, gs, rfl, hfs, hgs⟩ := List.append_eq_map_iff.mp hes
      exact (hheard fs hfs.symm).step hu hs hstep hgs.symm

/-- What has been delivered is the oldest part of what is typed. -/
theorem Heard.delivered (hh : Heard d b es h) : h.delivered <+: b.spelled es := by
  obtain ⟨early, late, rfl, hdel, -⟩ := hh.strokes
  rw [Board.spelled_append, ← hdel]
  exact List.prefix_append ..

theorem Heard.console (hh : Heard d b es h) : h.devices.console = d.console := by
  obtain ⟨early, late, -, -, -, hdev⟩ := hh.strokes
  rw [hdev]

/-- What has been returned is the oldest part of what is typed. -/
theorem Heard.returned (hq : Queued h) (hh : Heard d b es h) : h.returned <+: b.spelled es := by
  obtain ⟨xs, hxs, -⟩ := hq
  exact (hxs ▸ List.prefix_append h.returned xs).trans hh.delivered

/-- When no more characters are typed than fit, there is always room. -/
theorem hasRoom_of_spelled (hu : d.uart = []) (hk : d.kbc = []) (hr : Reads d.shift b)
    (harr : arrivals as = es.map fun e => .inl e.byte)
    (hlen : (b.spelled es).length ≤ consBufSize - 1) :
    Throughout Step HasRoom (.start d) as := by
  intro bs a t u hbs htrace hstep
  have hpre : arrivals (bs ++ [a]) <+: es.map fun e => .inl e.byte := harr ▸ hbs.filterMap _
  obtain ⟨fs, hfs, hmap⟩ := List.prefix_map_iff.mp hpre
  obtain ⟨rest, rfl⟩ := hfs
  obtain ⟨-, -, hheard⟩ := trace_heard hu hk hr (htrace.snoc hstep)
  have hdel := (hheard fs hmap).delivered.length_le
  rw [Board.spelled_append, List.length_append] at hlen
  unfold HasRoom
  omega

/-- Whatever keys are pressed and released, and however the interrupts and the polls fall in
between, as long as there is always room: the polls return the characters of the keys in order, a
poll finds nothing only when they have returned all of them, and nothing is printed. -/
theorem keys_typed (hu : d.uart = []) (hk : d.kbc = []) (hr : Reads d.shift b)
    (htrace : Trace Step (.start d) as h) (harr : arrivals as = es.map fun e => .inl e.byte)
    (hroom : Throughout Step HasRoom (.start d) as) :
    (polled as).filter (· ≠ 0) <+: b.spelled es ∧
    (∀ c g, Step h (.consGetc c) g → HasRoom h (.consGetc c) g →
      (c = 0 ↔ (polled as).filter (· ≠ 0) = b.spelled es)) ∧
    h.devices.console = d.console := by
  have hq := trace_queued htrace hroom
  obtain ⟨-, hret, hheard⟩ := trace_heard hu hk hr htrace
  have hh := hheard es harr
  rw [← hret]
  refine ⟨hh.returned hq, ?_, hh.console⟩
  intro c g hstep hfits
  rw [← hh.poll hu hstep, hq.poll hstep hfits]
  exact eq_comm

theorem reads_zero : Reads 0 ⟨false, false⟩ := ⟨rfl, rfl, rfl, rfl⟩

theorem mem_layout_a : (⟨0x1E, chr 'a', chr 'A'⟩ : KeyCap) ∈ layout := by decide +kernel

/-- A shift key and the key `a` are pressed and read. -/
theorem keys_typed_shift : ∃ as h c g, Trace Step (.start .quiet) as h ∧
    Step h (.consGetc c) g ∧ (c = 0 ↔ (polled as).filter (· ≠ 0) = [chr 'A']) := by
  let es : List Stroke := [.shift false true, .press ⟨_, mem_layout_a⟩]
  let as : List Action := es.map fun e => .kbcByte e.byte
  obtain ⟨h, htrace⟩ : ∃ h, Trace Step (.start .quiet) as h :=
    ⟨_, .snoc (.single (.kbcByte _)) (.kbcByte _)⟩
  obtain ⟨c, g, hstep⟩ := exists_consGetc (trace_sound htrace)
  have harr : arrivals as = es.map fun e => .inl e.byte := rfl
  have hlast : arrivals (as ++ [.consGetc c]) = es.map fun e => .inl e.byte := rfl
  have hlen : ((⟨false, false⟩ : Board).spelled es).length ≤ consBufSize - 1 :=
    show 1 ≤ 511 by decide
  have hroom := hasRoom_of_spelled (d := .quiet) rfl rfl reads_zero harr hlen
  have hfits := (hasRoom_of_spelled rfl rfl reads_zero hlast hlen).last htrace hstep
  obtain ⟨-, hall, -⟩ := keys_typed rfl rfl reads_zero htrace harr hroom
  exact ⟨as, h, c, g, htrace, hstep, hall c g hstep hfits⟩

/-! ### Texts -/

/-- A key that gives `c`. -/
def keyFor (b : Board) (c : Byte) : Option { k // k ∈ layout } :=
  layout.attach.find? fun k => k.1.char b = c

/-- How `c` is typed, with a shift key only where it needs one. -/
def typeByte (caps : Bool) (c : Byte) : Option (List Stroke) :=
  match keyFor ⟨false, caps⟩ c with
  | some k => some [.press k, .release k]
  | none => (keyFor ⟨true, caps⟩ c).map fun k =>
      [.shift false true, .press k, .release k, .shift false false]

def typeText (caps : Bool) (text : List Byte) : Option (List Stroke) :=
  (text.mapM (typeByte caps)).map List.flatten

/-- The printable characters, tab, backspace and newline. -/
def isTypeable (c : Byte) : Bool :=
  (chr ' ' ≤ c ∧ c ≤ chr '~') ∨ c = chr '\t' ∨ c = chr '\x08' ∨ c = chr '\n'

theorem typeByte_typeable : ∀ c, isTypeable c → ∀ caps, (typeByte caps c).isSome := by
  decide +kernel

theorem keyFor_char {k : { k // k ∈ layout }} {c : Byte} (h : keyFor b c = some k) :
    k.1.char b = c := by
  simpa using List.find?_some h

/-- What is typed for a character gives the character, and leaves the board as it was. -/
theorem typeByte_spelled {caps : Bool} {c : Byte} (h : typeByte caps c = some es) :
    (⟨false, caps⟩ : Board).spelled es = [c] ∧
      (⟨false, caps⟩ : Board).afterAll es = ⟨false, caps⟩ := by
  unfold typeByte at h
  cases hplain : keyFor ⟨false, caps⟩ c with
  | some k =>
    rw [hplain] at h
    obtain rfl := Option.some.inj h
    exact ⟨congrArg (fun x => [x]) (keyFor_char hplain), rfl⟩
  | none =>
    rw [hplain] at h
    obtain ⟨k, hshift, rfl⟩ := Option.map_eq_some_iff.mp h
    exact ⟨congrArg (fun x => [x]) (keyFor_char hshift), rfl⟩

theorem typeText_spelled (caps : Bool) {text : List Byte} (htext : ∀ c ∈ text, isTypeable c) :
    ∃ es, typeText caps text = some es ∧ (⟨false, caps⟩ : Board).spelled es = text ∧
      (⟨false, caps⟩ : Board).afterAll es = ⟨false, caps⟩ := by
  induction text with
  | nil => exact ⟨[], rfl, rfl, rfl⟩
  | cons c text ih =>
    obtain ⟨fs, hfs⟩ := Option.isSome_iff_exists.mp
      (typeByte_typeable c (htext c List.mem_cons_self) caps)
    obtain ⟨es, hes, hspelled, hafter⟩ := ih fun x hx => htext x (List.mem_cons_of_mem c hx)
    obtain ⟨hc, hboard⟩ := typeByte_spelled hfs
    refine ⟨fs ++ es, ?_, ?_, ?_⟩
    · obtain ⟨ls, hls, rfl⟩ := Option.map_eq_some_iff.mp hes
      rw [typeText, List.mapM_cons, hfs, hls]
      rfl
    · rw [Board.spelled_append, hc, hboard, hspelled]
      rfl
    · rw [Board.afterAll_append, hboard, hafter]

/-- Every text can be typed. However the interrupts and the polls fall in between, as long as
there is always room, the monitor that reads the polls has printed what the shell prints for the
part of the text that has been returned, and a poll finds nothing only when that is the whole
text. -/
theorem text_typed {caps : Bool} {text : List Byte} (htext : ∀ c ∈ text, isTypeable c)
    (hu : d.uart = []) (hk : d.kbc = []) (hr : Reads d.shift ⟨false, caps⟩) :
    ∃ es, typeText caps text = some es ∧ ∀ as h, Trace Step (.start d) as h →
      arrivals as = es.map (fun e => .inl e.byte) → Throughout Step HasRoom (.start d) as →
      ∃ part, part <+: text ∧ (polled as).filter (· ≠ 0) = part ∧
        (∀ c g, Step h (.consGetc c) g → HasRoom h (.consGetc c) g → (c = 0 ↔ part = text)) ∧
        ∀ syms tf s, s.polls = polled as → ∃ u, Waits syms tf s u ∧
          u.console = emit cputchar ((shell syms).run .opened part).out s.console := by
  obtain ⟨es, hes, hspelled, -⟩ := typeText_spelled caps htext
  refine ⟨es, hes, fun as h htrace harr hroom => ?_⟩
  have hq := trace_queued htrace hroom
  obtain ⟨-, hret, hheard⟩ := trace_heard hu hk hr htrace
  have hh := hheard es harr
  rw [← hspelled]
  refine ⟨_, hh.returned hq, hret.symm, fun c g hstep hfits => ?_, fun syms tf s hs => ?_⟩
  · rw [← hh.poll hu hstep, hq.poll hstep hfits]
    exact eq_comm
  · obtain ⟨u, hu, -⟩ := follows_all syms tf s
    rw [hs, ← hret] at hu
    exact ⟨u, hu.waits, hu.console⟩

/-- The lines `help`, a space and a question mark are typed with the caps lock on; there is always
room. -/
theorem text_typed_help : ∃ es, typeText true (lit "Help ?\n") = some es ∧
    ∀ as h, Trace Step (.start { Devices.quiet with shift := CAPSLOCK }) as h →
      arrivals as = es.map (fun e => .inl e.byte) →
      ∃ part, part <+: lit "Help ?\n" ∧ (polled as).filter (· ≠ 0) = part ∧
        (∀ c g, Step h (.consGetc c) g → (c = 0 ↔ part = lit "Help ?\n")) ∧
        ∀ syms tf s, s.polls = polled as → ∃ u, Waits syms tf s u ∧
          u.console = emit cputchar ((shell syms).run .opened part).out s.console := by
  have htext : ∀ c ∈ lit "Help ?\n", isTypeable c := by decide +kernel
  have hr : Reads CAPSLOCK ⟨false, true⟩ := ⟨rfl, rfl, rfl, rfl⟩
  obtain ⟨es, hes, htyped⟩ :=
    text_typed (d := { Devices.quiet with shift := CAPSLOCK }) htext rfl rfl hr
  obtain ⟨fs, hfs, hspelled, -⟩ := typeText_spelled true htext
  obtain rfl := Option.some.inj (hes.symm.trans hfs)
  have hlen : ((⟨false, true⟩ : Board).spelled es).length ≤ consBufSize - 1 := by
    rw [hspelled]
    decide
  refine ⟨es, hes, fun as h htrace harr => ?_⟩
  obtain ⟨part, hpart, hpolled, hall, hshell⟩ :=
    htyped as h htrace harr (hasRoom_of_spelled rfl rfl hr harr hlen)
  refine ⟨part, hpart, hpolled, fun c g hstep => hall c g hstep ?_, hshell⟩
  have hlast : arrivals (as ++ [.consGetc c]) = es.map fun e => .inl e.byte := by
    rw [arrivals_snoc, harr]
    exact List.append_nil _
  exact (hasRoom_of_spelled rfl rfl hr hlast hlen).last htrace hstep

end Jos
