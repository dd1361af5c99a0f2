import Jos.Kern.Merge
import Jos.Kern.Modifiers
import Mathlib.Logic.Function.Iterate

/-! When the keyboard driver reboots the machine. -/
namespace Jos

open Prog

/-- The key between the letters and the keypad; the one on the keypad has no escape. -/
def greyDelete : Key := ⟨true, 0x53, rfl, by decide⟩

/-- Ctrl-Alt-Del: this key goes down while the last event of the Ctrl keys, and that of the Alt
keys, was a press. -/
def Reboots (es : List KeyEvent) (e : KeyEvent) : Prop :=
  e = ⟨greyDelete, true⟩ ∧ lastPressed (· ∈ Modifier.ctl.keys) es ∧
    lastPressed (· ∈ Modifier.alt.keys) es

deriving instance DecidableEq for KeyEvent

instance (es : List KeyEvent) (e : KeyEvent) : Decidable (Reboots es e) :=
  inferInstanceAs (Decidable (_ ∧ _ ∧ _))

/-- How often this happens in `es`, after the events `pre`. -/
def rebootsFrom (pre : List KeyEvent) : List KeyEvent → ℕ
  | [] => 0
  | e :: es => (if Reboots pre e then 1 else 0) + rebootsFrom (pre ++ [e]) es

def reboots (es : List KeyEvent) : ℕ := rebootsFrom [] es

variable {shift sh c : BitVec 32} {b : Byte} {bytes : List Byte} {d f : Devices}
  {cs : List (BitVec 32)} {es pre : List KeyEvent} {e : KeyEvent}

/-! ### The tables -/

/-- One code stands for Delete in all the maps. -/
theorem maps_del : ∀ i : Byte, (normalmap i = KEY_DEL ↔ i = 0xD3) ∧
    (shiftmap i = KEY_DEL ↔ i = 0xD3) ∧ (ctlmap i = KEY_DEL ↔ i = 0xD3) := by
  decide +kernel

theorem capsSwap_del (shift : BitVec 32) (k : Byte) :
    capsSwap shift (k.setWidth 32) = KEY_DEL.setWidth 32 ↔ k = KEY_DEL := by
  unfold capsSwap
  by_cases h : shift &&& CAPSLOCK ≠ 0
  · rw [if_pos h]
    revert k
    decide +kernel
  · rw [if_neg h]
    revert k
    decide +kernel

theorem charcode_del {m : Byte → Byte} {i : BitVec 32} (h : charcode i = .ok m) (k : Byte) :
    m k = KEY_DEL ↔ k = 0xD3 := by
  obtain ⟨hnormal, hshift, hctl⟩ := maps_del k
  have hmem : m ∈ [normalmap, shiftmap, ctlmap, ctlmap] := by
    unfold charcode at h
    split at h
    · rename_i m' hm
      obtain rfl := Except.ok.inj h
      exact List.mem_of_getElem? hm
    · cases h
  simp only [List.mem_cons, List.not_mem_nil, or_false] at hmem
  rcases hmem with rfl | rfl | rfl | rfl
  · exact hnormal
  · exact hshift
  · exact hctl
  · exact hctl

/-- Pressing a key gives Delete for one code only. -/
theorem kbdPress_del (h : kbdPress shift b = .ok (sh, c)) :
    c = KEY_DEL.setWidth 32 ↔ b = 0xD3 := by
  obtain ⟨m, hm, hrest⟩ := bind_eq_ok.mp h
  obtain ⟨rfl, rfl⟩ := Prod.mk.inj (Except.ok.inj hrest)
  rw [capsSwap_del, charcode_del hm]

/-! ### One byte -/

theorem not_and_mask_iff {m : Modifier} : ~~~sh &&& m.mask = 0 ↔ sh.getLsbD m.index := by
  have hlt := m.index_lt
  have hbit : (~~~sh).getLsbD m.index = !sh.getLsbD m.index := by
    rw [BitVec.getLsbD_not, decide_eq_true (by omega), Bool.true_and]
  rw [← not_iff_not, ← ne_eq, and_mask_iff, hbit]
  simp

theorem ctlAlt_iff : ~~~sh &&& (CTL ||| ALT) = 0 ↔ sh.getLsbD 1 ∧ sh.getLsbD 2 := by
  have hctl : ~~~sh &&& CTL = 0 ↔ sh.getLsbD 1 := not_and_mask_iff (m := .ctl)
  have halt : ~~~sh &&& ALT = 0 ↔ sh.getLsbD 2 := not_and_mask_iff (m := .alt)
  rw [BitVec.and_or_distrib_left, ← hctl, ← halt]
  exact BitVec.or_eq_zero_iff

/-- Which bytes reboot the machine, by the shift word before them. -/
theorem isReboot_iff (hbyte : kbdByte shift b = .ok (sh, c)) : isReboot sh c ↔
    shift.getLsbD 6 ∧ b = 0x53 ∧ shift.getLsbD 1 ∧ shift.getLsbD 2 := by
  obtain ⟨sh', c', hbyte', hbits⟩ := kbdByte_bits shift b
  obtain ⟨rfl, rfl⟩ := Prod.mk.inj (Except.ok.inj (hbyte'.symm.trans hbyte))
  have hescape : shift &&& E0ESC ≠ 0 ↔ shift.getLsbD 6 = true := and_escape_iff
  have hdel : c' = KEY_DEL.setWidth 32 ↔ shift.getLsbD 6 ∧ b = 0x53 := by
    have hzero : ¬ (0 : BitVec 32) = KEY_DEL.setWidth 32 := by decide
    unfold kbdByte at hbyte
    by_cases hE0 : b = 0xE0
    · rw [if_pos hE0] at hbyte
      obtain ⟨-, rfl⟩ := Prod.mk.inj (Except.ok.inj hbyte)
      subst hE0
      exact iff_of_false hzero fun h => absurd h.2 (by decide)
    rw [if_neg hE0] at hbyte
    by_cases hbreak : b &&& 0x80 ≠ 0
    · rw [if_pos hbreak] at hbyte
      obtain ⟨-, rfl⟩ := Prod.mk.inj (Except.ok.inj hbyte)
      refine iff_of_false hzero ?_
      rintro ⟨-, rfl⟩
      exact hbreak (by decide)
    rw [if_neg hbreak] at hbyte
    have hmake := not_not.mp hbreak
    by_cases hesc : shift &&& E0ESC ≠ 0
    · rw [if_pos hesc] at hbyte
      have hcode : ∀ b : Byte, b &&& 0x80 = 0 → (b ||| 0x80 = 0xD3 ↔ b = 0x53) := by decide
      rw [kbdPress_del hbyte, hcode b hmake]
      exact ⟨fun h => ⟨hescape.mp hesc, h⟩, fun h => h.2⟩
    · rw [if_neg hesc] at hbyte
      rw [kbdPress_del hbyte]
      refine iff_of_false ?_ fun h => hesc (hescape.mpr h.1)
      rintro rfl
      exact absurd hmake (by decide)
  rw [isReboot, decide_eq_true_iff, ctlAlt_iff, hdel]
  have hlevel := hbits.level
  constructor
  · rintro ⟨⟨hctl, halt⟩, hesc, rfl⟩
    have hctl' := hlevel .ctl
    have halt' := hlevel .alt
    rw [hesc] at hctl' halt'
    exact ⟨hesc, rfl, hctl'.symm.trans hctl, halt'.symm.trans halt⟩
  · rintro ⟨hesc, rfl, hctl, halt⟩
    have hctl' := hlevel .ctl
    have halt' := hlevel .alt
    rw [hesc] at hctl' halt'
    exact ⟨⟨hctl'.trans hctl, halt'.trans halt⟩, hesc, rfl⟩

/-! ### The bytes of one event -/

/-- How often the driver reboots the machine over these bytes. -/
def rebootBytes (shift : BitVec 32) : List Byte → ℕ
  | [] => 0
  | b :: bytes =>
    match kbdByte shift b with
    | .ok (sh, c) => (if isReboot sh c then 1 else 0) + rebootBytes sh bytes
    | .error _ => 0

theorem rebootBytes_cons (hb : kbdByte shift b = .ok (sh, c)) : rebootBytes shift (b :: bytes) =
    (if isReboot sh c then 1 else 0) + rebootBytes sh bytes := by
  rw [rebootBytes, hb]

theorem rebootBytes_append (more : List Byte) (h : shiftAfter shift bytes = .ok sh) :
    rebootBytes shift (bytes ++ more) = rebootBytes shift bytes + rebootBytes sh more := by
  induction bytes generalizing shift with
  | nil =>
    obtain rfl := Except.ok.inj h
    exact (Nat.zero_add _).symm
  | cons b bytes ih =>
    obtain ⟨mid, c, hb, -⟩ := kbdByte_total shift b
    rw [shiftAfter, List.foldlM_cons, hb] at h
    rw [List.cons_append, rebootBytes_cons hb, rebootBytes_cons hb, ih h, Nat.add_assoc]

theorem isReboot_last (e : KeyEvent) (hb : kbdByte shift e.last = .ok (sh, c))
    (hesc : shift.getLsbD 6 = e.key.escaped) : isReboot sh c ↔
      e = ⟨greyDelete, true⟩ ∧ shift.getLsbD 1 ∧ shift.getLsbD 2 := by
  have hlast : e.last = 0x53 ↔ e.key.code = 0x53 ∧ e.press := by
    obtain ⟨-, hcode, hpress⟩ := e.last_eq
    constructor
    · intro h
      rw [h] at hcode hpress
      exact ⟨hcode.symm, hpress.symm⟩
    · rintro ⟨hk, hp⟩
      rw [KeyEvent.last, if_pos hp, hk]
  rw [isReboot_iff hb, hesc, hlast]
  obtain ⟨⟨escaped, code, hmake, hne⟩, press⟩ := e
  simp only [greyDelete, KeyEvent.mk.injEq, Key.mk.injEq]
  tauto

/-- The bytes before the last one do not reboot the machine. -/
theorem rebootBytes_codes (h : shift.getLsbD 6 = false) (e : KeyEvent) :
    ∃ sh, rebootBytes shift e.codes = rebootBytes sh [e.last] ∧ sh.getLsbD 6 = e.key.escaped ∧
      ∀ m : Modifier, sh.getLsbD m.index = shift.getLsbD m.index := by
  cases hesc : e.key.escaped with
  | false =>
    refine ⟨shift, ?_, h, fun _ => rfl⟩
    rw [KeyEvent.codes, hesc]
    rfl
  | true =>
    obtain ⟨sh, c, hbyte, hafter⟩ := kbdByte_bits shift 0xE0
    have hno : ¬ isReboot sh c := by
      rw [isReboot_iff hbyte]
      rintro ⟨-, hcode, -⟩
      exact absurd hcode (by decide)
    refine ⟨sh, ?_, hafter.escape, fun m => ?_⟩
    · have hcodes : e.codes = 0xE0 :: [e.last] := by
        rw [KeyEvent.codes, hesc]
        rfl
      rw [hcodes, rebootBytes_cons hbyte, if_neg hno, Nat.zero_add]
    · have hnone : m.has (false, 0xE0) = false := by cases m <;> rfl
      rw [hafter.level, h, hnone, if_neg Bool.false_ne_true]

/-- An event reboots the machine when it is the last of Ctrl-Alt-Del. -/
theorem rebootBytes_event (h6 : shift.getLsbD 6 = false)
    (hbits : ∀ m : Modifier, shift.getLsbD m.index = lastPressed (· ∈ m.keys) es)
    (e : KeyEvent) : rebootBytes shift e.codes = if Reboots es e then 1 else 0 := by
  obtain ⟨mid, hcodes, hmid6, hmid⟩ := rebootBytes_codes h6 e
  obtain ⟨sh, c, hbyte, -⟩ := kbdByte_total mid e.last
  have hiff : isReboot sh c ↔ Reboots es e := by
    have hctl : mid.getLsbD 1 = lastPressed (· ∈ Modifier.ctl.keys) es :=
      (hmid .ctl).trans (hbits .ctl)
    have halt : mid.getLsbD 2 = lastPressed (· ∈ Modifier.alt.keys) es :=
      (hmid .alt).trans (hbits .alt)
    rw [isReboot_last e hbyte hmid6, hctl, halt, Reboots]
  rw [hcodes, rebootBytes_cons hbyte]
  by_cases h : Reboots es e
  · rw [if_pos h, if_pos (hiff.mpr h)]
    rfl
  · rw [if_neg h, if_neg (mt hiff.mp h)]
    rfl

theorem rebootsFrom_snoc : rebootsFrom pre (es ++ [e]) =
    rebootsFrom pre es + if Reboots (pre ++ es) e then 1 else 0 := by
  induction es generalizing pre with
  | nil => simp [rebootsFrom]
  | cons e' es ih =>
    rw [List.cons_append, rebootsFrom, ih, rebootsFrom, List.append_assoc, Nat.add_assoc]
    rfl

theorem rebootBytes_events (es : List KeyEvent) :
    rebootBytes 0 (es.flatMap KeyEvent.codes) = reboots es := by
  induction es using List.reverseRecOn with
  | nil => rfl
  | append_singleton es e ih =>
    obtain ⟨sh, hsh, h6, hbits⟩ := shiftAfter_events es
    rw [List.flatMap_append, List.flatMap_singleton, rebootBytes_append _ hsh, ih,
      rebootBytes_event h6 hbits, reboots, reboots, rebootsFrom_snoc, List.nil_append]

/-! ### Runs -/

theorem rebooted_once (reboot : Bool) (s : Console) :
    rebooted^[if reboot then 1 else 0] s = if reboot then rebooted s else s := by
  cases reboot <;> rfl

/-- What the keyboard controller prints is the message, once for every reboot. -/
theorem Gives.console (h : Gives kbdProcData d cs f) (hd : d.kbc = bytes.map fun b => ⟨false, b⟩) :
    f.console = rebooted^[rebootBytes d.shift bytes] d.console := by
  induction bytes generalizing d cs with
  | nil =>
    obtain ⟨-, rfl⟩ := h.of_blocked (by simp [Blocked, hd])
    rfl
  | cons b bytes ih =>
    obtain ⟨sh, c, hb, -⟩ := kbdByte_total d.shift b
    obtain ⟨ds, -, -, hrest⟩ := h.key hd hb
    rw [ih hrest rfl, rebootBytes_cons hb, Nat.add_comm, Function.iterate_add_apply,
      rebooted_once]

/-- Whatever keys are pressed and released, whatever comes to the serial port, and however
interrupts and polls fall in between, a poll leaves the machine rebooted once for every time that
Ctrl-Alt-Del was pressed, and nothing else printed, even when characters have been lost. -/
theorem reboots_on_ctl_alt_del {as : List Action} {h g : History} {c : BitVec 32}
    (hshift : d.shift = 0) (hk : d.kbc = []) (htrace : Trace Step (.start d) as h)
    (hkeys : keyArrivals as = (es.flatMap KeyEvent.codes).map fun b => ⟨false, b⟩)
    (hstep : Step h (.consGetc c) g) : g.devices.console = rebooted^[reboots es] d.console := by
  obtain ⟨hsound, -, hs⟩ := trace_served htrace
  obtain ⟨cs, f, out, hg, -, -, hpoll⟩ := hs.poll hsound
  obtain ⟨-, -, hconsole⟩ := hpoll c g hstep
  rw [hk, List.nil_append, hkeys] at hg
  have hrun := hg.console rfl
  rw [hconsole, hrun, ← rebootBytes_events]
  exact congrArg (fun s => rebooted^[rebootBytes s _] d.console) hshift

/-- Ctrl, Alt and Delete are pressed, one after the other. -/
theorem reboots_on_ctl_alt_del_once : ∃ as h c g, Trace Step (.start .quiet) as h ∧
    Step h (.consGetc c) g ∧ g.devices.console = rebooted Devices.quiet.console := by
  let es : List KeyEvent := [⟨⟨false, 0x1D, rfl, by decide⟩, true⟩,
    ⟨⟨false, 0x38, rfl, by decide⟩, true⟩, ⟨greyDelete, true⟩]
  obtain ⟨h, htrace⟩ : ∃ h, Trace Step (.start .quiet)
      ((es.flatMap KeyEvent.codes).map fun b => .kbcByte ⟨false, b⟩) h :=
    ⟨_, .snoc (.snoc (.snoc (.single (.kbcByte _)) (.kbcByte _)) (.kbcByte _)) (.kbcByte _)⟩
  obtain ⟨c, g, hstep⟩ := exists_consGetc (trace_sound htrace)
  have honce : reboots es = 1 := by decide
  have hkeys : keyArrivals ((es.flatMap KeyEvent.codes).map fun b => .kbcByte ⟨false, b⟩) =
      (es.flatMap KeyEvent.codes).map fun b => ⟨false, b⟩ := rfl
  have hrun := reboots_on_ctl_alt_del rfl rfl htrace hkeys hstep
  rw [honce] at hrun
  exact ⟨_, h, c, g, htrace, hstep, hrun⟩

end Jos
