import Jos.Kern.Keyboard
import Jos.Prog.Machine
import Jos.Prog.Ring
import Mathlib.Logic.Relation

/-! `kern/console.c`: the input buffer of the console is a first-in first-out queue. -/
namespace Jos

open Prog

abbrev consBufSize : ℕ := 512

/-- The devices and the buffer in which their characters are stashed. -/
structure Input where
  devices : Devices
  cons : RingBuffer Byte

/-- An input routine of a device: a character, 0 for none, or -1 when it has no more data. -/
abbrev Proc := ℕ → Devices → Res (BitVec 32 × Devices)

def consIntrBody (proc : Proc) (fuel : ℕ) (s : Input) : Res (Input ⊕ Input) := do
  let (c, devices) ← proc fuel s.devices
  if c = -1 then pure (.inr { s with devices := devices })
  else if c = 0 then pure (.inl { s with devices := devices })
  else do
    let cons ← s.cons.push consBufSize (c.setWidth 8)
    pure (.inl { devices := devices, cons := cons })

def consIntr (proc : Proc) (fuel : ℕ) (s : Input) : Res Input :=
  loop (consIntrBody proc fuel) fuel s

def serialIntr (fuel : ℕ) (s : Input) : Res Input :=
  if s.devices.serialExists then consIntr serialProcData fuel s else pure s

def kbdIntr (fuel : ℕ) (s : Input) : Res Input := consIntr kbdProcData fuel s

/-- The next input character from the console, or 0 if none is waiting. -/
def consGetc (fuel : ℕ) (s : Input) : Res (BitVec 32 × Input) := do
  let s ← serialIntr fuel s
  let s ← kbdIntr fuel s
  let (c, cons) ← s.cons.pop consBufSize
  match c with
  | some c => pure (c.setWidth 32, { s with cons := cons })
  | none => pure (0, s)

variable {proc : Proc} {d e f : Devices} {s t : Input} {c : BitVec 32} {cs ds : List (BitVec 32)}
  {xs : List Byte}

/-! ### What a device delivers -/

/-- Called until it returns -1, the routine returns `cs`. -/
inductive Gives (proc : Proc) : Devices → List (BitVec 32) → Devices → Prop
  | done {d e : Devices} : Settles (fun n => proc n d) (.ok (-1, e)) → Gives proc d [] e
  | more {d e f : Devices} {c : BitVec 32} {cs : List (BitVec 32)} :
      Settles (fun n => proc n d) (.ok (c, e)) → c ≠ -1 → Gives proc e cs f →
      Gives proc d (c :: cs) f

/-- The bytes among the values that a routine returned: 0 is no byte. -/
def delivered (cs : List (BitVec 32)) : List Byte := (cs.filter (· ≠ 0)).map (·.setWidth 8)

/-- What `serial_intr` finds. -/
def SerialGives (d : Devices) (cs : List (BitVec 32)) (e : Devices) : Prop :=
  if d.serialExists then Gives serialProcData d cs e else cs = [] ∧ e = d

theorem Gives.unique {e' : Devices} (h : Gives proc d cs e) (h' : Gives proc d ds e') :
    cs = ds ∧ e = e' := by
  induction h generalizing ds e' with
  | done hend =>
    cases h' with
    | done hend' =>
      obtain ⟨-, rfl⟩ := Prod.mk.inj (Except.ok.inj (hend.unique hend'))
      exact ⟨rfl, rfl⟩
    | more hc hne _ =>
      obtain ⟨rfl, -⟩ := Prod.mk.inj (Except.ok.inj (hc.unique hend))
      exact absurd rfl hne
  | more hc hne _ ih =>
    cases h' with
    | done hend =>
      obtain ⟨rfl, -⟩ := Prod.mk.inj (Except.ok.inj (hc.unique hend))
      exact absurd rfl hne
    | more hc' _ hrest =>
      obtain ⟨rfl, rfl⟩ := Prod.mk.inj (Except.ok.inj (hc.unique hc'))
      obtain ⟨rfl, rfl⟩ := ih hrest
      exact ⟨rfl, rfl⟩

theorem delivered_cons (hc : c ≠ 0) : delivered (c :: cs) = c.setWidth 8 :: delivered cs := by
  rw [delivered, List.filter_cons_of_pos (by simpa using hc), List.map_cons]
  rfl

theorem zero_notMem_delivered (h : ∀ c ∈ cs, c.toNat < 256) : 0 ∉ delivered cs := by
  intro hmem
  obtain ⟨c, hc, h0⟩ := List.mem_map.mp hmem
  obtain ⟨hcs, hne⟩ := List.mem_filter.mp hc
  have hlt := h c hcs
  have hzero : c = 0 := by bv_omega
  simp [hzero] at hne

theorem Gives.range (h : Gives proc d cs e)
    (hproc : ∀ d e c, Settles (fun n => proc n d) (.ok (c, e)) → c = -1 ∨ c.toNat < 256) :
    ∀ c ∈ cs, c.toNat < 256 := by
  induction h with
  | done _ => simp
  | more hc hne _ ih =>
    intro c hmem
    rcases List.mem_cons.mp hmem with rfl | hmem
    · exact (hproc _ _ _ hc).resolve_left hne
    · exact ih c hmem

theorem byte_ne_neg_one (b : Byte) : (b.setWidth 32 : BitVec 32) ≠ -1 := by
  revert b
  decide

/-- All that waits in the serial port is delivered. -/
theorem serial_gives (d : Devices) :
    Gives serialProcData d (d.uart.map (·.setWidth 32)) { d with uart := [] } := by
  induction hd : d.uart generalizing d with
  | nil =>
    have hend : { d with uart := [] } = d := by rw [← hd]
    rw [hend]
    exact .done ((Settles.const _).congr (serialProcData_empty hd))
  | cons b us ih =>
    exact .more ((Settles.const _).congr (serialProcData_byte hd)) (byte_ne_neg_one b)
      (ih { d with uart := us } rfl)

/-- The keyboard delivers something, up to a byte from the mouse. -/
theorem kbd_gives (d : Devices) : ∃ cs e, Gives kbdProcData d cs e := by
  induction hk : d.kbc generalizing d with
  | nil => exact ⟨[], d, .done ((Settles.const _).congr (kbdProcData_empty hk))⟩
  | cons k rest ih =>
    obtain ⟨m, b⟩ := k
    cases m with
    | true => exact ⟨[], d, .done ((Settles.const _).congr (kbdProcData_mouse hk))⟩
    | false =>
      obtain ⟨sh, c, hb, hlt⟩ := kbdByte_total d.shift b
      obtain ⟨con, hkey⟩ := kbdProcData_key hk hb
      have hne : c ≠ -1 := by
        rintro rfl
        exact absurd hlt (by decide)
      obtain ⟨cs, e, hrest⟩ := ih { d with kbc := rest, shift := sh, console := con } rfl
      exact ⟨c :: cs, e, .more hkey hne hrest⟩

theorem exists_serialGives (d : Devices) : ∃ cs e, SerialGives d cs e := by
  by_cases hex : d.serialExists
  · exact ⟨_, _, (if_pos hex).mpr (serial_gives d)⟩
  · exact ⟨[], d, (if_neg hex).mpr ⟨rfl, rfl⟩⟩

theorem serial_range (h : Settles (fun n => serialProcData n d) (.ok (c, e))) :
    c = -1 ∨ c.toNat < 256 := by
  rcases hd : d.uart with _ | ⟨b, us⟩
  · have hn := (Settles.const _).congr (serialProcData_empty hd)
    exact .inl (Prod.mk.inj (Except.ok.inj (h.unique hn))).1
  · have hn := (Settles.const _).congr (serialProcData_byte hd)
    obtain ⟨rfl, -⟩ := Prod.mk.inj (Except.ok.inj (h.unique hn))
    right
    have := b.isLt
    simp only [BitVec.toNat_setWidth]
    omega

theorem SerialGives.unique (h : SerialGives d cs e) (h' : SerialGives d ds f) :
    cs = ds ∧ e = f := by
  by_cases hex : d.serialExists
  · exact Gives.unique ((if_pos hex).mp h) ((if_pos hex).mp h')
  · obtain ⟨rfl, rfl⟩ := (if_neg hex).mp h
    obtain ⟨rfl, rfl⟩ := (if_neg hex).mp h'
    exact ⟨rfl, rfl⟩

theorem SerialGives.zero_notMem (h : SerialGives d cs e) : 0 ∉ delivered cs := by
  unfold SerialGives at h
  split at h
  · exact zero_notMem_delivered (h.range fun _ _ _ => serial_range)
  · rw [h.1]
    exact List.not_mem_nil

theorem kbd_zero_notMem (h : Gives kbdProcData d cs e) : 0 ∉ delivered cs :=
  zero_notMem_delivered (h.range fun _ _ _ => kbdProcData_range)

/-- How many bytes wait at the devices. -/
def Devices.waiting (d : Devices) : ℕ := d.uart.length + d.kbc.length

theorem length_delivered_cons_le (c : BitVec 32) (cs : List (BitVec 32)) :
    (delivered (c :: cs)).length ≤ (delivered cs).length + 1 := by
  by_cases hc : c = 0
  · subst hc
    exact Nat.le_succ _
  · exact Nat.le_of_eq (by rw [delivered_cons hc, List.length_cons])

/-- No more is delivered than what waits no longer. -/
theorem kbd_waiting_le (h : Gives kbdProcData d cs e) :
    (delivered cs).length + e.waiting ≤ d.waiting := by
  generalize hproc : kbdProcData = proc at h
  induction h with
  | done hend =>
    subst hproc
    rcases kbdProcData_cases hend with ⟨-, rfl⟩ | ⟨hlt, -⟩
    · exact Nat.le_of_eq (Nat.zero_add _)
    · exact absurd hlt (by decide)
  | @more d e f c cs hc hne _ ih =>
    have hlen := length_delivered_cons_le c cs
    subst hproc
    rcases kbdProcData_cases hc with ⟨hend, -⟩ | ⟨-, huart, k, hk⟩
    · exact absurd hend hne
    · have hwait : d.waiting = e.waiting + 1 := by
        rw [Devices.waiting, Devices.waiting, hk, huart, List.length_cons, Nat.add_assoc]
      omega

theorem SerialGives.waiting_le (h : SerialGives d cs e) :
    (delivered cs).length + e.waiting ≤ d.waiting := by
  unfold SerialGives at h
  by_cases hex : d.serialExists
  · rw [if_pos hex] at h
    obtain ⟨rfl, rfl⟩ := h.unique (serial_gives d)
    have hlen : (delivered (d.uart.map (·.setWidth 32))).length ≤ d.uart.length := by
      calc (delivered (d.uart.map (·.setWidth 32))).length
        _ = ((d.uart.map (·.setWidth 32)).filter (· ≠ 0)).length := List.length_map _
        _ ≤ (d.uart.map (·.setWidth 32)).length := List.length_filter_le _ _
        _ = d.uart.length := List.length_map _
    simp only [Devices.waiting, List.length_nil]
    omega
  · rw [if_neg hex] at h
    obtain ⟨rfl, rfl⟩ := h
    exact Nat.le_of_eq (Nat.zero_add _)

/-! ### What `cons_intr` and `cons_getc` do with it -/

theorem consIntrBody_end (hc : Settles (fun n => proc n s.devices) (.ok (-1, e))) :
    Settles (fun n => consIntrBody proc n s) (.ok (.inr { s with devices := e })) :=
  hc.bind (Settles.const _)

theorem consIntrBody_zero (hc : Settles (fun n => proc n s.devices) (.ok (0, e))) :
    Settles (fun n => consIntrBody proc n s) (.ok (.inl { s with devices := e })) :=
  hc.bind (Settles.const _)

theorem consIntrBody_push {r : RingBuffer Byte}
    (hc : Settles (fun n => proc n s.devices) (.ok (c, e)))
    (hne : c ≠ -1) (h0 : c ≠ 0) (hr : s.cons.push consBufSize (c.setWidth 8) = .ok r) :
    Settles (fun n => consIntrBody proc n s) (.ok (.inl ⟨e, r⟩)) := by
  refine hc.bind ((Settles.const _).congr fun n => ?_)
  simp only [if_neg hne, if_neg h0, hr, ok_bind]
  rfl

/-- The loop of `cons_intr` pushes what is delivered, whether there is room or not. -/
theorem Gives.loop_pushes (h : Gives proc d cs e) (hd : s.devices = d)
    (hs : s.cons.Holds consBufSize xs) :
    ∃ t, LoopSettles (consIntrBody proc) s (.ok t) ∧ t.devices = e ∧
      t.cons.Holds consBufSize (RingBuffer.latest consBufSize (xs ++ delivered cs)) := by
  induction h generalizing s xs with
  | done hend =>
    subst hd
    refine ⟨_, .exit (consIntrBody_end hend), rfl, ?_⟩
    rw [delivered, List.filter_nil, List.map_nil, List.append_nil,
      RingBuffer.latest_of_lt hs.length_lt]
    exact hs
  | @more d e f c cs hc hne _ ih =>
    subst hd
    by_cases h0 : c = 0
    · subst h0
      obtain ⟨t, hrun, ht⟩ := ih (s := { s with devices := e }) rfl hs
      exact ⟨t, .next (consIntrBody_zero hc) hrun, ht⟩
    · obtain ⟨r, hr, hholds⟩ := hs.pushes (c.setWidth 8)
      obtain ⟨t, hrun, ht⟩ := ih (s := ⟨e, r⟩) rfl hholds
      rw [RingBuffer.latest_latest_append, ← List.append_cons] at ht
      rw [delivered_cons h0]
      exact ⟨t, .next (consIntrBody_push hc hne h0 hr) hrun, ht⟩

theorem Gives.pushes (h : Gives proc s.devices cs e) (hs : s.cons.Holds consBufSize xs) :
    ∃ t, Settles (fun n => consIntr proc n s) (.ok t) ∧ t.devices = e ∧
      t.cons.Holds consBufSize (RingBuffer.latest consBufSize (xs ++ delivered cs)) := by
  obtain ⟨t, hrun, ht⟩ := h.loop_pushes rfl hs
  exact ⟨t, hrun.settles, ht⟩

theorem SerialGives.pushes (h : SerialGives s.devices cs e) (hs : s.cons.Holds consBufSize xs) :
    ∃ t, Settles (fun n => serialIntr n s) (.ok t) ∧ t.devices = e ∧
      t.cons.Holds consBufSize (RingBuffer.latest consBufSize (xs ++ delivered cs)) := by
  unfold SerialGives at h
  by_cases hex : s.devices.serialExists
  · rw [if_pos hex] at h
    obtain ⟨t, hrun, ht⟩ := Gives.pushes h hs
    exact ⟨t, hrun.congr fun n => if_pos hex, ht⟩
  · rw [if_neg hex] at h
    obtain ⟨rfl, rfl⟩ := h
    refine ⟨s, (Settles.const _).congr fun n => if_neg hex, rfl, ?_⟩
    rw [delivered, List.filter_nil, List.map_nil, List.append_nil,
      RingBuffer.latest_of_lt hs.length_lt]
    exact hs

/-- Where there is room, what is delivered is queued. -/
theorem Gives.fills (h : Gives proc s.devices cs e) (hs : s.cons.Holds consBufSize xs)
    (hlen : (xs ++ delivered cs).length < consBufSize) :
    ∃ t, Settles (fun n => consIntr proc n s) (.ok t) ∧ t.devices = e ∧
      t.cons.Holds consBufSize (xs ++ delivered cs) := by
  obtain ⟨t, ht⟩ := h.pushes hs
  rw [RingBuffer.latest_of_lt hlen] at ht
  exact ⟨t, ht⟩

theorem SerialGives.fills (h : SerialGives s.devices cs e) (hs : s.cons.Holds consBufSize xs)
    (hlen : (xs ++ delivered cs).length < consBufSize) :
    ∃ t, Settles (fun n => serialIntr n s) (.ok t) ∧ t.devices = e ∧
      t.cons.Holds consBufSize (xs ++ delivered cs) := by
  obtain ⟨t, ht⟩ := h.pushes hs
  rw [RingBuffer.latest_of_lt hlen] at ht
  exact ⟨t, ht⟩

/-- `cons_getc` polls both devices and takes the oldest byte that it finds. -/
theorem consGetc_pops (hserial : SerialGives s.devices cs e) (hkbd : Gives kbdProcData e ds f)
    (hs : s.cons.Holds consBufSize xs) {zs : List Byte}
    (hzs : zs = RingBuffer.latest consBufSize (xs ++ delivered cs ++ delivered ds)) :
    ∃ c t, Settles (fun n => consGetc n s) (.ok (c, t)) ∧ t.devices = f ∧
      (c = 0 ∧ zs = [] ∧ t.cons.Holds consBufSize [] ∨
        ∃ b ys, c = b.setWidth 32 ∧ zs = b :: ys ∧ t.cons.Holds consBufSize ys) := by
  obtain ⟨t, ht, hdev, hholds⟩ := hserial.pushes hs
  subst hdev
  obtain ⟨u, hu, hdev, hholds⟩ := hkbd.pushes hholds
  subst hdev
  rw [RingBuffer.latest_latest_append, ← hzs] at hholds
  cases zs with
  | nil =>
    refine ⟨0, u, ht.bind (hu.bind ((Settles.const _).congr fun n => ?_)), rfl,
      .inl ⟨rfl, rfl, hholds⟩⟩
    rw [hholds.pop_nil]
    rfl
  | cons b ys =>
    obtain ⟨r, hr, hrest⟩ := hholds.pop_cons
    refine ⟨b.setWidth 32, { u with cons := r },
      ht.bind (hu.bind ((Settles.const _).congr fun n => ?_)), rfl, .inr ⟨b, ys, rfl, rfl, hrest⟩⟩
    rw [hr]
    rfl

/-! ### Runs -/

namespace Input

/-- The static buffer before anything has happened. -/
def start (d : Devices) : Input := ⟨d, ⟨fun _ => 0, 0, 0⟩⟩

def withDevices (s : Input) (d : Devices) : Input := { s with devices := d }

/-- What can happen, with no regard to how much is unread. -/
inductive Move : Input → Input → Prop
  | serialByte {s : Input} (b : Byte) :
      Move s (s.withDevices { s.devices with uart := s.devices.uart ++ [b] })
  | kbcByte {s : Input} (k : KbcByte) :
      Move s (s.withDevices { s.devices with kbc := s.devices.kbc ++ [k] })
  | serialIntr {s t : Input} : Settles (fun n => Jos.serialIntr n s) (.ok t) → Move s t
  | kbdIntr {s t : Input} : Settles (fun n => Jos.kbdIntr n s) (.ok t) → Move s t
  | consGetc {s t : Input} {c : BitVec 32} :
      Settles (fun n => Jos.consGetc n s) (.ok (c, t)) → Move s t

/-- The states that a run from `s` can reach. -/
abbrev Moves (s t : Input) : Prop := Relation.ReflTransGen Move s t

/-- The positions are in range, so that some bytes are in the buffer. -/
def Sound (s : Input) : Prop := ∃ xs, s.cons.Holds consBufSize xs

theorem sound_start (d : Devices) : (start d).Sound := ⟨[], RingBuffer.holds_nil (by decide)⟩

theorem Move.sound (h : Move s t) (hs : s.Sound) : t.Sound := by
  obtain ⟨xs, hs⟩ := hs
  obtain ⟨cs, e, hserial⟩ := exists_serialGives s.devices
  cases h with
  | serialByte b => exact ⟨xs, hs⟩
  | kbcByte k => exact ⟨xs, hs⟩
  | serialIntr hrun =>
    obtain ⟨u, hu, -, hholds⟩ := hserial.pushes hs
    obtain rfl := Except.ok.inj (hrun.unique hu)
    exact ⟨_, hholds⟩
  | kbdIntr hrun =>
    obtain ⟨cs, e, hkbd⟩ := kbd_gives s.devices
    obtain ⟨u, hu, -, hholds⟩ := hkbd.pushes hs
    obtain rfl := Except.ok.inj (hrun.unique hu)
    exact ⟨_, hholds⟩
  | consGetc hrun =>
    obtain ⟨ds, f, hkbd⟩ := kbd_gives e
    obtain ⟨c, u, hu, -, hc⟩ := consGetc_pops hserial hkbd hs rfl
    obtain ⟨-, rfl⟩ := Prod.mk.inj (Except.ok.inj (hrun.unique hu))
    rcases hc with ⟨-, -, hholds⟩ | ⟨b, ys, -, -, hholds⟩
    · exact ⟨_, hholds⟩
    · exact ⟨_, hholds⟩

/-! What the routines leave of the devices. -/

theorem Sound.serialIntr_devices (hs : s.Sound) (hg : SerialGives s.devices cs e)
    (hrun : Settles (fun n => Jos.serialIntr n s) (.ok t)) : t.devices = e := by
  obtain ⟨xs, hholds⟩ := hs
  obtain ⟨u, hu, hdev, -⟩ := hg.pushes hholds
  obtain rfl := Except.ok.inj (hrun.unique hu)
  exact hdev

theorem Sound.kbdIntr_devices (hs : s.Sound) (hg : Gives kbdProcData s.devices cs e)
    (hrun : Settles (fun n => Jos.kbdIntr n s) (.ok t)) : t.devices = e := by
  obtain ⟨xs, hholds⟩ := hs
  obtain ⟨u, hu, hdev, -⟩ := hg.pushes hholds
  obtain rfl := Except.ok.inj (hrun.unique hu)
  exact hdev

theorem Sound.consGetc_devices (hs : s.Sound) (hserial : SerialGives s.devices cs e)
    (hkbd : Gives kbdProcData e ds f)
    (hrun : Settles (fun n => Jos.consGetc n s) (.ok (c, t))) : t.devices = f := by
  obtain ⟨xs, hholds⟩ := hs
  obtain ⟨c, u, hu, hdev, -⟩ := consGetc_pops hserial hkbd hholds rfl
  obtain ⟨-, rfl⟩ := Prod.mk.inj (Except.ok.inj (hrun.unique hu))
  exact hdev

theorem Moves.sound (h : Moves (.start d) s) : s.Sound := by
  induction h with
  | refl => exact sound_start d
  | tail _ hmove ih => exact hmove.sound ih

end Input

/-- The console input, and what has been delivered and returned since the start. -/
structure History where
  input : Input
  delivered : List Byte
  returned : List Byte

namespace History

/-- Nothing has happened. -/
def start (d : Devices) : History := ⟨.start d, [], []⟩

abbrev devices (h : History) : Devices := h.input.devices

def withDevices (h : History) (d : Devices) : History := { h with input := h.input.withDevices d }

/-- The devices deliver `bs` more. -/
def deliver (h : History) (bs : List Byte) : History := { h with delivered := h.delivered ++ bs }

/-- `cons_getc` returns `c`. -/
def read (h : History) (c : BitVec 32) : History :=
  if c = 0 then h else { h with returned := h.returned ++ [c.setWidth 8] }

theorem read_delivered (h : History) (c : BitVec 32) : (h.read c).delivered = h.delivered := by
  unfold read
  split <;> rfl

theorem read_input (h : History) (c : BitVec 32) : (h.read c).input = h.input := by
  unfold read
  split <;> rfl

/-- The bytes that have been delivered or wait at a device. -/
def load (h : History) : ℕ := h.delivered.length + h.devices.waiting

theorem load_deliver {t : Input} (h : History) (bs : List Byte)
    (hbs : bs.length + t.devices.waiting ≤ h.devices.waiting) :
    ({ h.deliver bs with input := t } : History).load ≤ h.load := by
  change (h.delivered ++ bs).length + t.devices.waiting ≤ h.delivered.length + h.devices.waiting
  rw [List.length_append]
  omega

theorem load_read (h : History) (c : BitVec 32) : (h.read c).load = h.load := by
  rw [load, load, read_delivered, devices, read_input]

end History

/-- What can happen: a byte comes to a device, an interrupt is served, or a read returns `c`. -/
inductive Action where
  | serialByte (b : Byte)
  | kbcByte (k : KbcByte)
  | serialIntr
  | kbdIntr
  | consGetc (c : BitVec 32)

/-- What comes to a device in an action. -/
def Action.arrival : Action → Option (KbcByte ⊕ Byte)
  | .kbcByte k => some (.inl k)
  | .serialByte b => some (.inr b)
  | _ => none

def arrivals (as : List Action) : List (KbcByte ⊕ Byte) := as.filterMap Action.arrival

/-- One action, whether there is room for what the devices deliver in it or not. -/
inductive Step : History → Action → History → Prop
  | serialByte {h : History} (b : Byte) :
      Step h (.serialByte b) (h.withDevices { h.devices with uart := h.devices.uart ++ [b] })
  | kbcByte {h : History} (k : KbcByte) :
      Step h (.kbcByte k) (h.withDevices { h.devices with kbc := h.devices.kbc ++ [k] })
  | serialIntr {h : History} {cs : List (BitVec 32)} {e : Devices} {t : Input} :
      SerialGives h.devices cs e → Settles (fun n => Jos.serialIntr n h.input) (.ok t) →
      Step h .serialIntr { h.deliver (delivered cs) with input := t }
  | kbdIntr {h : History} {cs : List (BitVec 32)} {e : Devices} {t : Input} :
      Gives kbdProcData h.devices cs e → Settles (fun n => Jos.kbdIntr n h.input) (.ok t) →
      Step h .kbdIntr { h.deliver (delivered cs) with input := t }
  | consGetc {h : History} {cs ds : List (BitVec 32)} {e f : Devices} {c : BitVec 32} {t : Input} :
      SerialGives h.devices cs e → Gives kbdProcData e ds f →
      Settles (fun n => Jos.consGetc n h.input) (.ok (c, t)) →
      Step h (.consGetc c) ({ h.deliver (delivered cs ++ delivered ds) with input := t }.read c)

/-- At most `CONSBUFSIZE - 1` bytes are unread in the step from `h` to `g`, the one that a read
takes among them. -/
def HasRoom (h : History) (_ : Action) (g : History) : Prop :=
  g.delivered.length ≤ h.returned.length + (consBufSize - 1)

variable {h g g' : History} {a : Action} {as : List Action}

theorem Step.move (hstep : Step h a g) : Input.Move h.input g.input := by
  cases hstep with
  | serialByte b => exact .serialByte b
  | kbcByte k => exact .kbcByte k
  | serialIntr _ hrun => exact .serialIntr hrun
  | kbdIntr _ hrun => exact .kbdIntr hrun
  | consGetc _ _ hrun =>
    rw [History.read_input]
    exact .consGetc hrun

/-- A step is told by its action, and so is a run by its actions. -/
theorem Step.unique (hstep : Step h a g) (hstep' : Step h a g') : g = g' := by
  cases hstep with
  | serialByte | kbcByte =>
    cases hstep'
    rfl
  | serialIntr hg hrun =>
    cases hstep' with
    | serialIntr hg' hrun' =>
      obtain ⟨rfl, -⟩ := hg.unique hg'
      obtain rfl := Except.ok.inj (hrun.unique hrun')
      rfl
  | kbdIntr hg hrun =>
    cases hstep' with
    | kbdIntr hg' hrun' =>
      obtain ⟨rfl, -⟩ := Gives.unique hg hg'
      obtain rfl := Except.ok.inj (hrun.unique hrun')
      rfl
  | consGetc hserial hkbd hrun =>
    cases hstep' with
    | consGetc hserial' hkbd' hrun' =>
      obtain ⟨rfl, rfl⟩ := hserial.unique hserial'
      obtain ⟨rfl, -⟩ := Gives.unique hkbd hkbd'
      obtain ⟨-, rfl⟩ := Prod.mk.inj (Except.ok.inj (hrun.unique hrun'))
      rfl

theorem arrivals_snoc : arrivals (as ++ [a]) = arrivals as ++ a.arrival.toList := by
  rw [arrivals, List.filterMap_append]
  cases h : a.arrival <;> simp [h, arrivals]

/-- Only what comes to the devices adds to what they have delivered or hold. -/
theorem Step.load_le (hs : h.input.Sound) (hstep : Step h a g) :
    g.load ≤ h.load + a.arrival.toList.length := by
  cases hstep with
  | serialByte b =>
    change h.delivered.length + ((h.devices.uart ++ [b]).length + h.devices.kbc.length) ≤ h.load + 1
    rw [List.length_append, List.length_singleton, History.load, Devices.waiting]
    omega
  | kbcByte k =>
    change h.delivered.length + (h.devices.uart.length + (h.devices.kbc ++ [k]).length) ≤ h.load + 1
    rw [List.length_append, List.length_singleton, History.load, Devices.waiting]
    omega
  | serialIntr hg hrun =>
    obtain rfl := hs.serialIntr_devices hg hrun
    exact History.load_deliver h _ hg.waiting_le
  | kbdIntr hg hrun =>
    obtain rfl := hs.kbdIntr_devices hg hrun
    exact History.load_deliver h _ (kbd_waiting_le hg)
  | consGetc hserial hkbd hrun =>
    obtain rfl := hs.consGetc_devices hserial hkbd hrun
    rw [History.load_read]
    refine History.load_deliver h _ ?_
    have hfirst := hserial.waiting_le
    have hsecond := kbd_waiting_le hkbd
    rw [List.length_append]
    omega

/-! ### Progress -/

theorem exists_serialIntr (hs : h.input.Sound) : ∃ g, Step h .serialIntr g := by
  obtain ⟨xs, hholds⟩ := hs
  obtain ⟨cs, e, hserial⟩ := exists_serialGives h.devices
  obtain ⟨t, ht, -⟩ := hserial.pushes hholds
  exact ⟨_, .serialIntr hserial ht⟩

theorem exists_kbdIntr (hs : h.input.Sound) : ∃ g, Step h .kbdIntr g := by
  obtain ⟨xs, hholds⟩ := hs
  obtain ⟨cs, e, hkbd⟩ := kbd_gives h.devices
  obtain ⟨t, ht, -⟩ := Gives.pushes hkbd hholds
  exact ⟨_, .kbdIntr hkbd ht⟩

theorem exists_consGetc (hs : h.input.Sound) : ∃ c g, Step h (.consGetc c) g := by
  obtain ⟨xs, hholds⟩ := hs
  obtain ⟨cs, e, hserial⟩ := exists_serialGives h.devices
  obtain ⟨ds, f, hkbd⟩ := kbd_gives e
  obtain ⟨c, t, ht, -⟩ := consGetc_pops hserial hkbd hholds rfl
  exact ⟨c, _, .consGetc hserial hkbd ht⟩

/-! ### Runs with few arrivals -/

theorem trace_sound (htrace : Trace Step (.start d) as h) : h.input.Sound :=
  htrace.invariant (I := fun _ h => h.input.Sound) (Input.sound_start d)
    fun _ _ _ _ hs hstep => hstep.move.sound hs

theorem trace_load_le (htrace : Trace Step (.start d) as h) :
    h.load ≤ d.waiting + (arrivals as).length := by
  refine (htrace.invariant (I := fun as h => h.input.Sound ∧
    h.load ≤ d.waiting + (arrivals as).length) ?_ ?_).2
  · exact ⟨Input.sound_start d, Nat.le_of_eq (Nat.zero_add _)⟩
  · rintro as a h g ⟨hs, hload⟩ hstep
    refine ⟨hstep.move.sound hs, ?_⟩
    have hle := hstep.load_le hs
    rw [arrivals_snoc, List.length_append]
    omega

/-- When no more bytes come than fit, there is always room. -/
theorem hasRoom_of_few (hfew : d.waiting + (arrivals as).length ≤ consBufSize - 1) :
    Throughout Step HasRoom (.start d) as := by
  intro bs b t u hbs htrace hstep
  have hload := trace_load_le (htrace.snoc hstep)
  have hlen := (hbs.filterMap Action.arrival).length_le
  have hdel : u.delivered.length ≤ u.load := Nat.le_add_right _ _
  unfold HasRoom
  unfold arrivals at *
  omega

/-! ### The queue -/

/-- The buffer holds what has been delivered and not returned. -/
def Queued (h : History) : Prop :=
  ∃ xs, h.delivered = h.returned ++ xs ∧ h.input.cons.Holds consBufSize xs ∧ 0 ∉ xs

theorem queued_start (d : Devices) : Queued (.start d) :=
  ⟨[], rfl, RingBuffer.holds_nil (by decide), List.not_mem_nil⟩

/-- There is room for what is delivered next. -/
theorem HasRoom.length_lt {bs : List Byte} (hd : h.delivered = h.returned ++ xs)
    (hroom : HasRoom h a g) (hg : g.delivered = h.delivered ++ bs) :
    (xs ++ bs).length < consBufSize := by
  unfold HasRoom at hroom
  rw [hg, hd, List.length_append, List.length_append] at hroom
  rw [List.length_append]
  simp only [consBufSize] at *
  omega

/-- A read returns the oldest byte, or 0 when everything has been returned. -/
theorem Queued.getc (hq : Queued h) (hserial : SerialGives h.devices cs e)
    (hkbd : Gives kbdProcData e ds f)
    (hrun : Settles (fun n => consGetc n h.input) (.ok (c, t)))
    (hg : g = { h.deliver (delivered cs ++ delivered ds) with input := t }.read c)
    (hroom : HasRoom h a g) : Queued g ∧ (c = 0 ↔ g.delivered = h.returned) := by
  obtain ⟨xs, hd, hholds, hnot⟩ := hq
  have hdel : g.delivered = h.delivered ++ (delivered cs ++ delivered ds) := by
    rw [hg, History.read_delivered]
    rfl
  have hlen := hroom.length_lt hd hdel
  have hzero : 0 ∉ xs ++ (delivered cs ++ delivered ds) := by
    simp only [List.mem_append, not_or]
    exact ⟨hnot, hserial.zero_notMem, kbd_zero_notMem hkbd⟩
  rw [← List.append_assoc] at hlen hzero
  obtain ⟨c, t, hget, -, hc⟩ :=
    consGetc_pops hserial hkbd hholds (RingBuffer.latest_of_lt hlen).symm
  obtain ⟨rfl, rfl⟩ := Prod.mk.inj (Except.ok.inj (hrun.unique hget))
  have hall : h.delivered ++ (delivered cs ++ delivered ds) =
      h.returned ++ (xs ++ delivered cs ++ delivered ds) := by
    rw [hd, List.append_assoc, List.append_assoc]
  rw [hdel, hg]
  rcases hc with ⟨rfl, hnil, ht⟩ | ⟨b, ys, rfl, hcons, ht⟩
  · rw [hnil] at hall
    exact ⟨⟨[], hall, ht, List.not_mem_nil⟩, by simp [hall]⟩
  · rw [hcons] at hall hzero
    have hb : (b.setWidth 32 : BitVec 32) ≠ 0 := by
      intro hb
      have : b = 0 := by bv_omega
      simp [this] at hzero
    refine ⟨⟨ys, ?_, ?_, fun hmem => hzero (List.mem_cons_of_mem b hmem)⟩, ?_⟩
    · rw [History.read, if_neg hb]
      simp [History.deliver, hall]
    · rw [History.read, if_neg hb]
      exact ht
    · rw [hall]
      exact iff_of_false hb (by simp)

theorem Queued.poll (hq : Queued h) (hstep : Step h (.consGetc c) g)
    (hroom : HasRoom h (.consGetc c) g) : c = 0 ↔ g.delivered = h.returned := by
  cases hstep with
  | consGetc hserial hkbd hrun => exact (hq.getc hserial hkbd hrun rfl hroom).2

theorem Queued.intr {bs : List Byte} (hq : Queued h)
    (hroom : HasRoom h a { h.deliver bs with input := t }) (hbs : 0 ∉ bs)
    (hrun : ∀ xs, h.input.cons.Holds consBufSize xs → (xs ++ bs).length < consBufSize →
      t.cons.Holds consBufSize (xs ++ bs)) :
    Queued { h.deliver bs with input := t } := by
  obtain ⟨xs, hd, hholds, hnot⟩ := hq
  refine ⟨xs ++ bs, ?_, hrun xs hholds (hroom.length_lt hd rfl), ?_⟩
  · change h.delivered ++ bs = h.returned ++ (xs ++ bs)
    rw [hd, List.append_assoc]
  · simp only [List.mem_append, not_or]
    exact ⟨hnot, hbs⟩

theorem Queued.step (hq : Queued h) (hstep : Step h a g) (hroom : HasRoom h a g) : Queued g := by
  cases hstep with
  | serialByte b => exact hq
  | kbcByte k => exact hq
  | serialIntr hg hrun =>
    refine hq.intr hroom hg.zero_notMem fun xs hholds hlen => ?_
    obtain ⟨t, ht, -, hfill⟩ := hg.fills hholds hlen
    obtain rfl := Except.ok.inj (hrun.unique ht)
    exact hfill
  | kbdIntr hg hrun =>
    refine hq.intr hroom (kbd_zero_notMem hg) fun xs hholds hlen => ?_
    obtain ⟨t, ht, -, hfill⟩ := Gives.fills hg hholds hlen
    obtain rfl := Except.ok.inj (hrun.unique ht)
    exact hfill
  | consGetc hserial hkbd hrun => exact (hq.getc hserial hkbd hrun rfl hroom).1

theorem trace_queued (htrace : Trace Step (.start d) as h)
    (hroom : Throughout Step HasRoom (.start d) as) : Queued h :=
  htrace.invariant_throughout (I := fun _ h => Queued h) hroom (queued_start d)
    fun _ _ _ _ hq hstep hfits => hq.step hstep hfits

/-- In every run in which there is always room, the buffer is a first-in first-out queue: the
positions are in range, what has been returned is the oldest part of what was delivered, a read
for which there is room returns 0 exactly when nothing is left, and no operation fails. -/
theorem console_fifo (d : Devices) (as : List Action) (h : History)
    (htrace : Trace Step (.start d) as h) (hroom : Throughout Step HasRoom (.start d) as) :
    h.input.cons.rpos < consBufSize ∧ h.input.cons.wpos < consBufSize ∧
    h.returned <+: h.delivered ∧
    (∀ c g, Step h (.consGetc c) g → HasRoom h (.consGetc c) g →
      (c = 0 ↔ g.delivered = h.returned)) ∧
    (∃ g, Step h .serialIntr g) ∧ (∃ g, Step h .kbdIntr g) ∧ ∃ c g, Step h (.consGetc c) g := by
  have hq := trace_queued htrace hroom
  have hs := trace_sound htrace
  obtain ⟨xs, hd, hholds, -⟩ := id hq
  exact ⟨hholds.rpos_lt, hholds.wpos_lt, ⟨xs, hd.symm⟩, fun c g => hq.poll, exists_serialIntr hs,
    exists_kbdIntr hs, exists_consGetc hs⟩

/-- Devices at which nothing waits. -/
def Devices.quiet : Devices := ⟨[], true, [], 0, .zeroed 0⟩

/-- A read that finds `k` first. -/
theorem exists_read {k : Byte} {ks : List Byte} (hserial : SerialGives h.devices cs e)
    (hkbd : Gives kbdProcData e ds f) (hholds : h.input.cons.Holds consBufSize xs)
    (hlen : (xs ++ delivered cs ++ delivered ds).length < consBufSize)
    (hks : xs ++ delivered cs ++ delivered ds = k :: ks) (hk : k ≠ 0) :
    ∃ t, Step h (.consGetc (k.setWidth 32))
      ⟨t, h.delivered ++ (delivered cs ++ delivered ds), h.returned ++ [k]⟩ ∧
        t.devices = f ∧ t.cons.Holds consBufSize ks := by
  obtain ⟨c, t, hget, hdev, hc⟩ :=
    consGetc_pops hserial hkbd hholds (RingBuffer.latest_of_lt hlen).symm
  rcases hc with ⟨-, hnil, -⟩ | ⟨b, ys, rfl, hcons, hrest⟩
  · rw [hks] at hnil
    cases hnil
  · obtain ⟨rfl, rfl⟩ := List.cons.inj (hks.symm.trans hcons)
    have hne : (k.setWidth 32 : BitVec 32) ≠ 0 := fun h => hk (by bv_omega)
    have hbyte : ((k.setWidth 32 : BitVec 32).setWidth 8 : Byte) = k := by bv_omega
    have hstep := Step.consGetc hserial hkbd hget
    rw [History.read, if_neg hne, hbyte] at hstep
    exact ⟨t, hstep, hdev, hrest⟩

/-- The keyboard delivers a single key. -/
theorem gives_key {k : Byte} {sh : BitVec 32} (hkbc : d.kbc = [⟨false, k⟩])
    (hb : kbdByte d.shift k = .ok (sh, c)) (hre : ¬ isReboot sh c) (hc : c ≠ -1) :
    Gives kbdProcData d [c] { d with kbc := [], shift := sh } :=
  .more ((Settles.const _).congr (kbdProcData_plain hkbc hb hre)) hc
    (.done ((Settles.const _).congr (kbdProcData_empty rfl)))

/-- An `a` comes to the serial port and the key `b` is pressed, and the first of them is read; then
a `c` comes to the serial port and the key `d` is pressed, and the next one is read. -/
theorem console_fifo_bytes : ∃ h c g, Trace Step (.start .quiet)
    [.serialByte (chr 'a'), .kbcByte ⟨false, 0x30⟩, .consGetc 0x61, .serialByte (chr 'c'),
      .serialIntr, .kbcByte ⟨false, 0x20⟩, .kbdIntr, .consGetc 0x62] h ∧
    h.delivered = lit "abcd" ∧ h.returned = lit "ab" ∧ h.returned <+: h.delivered ∧
    Step h (.consGetc c) g ∧ (c = 0 ↔ g.delivered = h.returned) := by
  let q := Devices.quiet
  let as : List Action :=
    [.serialByte (chr 'a'), .kbcByte ⟨false, 0x30⟩, .consGetc 0x61, .serialByte (chr 'c'),
      .serialIntr, .kbcByte ⟨false, 0x20⟩, .kbdIntr, .consGetc 0x62]
  have hb : kbdByte 0 0x30 = .ok (0, 0x62) := by decide +kernel
  have hd : kbdByte 0 0x20 = .ok (0, 0x64) := by decide +kernel
  -- the first read serves both devices
  obtain ⟨cons, hread, hholds⟩ : ∃ cons, Trace Step (.start q)
      [.serialByte (chr 'a'), .kbcByte ⟨false, 0x30⟩, .consGetc 0x61]
      ⟨⟨q, cons⟩, lit "ab", lit "a"⟩ ∧ cons.Holds consBufSize (lit "b") := by
    have hcome : Trace Step (.start q) [.serialByte (chr 'a'), .kbcByte ⟨false, 0x30⟩]
        ((History.start q).withDevices { q with uart := [chr 'a'], kbc := [⟨false, 0x30⟩] }) :=
      .snoc (.single (.serialByte (chr 'a'))) (.kbcByte ⟨false, 0x30⟩)
    have hserial : SerialGives { q with uart := [chr 'a'], kbc := [⟨false, 0x30⟩] } [0x61]
        { q with kbc := [⟨false, 0x30⟩] } :=
      serial_gives { q with uart := [chr 'a'], kbc := [⟨false, 0x30⟩] }
    have hkey : Gives kbdProcData { q with kbc := [⟨false, 0x30⟩] } [0x62] q :=
      gives_key rfl hb (by decide) (by decide)
    have hnone : (History.start q).input.cons.Holds consBufSize [] :=
      RingBuffer.holds_nil (by decide)
    obtain ⟨⟨_, cons⟩, hstep, rfl, hholds⟩ := exists_read
      (h := (History.start q).withDevices { q with uart := [chr 'a'], kbc := [⟨false, 0x30⟩] })
      hserial hkey hnone (by decide) (show _ = chr 'a' :: lit "b" from rfl) (by decide)
    exact ⟨cons, hcome.snoc hstep, hholds⟩
  -- the interrupts add to what it has left
  obtain ⟨cons, hintr, hholds⟩ : ∃ cons, Trace Step (.start q)
      [.serialByte (chr 'a'), .kbcByte ⟨false, 0x30⟩, .consGetc 0x61, .serialByte (chr 'c'),
        .serialIntr, .kbcByte ⟨false, 0x20⟩, .kbdIntr]
      ⟨⟨q, cons⟩, lit "abcd", lit "a"⟩ ∧ cons.Holds consBufSize (lit "bcd") := by
    have hserial : SerialGives { q with uart := [chr 'c'] } [0x63] q :=
      serial_gives { q with uart := [chr 'c'] }
    have hkey : Gives kbdProcData { q with kbc := [⟨false, 0x20⟩] } [0x64] q :=
      gives_key rfl hd (by decide) (by decide)
    obtain ⟨⟨_, cons'⟩, hfirst, rfl, hholds⟩ :=
      hserial.fills (s := ⟨_, cons⟩) hholds (by decide)
    obtain ⟨⟨_, cons''⟩, hsecond, rfl, hholds⟩ :=
      Gives.fills (s := ⟨_, cons'⟩) hkey hholds (by decide)
    have hserved : Trace Step (.start q)
        [.serialByte (chr 'a'), .kbcByte ⟨false, 0x30⟩, .consGetc 0x61, .serialByte (chr 'c'),
          .serialIntr] ⟨⟨q, cons'⟩, lit "abc", lit "a"⟩ :=
      (hread.snoc (.serialByte (chr 'c'))).snoc
        (Step.serialIntr (h := ⟨⟨_, cons⟩, lit "ab", lit "a"⟩) hserial hfirst :)
    exact ⟨cons'', (hserved.snoc (.kbcByte ⟨false, 0x20⟩)).snoc
      (Step.kbdIntr (h := ⟨⟨_, cons'⟩, lit "abc", lit "a"⟩) hkey hsecond :), hholds⟩
  have hnone : Gives kbdProcData q [] q :=
    .done ((Settles.const _).congr (kbdProcData_empty rfl))
  obtain ⟨t, hsecond, -, -⟩ := exists_read (h := ⟨⟨q, cons⟩, lit "abcd", lit "a"⟩)
    (serial_gives q) hnone hholds (by decide) (show _ = chr 'b' :: lit "cd" from rfl) (by decide)
  have htrace : Trace Step (.start q) as _ := hintr.snoc hsecond
  obtain ⟨-, -, hfifo, hzero, -, -, c, g, hstep⟩ :=
    console_fifo _ _ _ htrace (hasRoom_of_few (by decide))
  have hfew : q.waiting + (arrivals (as ++ [.consGetc c])).length ≤ consBufSize - 1 :=
    show 4 ≤ 511 by decide
  have hroom := (hasRoom_of_few hfew).last htrace hstep
  exact ⟨_, c, g, htrace, rfl, rfl, hfifo, hstep, hzero c g hstep hroom⟩

end Jos
