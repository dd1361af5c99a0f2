import Jos.Kern.Mouse
import Jos.Kern.Typing
import Jos.Prog.Merge

/-! What the polls return when bytes come from the serial port and from the keyboard. -/
namespace Jos

open Prog

variable {proc : Proc} {d e f : Devices} {cs ds : List (BitVec 32)} {c sh : BitVec 32} {b : Byte}
  {us : List Byte} {ks : List KbcByte}

/-! ### The serial port -/

theorem delivered_append (cs ds : List (BitVec 32)) :
    delivered (cs ++ ds) = delivered cs ++ delivered ds := by
  rw [delivered, List.filter_append, List.map_append]
  rfl

theorem delivered_serial (us : List Byte) :
    delivered (us.map (·.setWidth 32)) = us.filter (· ≠ 0) := by
  induction us with
  | nil => rfl
  | cons u us ih =>
    by_cases hu : u = 0
    · subst hu
      rw [List.filter_cons_of_neg (by simp), ← ih]
      rfl
    · have hne : (u.setWidth 32 : BitVec 32) ≠ 0 := fun h => hu (by bv_omega)
      have hbyte : ((u.setWidth 32 : BitVec 32).setWidth 8 : Byte) = u := by bv_omega
      rw [List.map_cons, delivered_cons hne, ih, hbyte, List.filter_cons_of_pos (by simpa using hu)]

/-- What a serial port has to say, if there is one. -/
def serialText (present : Bool) (us : List Byte) : List Byte :=
  if present then us.filter (· ≠ 0) else []

/-- What is left at the serial port when it has been served. -/
def serialLeft (present : Bool) (us : List Byte) : List Byte := if present then [] else us

theorem serialText_append (present : Bool) (us vs : List Byte) :
    serialText present (us ++ vs) = serialText present us ++ serialText present vs := by
  cases present with
  | true => exact List.filter_append us vs
  | false => rfl

theorem serial_split (present : Bool) (us : List Byte) : ∃ vs, us = vs ++ serialLeft present us ∧
    serialText present vs = serialText present us ∧
    serialText present (serialLeft present us) = [] := by
  cases present with
  | true => exact ⟨us, (List.append_nil us).symm, rfl, rfl⟩
  | false => exact ⟨[], rfl, rfl, rfl⟩

theorem SerialGives.eq (h : SerialGives d cs e) : delivered cs = serialText d.serialExists d.uart ∧
    e = { d with uart := serialLeft d.serialExists d.uart } := by
  unfold SerialGives at h
  by_cases hex : d.serialExists
  · rw [if_pos hex] at h
    obtain ⟨rfl, rfl⟩ := h.unique (serial_gives d)
    rw [hex]
    exact ⟨delivered_serial d.uart, rfl⟩
  · rw [if_neg hex] at h
    obtain ⟨rfl, he⟩ := h
    have hno := eq_false_of_ne_true hex
    have hleft : serialLeft d.serialExists d.uart = d.uart := by rw [hno]; rfl
    have htext : serialText d.serialExists d.uart = [] := by rw [hno]; rfl
    rw [hleft, htext]
    exact ⟨rfl, he⟩

/-! ### The keyboard -/

/-- The same devices, at which these bytes wait. -/
def Devices.holding (d : Devices) (us : List Byte) (ks : List KbcByte) : Devices :=
  { d with uart := us, kbc := ks }

/-- The console when the machine is told to reboot. -/
def rebooted (s : Console) : Console :=
  (emit cputchar (chars (lit "Rebooting!\n")) s).outb 0x92 0x3

theorem emits_rebooting : Emits (lit "Rebooting!\n") [] (chars (lit "Rebooting!\n")) :=
  (part_text "Rebooting!\n" (by simp [lit, chr])).emits

theorem kbdProcData_reboot (hk : d.kbc = ⟨false, b⟩ :: ks) (hb : kbdByte d.shift b = .ok (sh, c))
    (hre : isReboot sh c) : Settles (fun n => kbdProcData n d)
      (.ok (c, { d with kbc := ks, shift := sh, console := rebooted d.console })) := by
  obtain ⟨r, hprint⟩ := emits_rebooting.prints d.console
  refine (hprint.view fun p =>
    (c, { d with kbc := ks, shift := sh, console := p.2.outb 0x92 0x3 })).congr fun n => ?_
  exact (kbdProcData_data hk hb n).trans (if_pos hre)

/-- What a byte from the keyboard does, whatever waits behind it and at the serial port. -/
theorem kbdProcData_holding (hb : kbdByte d.shift b = .ok (sh, c)) (us : List Byte)
    (ks : List KbcByte) : Settles (fun n => kbdProcData n (d.holding us (⟨false, b⟩ :: ks)))
      (.ok (c, { d.holding us ks with
        shift := sh, console := if isReboot sh c then rebooted d.console else d.console })) := by
  have hk : (d.holding us (⟨false, b⟩ :: ks)).kbc = ⟨false, b⟩ :: ks := rfl
  by_cases hre : isReboot sh c
  · rw [if_pos hre]
    exact kbdProcData_reboot hk hb hre
  · rw [if_neg hre]
    exact (Settles.const _).congr (kbdProcData_plain hk hb hre)

theorem Gives.of_blocked (h : Gives kbdProcData d cs e) (hblocked : Blocked d.kbc) :
    cs = [] ∧ e = d := by
  obtain ⟨hcs, he⟩ := hblocked.gives.unique h
  exact ⟨hcs.symm, he.symm⟩

/-- The first key is taken, whatever the driver does after it. -/
theorem Gives.key (h : Gives kbdProcData d cs e) (hk : d.kbc = ⟨false, b⟩ :: ks)
    (hb : kbdByte d.shift b = .ok (sh, c)) : ∃ ds, cs = c :: ds ∧ c ≠ -1 ∧
      Gives kbdProcData { d with
        kbc := ks
        shift := sh
        console := if isReboot sh c then rebooted d.console else d.console } ds e := by
  have hne : c ≠ -1 := by
    rintro rfl
    obtain ⟨sh', c', hb', hlt⟩ := kbdByte_total d.shift b
    obtain ⟨-, rfl⟩ := Prod.mk.inj (Except.ok.inj (hb'.symm.trans hb))
    exact absurd hlt (by decide)
  have hkey := kbdProcData_holding hb d.uart ks
  have hd : d.holding d.uart (⟨false, b⟩ :: ks) = d := by rw [Devices.holding, ← hk]
  rw [hd] at hkey
  cases h with
  | done hend =>
    obtain ⟨rfl, -⟩ := Prod.mk.inj (Except.ok.inj (hend.unique hkey))
    exact absurd rfl hne
  | more hc _ hrest =>
    obtain ⟨rfl, rfl⟩ := Prod.mk.inj (Except.ok.inj (hc.unique hkey))
    exact ⟨_, rfl, hne, hrest⟩

/-- What the keyboard delivers does not depend on how much of it is served at once: what is
waiting when the driver has ended is a byte of the mouse and what follows it, and the driver goes
on from where it ended. -/
theorem Gives.goes_on (h : Gives kbdProcData d cs e) : ∃ ks, d.kbc = ks ++ e.kbc ∧
    Blocked e.kbc ∧ e = { d with kbc := e.kbc, shift := e.shift, console := e.console } ∧
    ∀ us ls ds f, Gives kbdProcData (e.holding us ls) ds f →
      Gives kbdProcData (d.holding us (ks ++ ls)) (cs ++ ds) f := by
  induction hk : d.kbc generalizing d cs with
  | nil =>
    have hblocked : Blocked d.kbc := by simp [Blocked, hk]
    obtain ⟨rfl, rfl⟩ := h.of_blocked hblocked
    exact ⟨[], hk.symm, hblocked, rfl, fun us ls ds f hg => hg⟩
  | cons k ks ih =>
    obtain ⟨m, b⟩ := k
    cases m with
    | true =>
      have hblocked : Blocked d.kbc := by simp [Blocked, hk]
      obtain ⟨rfl, rfl⟩ := h.of_blocked hblocked
      exact ⟨[], hk.symm, hblocked, rfl, fun us ls ds f hg => hg⟩
    | false =>
      obtain ⟨sh, c, hb, -⟩ := kbdByte_total d.shift b
      obtain ⟨later, rfl, hne, hrest⟩ := h.key hk hb
      obtain ⟨keys, hkeys, hblocked, he, hgo⟩ := ih hrest rfl
      refine ⟨⟨false, b⟩ :: keys, ?_, hblocked, he, fun us ls ds f hg => ?_⟩
      · exact congrArg (⟨false, b⟩ :: ·) hkeys
      · exact .more (kbdProcData_holding hb us (keys ++ ls)) hne (hgo us ls ds f hg)

/-! ### Both devices -/

/-- Of the bytes that have come to the devices `d`, those before what still waits in `w` have been
served, and `out` is all that was delivered of them. -/
structure Served (d : Devices) (us : List Byte) (ks : List KbcByte) (w : Devices)
    (out : List Byte) : Prop where
  exists_eq : w.serialExists = d.serialExists
  merged : ∃ taken early cs, us = taken ++ w.uart ∧ ks = early ++ w.kbc ∧
    Gives kbdProcData (d.holding d.uart early) cs
      { d with kbc := [], shift := w.shift, console := w.console } ∧
    Merges (serialText d.serialExists taken) (delivered cs) out

variable {w : Devices} {out : List Byte}

theorem served_start (d : Devices) : Served d d.uart d.kbc d [] where
  exists_eq := rfl
  merged := by
    have hnone : Blocked (d.holding d.uart []).kbc := by simp [Blocked, Devices.holding]
    refine ⟨[], [], [], rfl, rfl, hnone.gives, ?_⟩
    rw [serialText, List.filter_nil, ite_self]
    exact .nil

theorem Served.serialByte (hs : Served d us ks w out) (b : Byte) :
    Served d (us ++ [b]) ks { w with uart := w.uart ++ [b] } out := by
  obtain ⟨taken, early, cs, hus, hks, hg, hm⟩ := hs.merged
  exact ⟨hs.exists_eq, taken, early, cs, by rw [hus, List.append_assoc], hks, hg, hm⟩

theorem Served.kbcByte (hs : Served d us ks w out) (k : KbcByte) :
    Served d us (ks ++ [k]) { w with kbc := w.kbc ++ [k] } out := by
  obtain ⟨taken, early, cs, hus, hks, hg, hm⟩ := hs.merged
  exact ⟨hs.exists_eq, taken, early, cs, hus, by rw [hks, List.append_assoc], hg, hm⟩

theorem Served.serialIntr (hs : Served d us ks w out) (h : SerialGives w cs e) :
    Served d us ks e (out ++ delivered cs) := by
  obtain ⟨taken, early, ds, hus, hks, hg, hm⟩ := hs.merged
  obtain ⟨hcs, rfl⟩ := h.eq
  obtain ⟨vs, hvs, htext, -⟩ := serial_split w.serialExists w.uart
  refine ⟨hs.exists_eq, taken ++ vs, early, ds, ?_, hks, hg, ?_⟩
  · rw [hus, List.append_assoc, ← hvs]
  · rw [hcs, ← htext, hs.exists_eq, serialText_append]
    exact hm.append_left _

theorem Served.kbdIntr (hs : Served d us ks w out) (h : Gives kbdProcData w ds e) :
    Served d us ks e (out ++ delivered ds) := by
  obtain ⟨taken, early, cs, hus, hks, hg, hm⟩ := hs.merged
  obtain ⟨keys, hkeys, hblocked, he, hgo⟩ := h.goes_on
  obtain ⟨first, hfirst, -, -, hon⟩ := hg.goes_on
  have hearly : first = early := by simpa [Devices.holding] using hfirst.symm
  subst hearly
  have huart : e.uart = w.uart := by rw [he]
  have hex : e.serialExists = d.serialExists := by rw [← hs.exists_eq, he]
  refine ⟨hex, taken, first ++ keys, cs ++ ds, by rw [huart, hus], ?_, ?_, ?_⟩
  · rw [hks, hkeys, List.append_assoc]
  · refine hon d.uart keys ds _ ?_
    have hrest : Blocked (e.holding d.uart []).kbc := by simp [Blocked, Devices.holding]
    have hserve := hgo d.uart [] [] _ hrest.gives
    rw [List.append_nil, List.append_nil, Devices.holding, Devices.holding, hs.exists_eq,
      hex] at hserve
    exact hserve
  · rw [delivered_append]
    exact hm.append_right _

/-- When all that can be served has been, it is as if it had come before a single interrupt. -/
theorem Served.all (hs : Served d us ks w out) (hblocked : Blocked w.kbc)
    (hleft : serialText d.serialExists w.uart = []) : ∃ cs,
    Gives kbdProcData (d.holding d.uart ks) cs
      { d with kbc := w.kbc, shift := w.shift, console := w.console } ∧
    Merges (serialText d.serialExists us) (delivered cs) out := by
  obtain ⟨taken, early, cs, hus, hks, hg, hm⟩ := hs.merged
  obtain ⟨first, hfirst, -, -, hon⟩ := hg.goes_on
  have hearly : first = early := by simpa [Devices.holding] using hfirst.symm
  subst hearly
  refine ⟨cs ++ [], ?_, ?_⟩
  · rw [hks]
    exact hon d.uart w.kbc [] _ (Blocked.gives hblocked)
  · rw [List.append_nil, hus, serialText_append, hleft, List.append_nil]
    exact hm

/-! ### Runs -/

/-- What has come to the keyboard controller. -/
def keyArrivals (as : List Action) : List KbcByte := (arrivals as).filterMap Sum.getLeft?

/-- What has come to the serial port. -/
def serialArrivals (as : List Action) : List Byte := (arrivals as).filterMap Sum.getRight?

variable {h g : History} {a : Action} {as : List Action}

theorem keyArrivals_snoc : keyArrivals (as ++ [a]) = keyArrivals as ++ keyArrivals [a] := by
  rw [keyArrivals, arrivals, List.filterMap_append, List.filterMap_append]
  rfl

theorem serialArrivals_snoc :
    serialArrivals (as ++ [a]) = serialArrivals as ++ serialArrivals [a] := by
  rw [serialArrivals, arrivals, List.filterMap_append, List.filterMap_append]
  rfl

theorem History.read_devices (h : History) (c : BitVec 32) : (h.read c).devices = h.devices := by
  unfold History.read
  split <;> rfl

theorem Served.step (hsound : h.input.Sound) (hs : Served d us ks h.devices h.delivered)
    (hstep : Step h a g) :
    Served d (us ++ serialArrivals [a]) (ks ++ keyArrivals [a]) g.devices g.delivered := by
  cases hstep with
  | serialByte b =>
    change Served d (us ++ [b]) (ks ++ []) _ _
    rw [List.append_nil]
    exact hs.serialByte b
  | kbcByte k =>
    change Served d (us ++ []) (ks ++ [k]) _ _
    rw [List.append_nil]
    exact hs.kbcByte k
  | serialIntr hg hrun =>
    obtain rfl := hsound.serialIntr_devices hg hrun
    change Served d (us ++ []) (ks ++ []) _ _
    rw [List.append_nil, List.append_nil]
    exact hs.serialIntr hg
  | kbdIntr hg hrun =>
    obtain rfl := hsound.kbdIntr_devices hg hrun
    change Served d (us ++ []) (ks ++ []) _ _
    rw [List.append_nil, List.append_nil]
    exact hs.kbdIntr hg
  | consGetc hserial hkbd hrun =>
    obtain rfl := hsound.consGetc_devices hserial hkbd hrun
    change Served d (us ++ []) (ks ++ []) _ _
    have hboth := (hs.serialIntr hserial).kbdIntr hkbd
    rw [List.append_assoc] at hboth
    rw [List.append_nil, List.append_nil, History.read_devices, History.read_delivered]
    exact hboth

theorem trace_served (htrace : Trace Step (.start d) as h) :
    h.input.Sound ∧ h.returned = (polled as).filter (· ≠ 0) ∧
      Served d (d.uart ++ serialArrivals as) (d.kbc ++ keyArrivals as) h.devices h.delivered := by
  refine htrace.invariant (I := fun as h => h.input.Sound ∧
      h.returned = (polled as).filter (· ≠ 0) ∧
      Served d (d.uart ++ serialArrivals as) (d.kbc ++ keyArrivals as) h.devices h.delivered) ?_ ?_
  · refine ⟨Input.sound_start d, rfl, ?_⟩
    rw [show serialArrivals [] = [] from rfl, show keyArrivals [] = [] from rfl, List.append_nil,
      List.append_nil]
    exact served_start d
  · rintro as a h g ⟨hsound, hret, hs⟩ hstep
    refine ⟨hstep.move.sound hsound, ?_, ?_⟩
    · rw [hstep.returned hsound, hret, polled_snoc, List.filter_append]
    · rw [serialArrivals_snoc, keyArrivals_snoc, ← List.append_assoc, ← List.append_assoc]
      exact hs.step hsound hstep

/-- A poll serves both devices. -/
theorem Served.poll (hsound : h.input.Sound) (hs : Served d us ks h.devices h.delivered) :
    ∃ cs f out,
    Gives kbdProcData (d.holding d.uart ks) cs f ∧
    Merges (serialText d.serialExists us) (delivered cs) out ∧ h.delivered <+: out ∧
    ∀ c g, Step h (.consGetc c) g → g.delivered = out ∧ g.devices.shift = f.shift ∧
      g.devices.console = f.console := by
  obtain ⟨cs, e, hserial⟩ := exists_serialGives h.devices
  obtain ⟨ds, f, hkbd⟩ := kbd_gives e
  obtain ⟨keys, -, hblocked, hf, -⟩ := hkbd.goes_on
  have hboth := (hs.serialIntr hserial).kbdIntr hkbd
  have hleft : serialText d.serialExists f.uart = [] := by
    obtain ⟨vs, -, -, hnone⟩ := serial_split h.devices.serialExists h.devices.uart
    rw [hf, hserial.eq.2, ← hs.exists_eq]
    exact hnone
  obtain ⟨all, hg, hm⟩ := hboth.all hblocked hleft
  refine ⟨all, _, _, hg, hm, by rw [List.append_assoc]; exact List.prefix_append _ _, ?_⟩
  intro c g hstep
  cases hstep with
  | consGetc hserial' hkbd' hrun =>
    have hdev := hsound.consGetc_devices hserial' hkbd' hrun
    obtain ⟨rfl, rfl⟩ := hserial.unique hserial'
    obtain ⟨rfl, rfl⟩ := hkbd.unique hkbd'
    have hshift := congrArg Devices.shift hdev
    have hconsole := congrArg Devices.console hdev
    rw [History.read_devices, History.read_delivered, List.append_assoc]
    exact ⟨rfl, hshift, hconsole⟩

/-- However bytes come from the serial port and the keyboard, and however interrupts and polls
fall in between, as long as there is always room: the polls return the bytes of both, those of each
in the order in which they came, and a poll finds nothing only when they have returned all. Whatever
the keyboard gives, it is as if all its bytes had come before a single interrupt. -/
theorem console_merges (htrace : Trace Step (.start d) as h)
    (hroom : Throughout Step HasRoom (.start d) as) : ∃ cs f out,
    Gives kbdProcData { d with kbc := d.kbc ++ keyArrivals as } cs f ∧
    Merges (serialText d.serialExists (d.uart ++ serialArrivals as)) (delivered cs) out ∧
    (polled as).filter (· ≠ 0) <+: out ∧
    ∀ c g, Step h (.consGetc c) g →
      (HasRoom h (.consGetc c) g → (c = 0 ↔ (polled as).filter (· ≠ 0) = out)) ∧
      g.devices.shift = f.shift ∧ g.devices.console = f.console := by
  have hq := trace_queued htrace hroom
  obtain ⟨hsound, hret, hs⟩ := trace_served htrace
  obtain ⟨cs, f, out, hg, hm, hout, hpoll⟩ := hs.poll hsound
  obtain ⟨xs, hxs, -⟩ := id hq
  rw [← hret]
  refine ⟨cs, f, out, hg, hm, ?_, fun c g hstep => ?_⟩
  · exact (hxs ▸ List.prefix_append h.returned xs).trans hout
  · obtain ⟨hdel, hdev⟩ := hpoll c g hstep
    refine ⟨fun hfits => ?_, hdev⟩
    rw [hq.poll hstep hfits, hdel]
    exact eq_comm

/-- The key `b` is pressed after an `a` has come to the serial port. -/
theorem console_merges_two : ∃ h,
    Trace Step (.start .quiet) [.serialByte (chr 'a'), .kbcByte ⟨false, 0x30⟩] h ∧ ∃ cs f out,
      Gives kbdProcData { Devices.quiet with kbc := [⟨false, 0x30⟩] } cs f ∧
      Merges [chr 'a'] (delivered cs) out ∧ [] <+: out ∧
      ∀ c g, Step h (.consGetc c) g → (c = 0 ↔ [] = out) ∧
        g.devices.shift = f.shift ∧ g.devices.console = f.console := by
  let as : List Action := [.serialByte (chr 'a'), .kbcByte ⟨false, 0x30⟩]
  obtain ⟨h, htrace⟩ : ∃ h, Trace Step (.start .quiet) as h :=
    ⟨_, .snoc (.single (.serialByte (chr 'a'))) (.kbcByte ⟨false, 0x30⟩)⟩
  obtain ⟨cs, f, out, hg, hm, hout, hpoll⟩ :=
    console_merges htrace (hasRoom_of_few (show 2 ≤ 511 by decide))
  refine ⟨h, htrace, cs, f, out, hg, hm, hout, fun c g hstep => ?_⟩
  have hfew : Devices.quiet.waiting + (arrivals (as ++ [.consGetc c])).length ≤ consBufSize - 1 :=
    show 2 ≤ 511 by decide
  obtain ⟨hall, hdev⟩ := hpoll c g hstep
  exact ⟨hall ((hasRoom_of_few hfew).last htrace hstep), hdev⟩

end Jos
