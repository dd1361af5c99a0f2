import Jos.Kern.Display
import Jos.Kern.Pmap
import Jos.Kern.Session

/-!
`kern/init.c`, and `cons_init` of `kern/console.c`: from the first instruction in C to the
monitor.
-/
namespace Jos

open Prog

/-- What the kernel keeps in its variables, the console among them. -/
structure KernState where
  editor : Editor
  /-- The format of the first call of `panic`. -/
  panicstr : Option (List Byte)
  serialExists : Bool
  pmap : Pmap

namespace KernState

def setConsole (console : Console) (k : KernState) : KernState :=
  { k with editor := { k.editor with console := console } }

/-- `cprintf`, with its count dropped. -/
def print (fuel : ℕ) (fmt : List Byte) (ap : VaList) (k : KernState) : Res KernState := do
  let (_, console) ← cprintf fuel (cstr fmt) ap k.editor.console
  pure (k.setConsole console)

end KernState

/-! ### Panics -/

/-- Break into the kernel monitor. -/
def dead (syms : KernSyms) (fuel : ℕ) (k : KernState) : Res KernState :=
  loop (fun k => do
    let editor ← monitor syms 0 fuel k.editor
    pure (.inl { k with editor := editor })) fuel k

/-- What `_panic` prints when it is the first one. -/
def panicPrint (fuel : ℕ) (file : List Byte) (line : BitVec 32) (fmt : List Byte) (ap : VaList)
    (k : KernState) : Res KernState := do
  let k := { k with panicstr := some fmt }
  let k ← k.print fuel (lit ">>>\n>>> kernel panic at %s:%d: ") [.str (some (cstr file)), .int line]
  let k ← k.print fuel fmt ap
  k.print fuel (lit "\n>>>\n") []

/-- `_panic`, which does not return. -/
def panic (syms : KernSyms) (fuel : ℕ) (file : List Byte) (line : BitVec 32) (fmt : List Byte)
    (ap : VaList) (k : KernState) : Res KernState := do
  let k ← (if k.panicstr.isSome then pure k else panicPrint fuel file line fmt ap k)
  dead syms fuel k

/-- `_warn`. -/
def warn (fuel : ℕ) (file : List Byte) (line : BitVec 32) (fmt : List Byte) (ap : VaList)
    (k : KernState) : Res KernState := do
  let k ← k.print fuel (lit "kernel warning at %s:%d: ") [.str (some (cstr file)), .int line]
  let k ← k.print fuel fmt ap
  k.print fuel (lit "\n") []

/-! ### Initialization -/

/-- What the kernel is started on, and the polls of the input devices that come to a key or to
nothing. -/
structure Hardware where
  video : Video
  /-- The line status register of the serial port. -/
  lsr : Byte
  cmos : Cmos
  polls : List Byte

/-- `serial_init`. -/
def serialInit (lsr : Byte) (s : Console) : Bool × Console :=
  -- turn off the FIFO
  let s := s.outb (com1 + 2) 0
  -- set speed; requires DLAB latch
  let s := s.outb (com1 + 3) 0x80
  let s := s.outb (com1 + 0) 12
  let s := s.outb (com1 + 1) 0
  let s := s.outb (com1 + 3) (0x03 &&& ~~~0x80)
  -- no modem controls, receive interrupts
  let s := s.outb (com1 + 4) 0
  let s := s.outb (com1 + 1) 0x01
  (lsr ≠ 0xFF, s)

/-- The console before anything is printed. -/
def consInitDevices (hw : Hardware) : Bool × Console := serialInit hw.lsr (cgaInit hw.video).1

/-- `cons_init`; `kbd_init` is empty. The variables are zero until something is stored in them. -/
def consInit (fuel : ℕ) (hw : Hardware) : Res KernState := do
  let (serialExists, console) := consInitDevices hw
  let k : KernState := ⟨⟨fun _ => 0, 0, hw.polls, console⟩, none, serialExists, ⟨0, 0, 0⟩⟩
  if serialExists then pure k else k.print fuel (lit "Serial port does not exist!\n") []

/-- `mem_init` as far as it goes: what comes after the panic is not reached. -/
def memInit (syms : KernSyms) (fuel : ℕ) (cmos : Cmos) (k : KernState) : Res KernState := do
  let (pmap, console) ← i386DetectMemory fuel cmos k.pmap k.editor.console
  let k := { k.setConsole console with pmap := pmap }
  panic syms fuel (lit "kern/pmap.c") 131 (lit "mem_init: This function is not finished\n") [] k

/-- `i386_init`, on variables that the `memset` of the BSS section has cleared. -/
def i386Init (syms : KernSyms) (hw : Hardware) (fuel : ℕ) : Res KernState := do
  let k ← consInit fuel hw
  let k ← k.print fuel (lit "6828 decimal is %o octal!\n") [.int 6828]
  let k ← memInit syms fuel hw.cmos k
  dead syms fuel k

variable {syms : KernSyms} {k : KernState} {file fmt f : List Byte} {ap : VaList} {line : BitVec 32}
  {o : List (BitVec 32)} {hw : Hardware}

/-! ### What is printed -/

/-- What is printed before the message and after it. -/
def panicText (file : List Byte) (line : BitVec 32) (o : List (BitVec 32)) : List (BitVec 32) :=
  chars (lit ">>>\n>>> kernel panic at ") ++ file.map (BitVec.signExtend 32) ++ chars (lit ":") ++
    signedText (line.signExtend 64) {} ++ chars (lit ": ") ++ o ++ chars (lit "\n>>>\n")

theorem Emits.kernel (h : Emits f ap o) (k : KernState) :
    Settles (fun n => k.print n f ap) (.ok (k.setConsole (emit cputchar o k.editor.console))) :=
  (vcprintf_settles h k.editor.console).view fun r => k.setConsole r.2

/-- Of a kernel that has printed before, the rest is as it was. -/
theorem Emits.again (h : Emits f ap o) (k : KernState) (s : Console) :
    Settles (fun n => (k.setConsole s).print n f ap) (.ok (k.setConsole (emit cputchar o s))) :=
  h.kernel (k.setConsole s)

theorem emits_position (head : String) (hhead : ∀ c ∈ lit head, c ≠ 0 ∧ c ≠ chr '%')
    (hfile : 0 ∉ file) (hlen : file.length < 2 ^ 31) (line : BitVec 32) :
    Emits (lit head ++ lit "%s" ++ lit ":" ++ lit "%d" ++ lit ": ")
      [.str (some (cstr file)), .int line]
      (chars (lit head) ++ file.map (BitVec.signExtend 32) ++ chars (lit ":") ++
        signedText (line.signExtend 64) {} ++ chars (lit ": ")) := by
  have hname := ((part_text head hhead).append (.string hfile hlen [])).append
    (part_text ":" (by simp [lit, chr]))
  exact ((hname.append (.signed line)).append (part_text ": " (by simp [lit, chr]))).emits

theorem panicPrint_settles (hfile : 0 ∉ file) (hlen : file.length < 2 ^ 31) (h : Emits fmt ap o)
    (line : BitVec 32) (k : KernState) :
    Settles (fun n => panicPrint n file line fmt ap k)
      (.ok ({ k with panicstr := some fmt }.setConsole
        (emit cputchar (panicText file line o) k.editor.console))) := by
  have hformat : lit ">>>\n>>> kernel panic at %s:%d: " =
      lit ">>>\n>>> kernel panic at " ++ lit "%s" ++ lit ":" ++ lit "%d" ++ lit ": " := by
    simp [lit]
  have hhead := emits_position ">>>\n>>> kernel panic at " (by simp [lit, chr]) hfile hlen line
  rw [← hformat] at hhead
  have htail := (part_text "\n>>>\n" (by simp [lit, chr])).emits
  rw [panicText, emit_append, emit_append]
  exact (hhead.kernel _).bind ((h.again _ _).bind (htail.again _ _))

/-- The kernel as it goes into the monitor: the message of a first panic is on the console. -/
def panicked (file : List Byte) (line : BitVec 32) (fmt : List Byte) (o : List (BitVec 32))
    (k : KernState) : KernState :=
  if k.panicstr.isSome then k
  else { k with panicstr := some fmt }.setConsole
    (emit cputchar (panicText file line o) k.editor.console)

theorem panic_dead (syms : KernSyms) (hfile : 0 ∉ file) (hlen : file.length < 2 ^ 31)
    (h : Emits fmt ap o) (line : BitVec 32) (k : KernState) :
    SettlesAs (fun n => panic syms n file line fmt ap k)
      fun n => dead syms n (panicked file line fmt o k) := by
  unfold panic panicked
  by_cases hsome : k.panicstr.isSome
  · simp only [if_pos hsome]
    exact (Settles.const (.ok k)).bind_as
  · simp only [if_neg hsome]
    exact (panicPrint_settles hfile hlen h line k).bind_as

/-- The kernel stays in the monitor, which takes every key. -/
theorem dead_waits (syms : KernSyms) (k : KernState) :
    ∃ u, Waits syms 0 k.editor u ∧ getchar u.polls = .error .fuel ∧
      u.console = emit cputchar ((shell syms).run .opened (k.editor.polls.filter (· ≠ 0))).out
        k.editor.console ∧
      Settles (fun n => dead syms n k) (.error .fuel) := by
  obtain ⟨u, hu, hkeys⟩ := follows_all syms 0 k.editor
  have hbody : Settles (fun n => monitor syms 0 n k.editor >>= fun editor =>
      (pure (.inl { k with editor := editor }) : Res (KernState ⊕ KernState))) (.error .fuel) :=
    (hu.waits.settles hkeys).bind_error
  exact ⟨u, hu.waits, getchar_none hkeys, hu.console, (LoopSettles.fail hbody).settles⟩

theorem panicked_polls (file : List Byte) (line : BitVec 32) (fmt : List Byte)
    (o : List (BitVec 32)) (k : KernState) :
    (panicked file line fmt o k).editor.polls = k.editor.polls := by
  unfold panicked
  split <;> rfl

/-- The first panic prints its message, a later one nothing; then the kernel is in the monitor,
which takes every key, and it never comes back from there. -/
theorem panic_waits (syms : KernSyms) (hfile : 0 ∉ file) (hlen : file.length < 2 ^ 31)
    (line : BitVec 32) (h0 : 0 ∉ fmt) (hfit : Fits (formatArgs fmt) ap) (k : KernState) :
    ∃ o u, Emits fmt ap o ∧ Waits syms 0 (panicked file line fmt o k).editor u ∧
      getchar u.polls = .error .fuel ∧
      u.console = emit cputchar ((shell syms).run .opened (k.editor.polls.filter (· ≠ 0))).out
        (panicked file line fmt o k).editor.console ∧
      Settles (fun n => panic syms n file line fmt ap k) (.error .fuel) := by
  obtain ⟨o, -, ho⟩ := vprintfmt_collects h0 hfit fun _ => errorsPrinted
  obtain ⟨u, hwaits, hget, hconsole, hdead⟩ := dead_waits syms (panicked file line fmt o k)
  rw [panicked_polls] at hconsole
  exact ⟨o, u, ho, hwaits, hget, hconsole, (panic_dead syms hfile hlen ho line k).settles hdead⟩

/-- A kernel with nothing on its screen and the newline to be read. -/
def KernState.fresh : KernState := ⟨.start 0 [chr '\n'], none, true, ⟨0, 0, 0⟩⟩

theorem panic_waits_fresh : ∃ o u, Emits (lit "%d") [.int 3] o ∧
    Waits ⟨0, 0, 0, 0, 0⟩ 0 (panicked (lit "kern/pmap.c") 7 (lit "%d") o .fresh).editor u ∧
    getchar u.polls = .error .fuel ∧
    u.console = emit cputchar ((shell ⟨0, 0, 0, 0, 0⟩).run .opened
        (KernState.fresh.editor.polls.filter (· ≠ 0))).out
      (panicked (lit "kern/pmap.c") 7 (lit "%d") o .fresh).editor.console ∧
    Settles (fun n => panic ⟨0, 0, 0, 0, 0⟩ n (lit "kern/pmap.c") 7 (lit "%d") [.int 3] .fresh)
      (.error .fuel) :=
  panic_waits _ (by simp [lit]) (by simp [lit]) 7 (by simp [lit])
    (Part.signed 3).fits .fresh

/-- A warning is printed, and the kernel goes on. -/
theorem warn_settles (hfile : 0 ∉ file) (hlen : file.length < 2 ^ 31) (h : Emits fmt ap o)
    (line : BitVec 32) (k : KernState) :
    Settles (fun n => warn n file line fmt ap k)
      (.ok (k.setConsole (emit cputchar (chars (lit "kernel warning at ") ++
        file.map (BitVec.signExtend 32) ++ chars (lit ":") ++ signedText (line.signExtend 64) {} ++
        chars (lit ": ") ++ o ++ chars (lit "\n")) k.editor.console))) := by
  have hformat : lit "kernel warning at %s:%d: " =
      lit "kernel warning at " ++ lit "%s" ++ lit ":" ++ lit "%d" ++ lit ": " := by
    simp [lit]
  have hhead := emits_position "kernel warning at " (by simp [lit, chr]) hfile hlen line
  rw [← hformat] at hhead
  have htail := (part_text "\n" (by simp [lit, chr])).emits
  rw [emit_append, emit_append]
  exact (hhead.kernel _).bind ((h.again _ _).bind (htail.again _ _))

/-! ### From power on to the monitor -/

/-- What is reported of the memory, in kilobytes. -/
def memoryText (cmos : Cmos) : List (BitVec 32) :=
  let basemem := nvramRead cmos nvramBaseLo
  let totalmem := totalMemory basemem (nvramRead cmos nvramExtLo) (nvramRead cmos nvramExt16Lo * 64)
  chars (lit "Physical memory: ") ++ chars (numeral 10 totalmem.toNat) ++
    chars (lit "K available, base = ") ++ chars (numeral 10 basemem.toNat) ++
    chars (lit "K, extended = ") ++ chars (numeral 10 (totalmem - basemem).toNat) ++
    chars (lit "K\n")

/-- What is printed before the panic. -/
def reportText (hw : Hardware) : List (BitVec 32) :=
  (if hw.lsr = 0xFF then chars (lit "Serial port does not exist!\n") else []) ++
    chars (lit "6828 decimal is 15254 octal!\n") ++ memoryText hw.cmos

/-- What is printed before the monitor. -/
def bootText (hw : Hardware) : List (BitVec 32) :=
  reportText hw ++
    panicText (lit "kern/pmap.c") 131 (chars (lit "mem_init: This function is not finished\n"))

theorem emits_memory (total base ext : BitVec 32) :
    Emits (lit "Physical memory: %uK available, base = %uK, extended = %uK\n")
      [.int total, .int base, .int ext]
      (chars (lit "Physical memory: ") ++ chars (numeral 10 total.toNat) ++
        chars (lit "K available, base = ") ++ chars (numeral 10 base.toNat) ++
        chars (lit "K, extended = ") ++ chars (numeral 10 ext.toNat) ++ chars (lit "K\n")) := by
  have hformat : lit "Physical memory: %uK available, base = %uK, extended = %uK\n" =
      lit "Physical memory: " ++ lit "%u" ++ lit "K available, base = " ++ lit "%u" ++
        lit "K, extended = " ++ lit "%u" ++ lit "K\n" := by simp [lit]
  have hbase : UnsignedBase (chr 'u') 10 := .inl ⟨rfl, rfl⟩
  have htotal := ((part_text "Physical memory: " (by simp [lit, chr])).append
    (.unsigned hbase total)).append (part_text "K available, base = " (by simp [lit, chr]))
  have hbasemem := (htotal.append (.unsigned hbase base)).append
    (part_text "K, extended = " (by simp [lit, chr]))
  rw [hformat]
  exact ((hbasemem.append (.unsigned hbase ext)).append
    (part_text "K\n" (by simp [lit, chr]))).emits

theorem emits_octal : Emits (lit "6828 decimal is %o octal!\n") [.int 6828]
    (chars (lit "6828 decimal is 15254 octal!\n")) := by
  have hnumber := Part.unsigned (.inr (.inl ⟨rfl, rfl⟩) : UnsignedBase (chr 'o') 8) 6828
  have hdigits : numeral (8 : BitVec 32).toNat (6828 : BitVec 32).toNat = lit "15254" := by decide
  have hformat : lit "6828 decimal is %o octal!\n" =
      lit "6828 decimal is " ++ [chr '%', chr 'o'] ++ lit " octal!\n" := by simp [lit, chr]
  have htext : chars (lit "6828 decimal is 15254 octal!\n") = chars (lit "6828 decimal is ") ++
      chars (lit "15254") ++ chars (lit " octal!\n") := by simp [lit, chars]
  rw [hdigits] at hnumber
  rw [hformat, htext]
  exact (((part_text "6828 decimal is " (by simp [lit, chr])).append hnumber).append
    (part_text " octal!\n" (by simp [lit, chr]))).emits

/-- The kernel that `cons_init` leaves. -/
def consInitLeaves (hw : Hardware) : KernState where
  editor := ⟨fun _ => 0, 0, hw.polls, emit cputchar
    (if hw.lsr = 0xFF then chars (lit "Serial port does not exist!\n") else [])
    (consInitDevices hw).2⟩
  panicstr := none
  serialExists := (consInitDevices hw).1
  pmap := ⟨0, 0, 0⟩

theorem consInit_settles (hw : Hardware) :
    Settles (fun n => consInit n hw) (.ok (consInitLeaves hw)) := by
  have habsent := (part_text "Serial port does not exist!\n" (by simp [lit, chr])).emits
  have hexists : (consInitDevices hw).1 = decide (hw.lsr ≠ 0xFF) := rfl
  unfold consInitLeaves consInit
  by_cases hlsr : hw.lsr = 0xFF
  · simp only [hexists, hlsr, ne_eq, not_true_eq_false, decide_false, if_true]
    exact habsent.kernel ⟨⟨fun _ => 0, 0, hw.polls, (consInitDevices hw).2⟩, none, false,
      ⟨0, 0, 0⟩⟩
  · simp only [hexists, hlsr, ne_eq, not_false_eq_true, decide_true, if_true, if_false]
    exact .const _

theorem displays_serialInit {s : Console} (h : s.Displays) (lsr : Byte) :
    (serialInit lsr s).2.Displays := h

theorem detectMemory_prints (cmos : Cmos) (m : Pmap) (s : Console) :
    ∃ m', Settles (fun n => i386DetectMemory n cmos m s)
      (.ok (m', emit cputchar (memoryText cmos) s)) :=
  ⟨_, (vcprintf_settles (emits_memory _ _ _) s).bind (.const _)⟩

/-- The kernel where `mem_init` panics, with what `i386_detect_memory` has found. -/
def atPanic (hw : Hardware) (m : Pmap) : KernState where
  editor := ⟨fun _ => 0, 0, hw.polls, emit cputchar (reportText hw) (consInitDevices hw).2⟩
  panicstr := none
  serialExists := (consInitDevices hw).1
  pmap := m

theorem i386Init_panics (syms : KernSyms) (hw : Hardware) :
    ∃ m, SettlesAs (fun n => i386Init syms hw n) fun n => panic syms n (lit "kern/pmap.c") 131
      (lit "mem_init: This function is not finished\n") [] (atPanic hw m) >>= dead syms n := by
  have hoctal := emits_octal.kernel (consInitLeaves hw)
  obtain ⟨m, hdetect⟩ := detectMemory_prints hw.cmos ⟨0, 0, 0⟩
    (emit cputchar (chars (lit "6828 decimal is 15254 octal!\n"))
      (consInitLeaves hw).editor.console)
  have hkernel : ∀ s, s = emit cputchar (reportText hw) (consInitDevices hw).2 → atPanic hw m =
      ⟨⟨fun _ => 0, 0, hw.polls, s⟩, none, (consInitDevices hw).1, m⟩ := by
    rintro s rfl
    rfl
  refine ⟨m, ?_⟩
  rw [hkernel _ (by rw [reportText, emit_append, emit_append])]
  refine (consInit_settles hw).bind_as.trans (hoctal.bind_as.trans ?_)
  refine (SettlesAs.of_eq fun n => bind_assoc_ok _ _ _).trans ?_
  exact hdetect.bind_as

/-- Whatever the memory, the display and the serial port, the kernel reports the memory, panics
because `mem_init` is not finished, and ends in the monitor, which takes every key. All of it is
on the console and has been sent over the serial port, and nothing else; and the kernel waits
there without an end. -/
theorem i386Init_waits (syms : KernSyms) (hw : Hardware) :
    ∃ e u, e.console = emit cputchar (bootText hw) (consInitDevices hw).2 ∧ Waits syms 0 e u ∧
      getchar u.polls = .error .fuel ∧
      u.console = emit cputchar (bootText hw ++
        ((shell syms).run .opened (hw.polls.filter (· ≠ 0))).out) (consInitDevices hw).2 ∧
      u.console.sent serialPort = (consInitDevices hw).2.sent serialPort ++ (bootText hw ++
        ((shell syms).run .opened (hw.polls.filter (· ≠ 0))).out).flatMap wire ∧
      Settles (fun n => i386Init syms hw n) (.error .fuel) := by
  have hdisplays := displays_serialInit (cgaInit_found hw.video).displays hw.lsr
  have hsends := sends_emit hdisplays (bootText hw ++
    ((shell syms).run .opened (hw.polls.filter (· ≠ 0))).out)
  obtain ⟨m, hinit⟩ := i386Init_panics syms hw
  have hmessage :=
    (part_text "mem_init: This function is not finished\n" (by simp [lit, chr])).emits
  have hpanics := panic_dead syms (show 0 ∉ lit "kern/pmap.c" by simp [lit]) (by simp [lit])
    hmessage 131 (atPanic hw m)
  obtain ⟨u, hwaits, hget, hconsole, hdead⟩ := dead_waits syms (panicked (lit "kern/pmap.c") 131
    (lit "mem_init: This function is not finished\n")
    (chars (lit "mem_init: This function is not finished\n")) (atPanic hw m))
  have hentry : (panicked (lit "kern/pmap.c") 131
      (lit "mem_init: This function is not finished\n")
      (chars (lit "mem_init: This function is not finished\n")) (atPanic hw m)).editor.console =
      emit cputchar (bootText hw) (consInitDevices hw).2 := by
    rw [bootText, emit_append]
    rfl
  have hall : u.console = emit cputchar (bootText hw ++
      ((shell syms).run .opened (hw.polls.filter (· ≠ 0))).out) (consInitDevices hw).2 := by
    rw [hconsole, hentry, emit_append]
    rfl
  refine ⟨_, u, hentry, hwaits, hget, hall, ?_, hinit.settles (hpanics.settles hdead).bind_error⟩
  rw [hall]
  exact hsends.serial

end Jos
