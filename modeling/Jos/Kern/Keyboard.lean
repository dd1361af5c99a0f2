import Jos.Kern.Printf

/-! `kern/console.c`: the serial port and the keyboard as input devices. -/
namespace Jos

open Prog

/-! ### The maps -/

/-- A table with an initial row and further entries; what is not given is 0. -/
def table (row : List Byte) (more : List (Byte × Byte)) (i : Byte) : Byte :=
  (more.lookup i).getD (row.getD i.toNat 0)

abbrev NO : Byte := 0

abbrev SHIFT : BitVec 32 := 1 <<< 0
abbrev CTL : BitVec 32 := 1 <<< 1
abbrev ALT : BitVec 32 := 1 <<< 2
abbrev CAPSLOCK : BitVec 32 := 1 <<< 3
abbrev NUMLOCK : BitVec 32 := 1 <<< 4
abbrev SCROLLLOCK : BitVec 32 := 1 <<< 5
abbrev E0ESC : BitVec 32 := 1 <<< 6

def shiftcode (i : Byte) : BitVec 32 :=
  if i = 0x1D then CTL
  else if i = 0x2A then SHIFT
  else if i = 0x36 then SHIFT
  else if i = 0x38 then ALT
  else if i = 0x9D then CTL
  else if i = 0xB8 then ALT
  else 0

def togglecode (i : Byte) : BitVec 32 :=
  if i = 0x3A then CAPSLOCK
  else if i = 0x45 then NUMLOCK
  else if i = 0x46 then SCROLLLOCK
  else 0

abbrev KEY_HOME : Byte := 0xE0
abbrev KEY_END : Byte := 0xE1
abbrev KEY_UP : Byte := 0xE2
abbrev KEY_DN : Byte := 0xE3
abbrev KEY_LF : Byte := 0xE4
abbrev KEY_RT : Byte := 0xE5
abbrev KEY_PGUP : Byte := 0xE6
abbrev KEY_PGDN : Byte := 0xE7
abbrev KEY_INS : Byte := 0xE8
abbrev KEY_DEL : Byte := 0xE9

def normalmap : Byte → Byte := table
  [NO, 0x1B, chr '1', chr '2', chr '3', chr '4', chr '5', chr '6',
   chr '7', chr '8', chr '9', chr '0', chr '-', chr '=', chr '\x08', chr '\t',
   chr 'q', chr 'w', chr 'e', chr 'r', chr 't', chr 'y', chr 'u', chr 'i',
   chr 'o', chr 'p', chr '[', chr ']', chr '\n', NO, chr 'a', chr 's',
   chr 'd', chr 'f', chr 'g', chr 'h', chr 'j', chr 'k', chr 'l', chr ';',
   0x27, 0x60, NO, chr '\\', chr 'z', chr 'x', chr 'c', chr 'v',
   chr 'b', chr 'n', chr 'm', chr ',', chr '.', chr '/', NO, chr '*',
   NO, chr ' ', NO, NO, NO, NO, NO, NO,
   NO, NO, NO, NO, NO, NO, NO, chr '7',
   chr '8', chr '9', chr '-', chr '4', chr '5', chr '6', chr '+', chr '1',
   chr '2', chr '3', chr '0', chr '.', NO, NO, NO, NO]
  [(0xC7, KEY_HOME), (0x9C, chr '\n'), (0xB5, chr '/'), (0xC8, KEY_UP), (0xC9, KEY_PGUP),
   (0xCB, KEY_LF), (0xCD, KEY_RT), (0xCF, KEY_END), (0xD0, KEY_DN), (0xD1, KEY_PGDN),
   (0xD2, KEY_INS), (0xD3, KEY_DEL)]

def shiftmap : Byte → Byte := table
  [NO, 0x1B, chr '!', chr '@', chr '#', chr '$', chr '%', chr '^',
   chr '&', chr '*', chr '(', chr ')', chr '_', chr '+', chr '\x08', chr '\t',
   chr 'Q', chr 'W', chr 'E', chr 'R', chr 'T', chr 'Y', chr 'U', chr 'I',
   chr 'O', chr 'P', 0x7B, 0x7D, chr '\n', NO, chr 'A', chr 'S',
   chr 'D', chr 'F', chr 'G', chr 'H', chr 'J', chr 'K', chr 'L', chr ':',
   0x22, chr '~', NO, chr '|', chr 'Z', chr 'X', chr 'C', chr 'V',
   chr 'B', chr 'N', chr 'M', chr '<', chr '>', chr '?', NO, chr '*',
   NO, chr ' ', NO, NO, NO, NO, NO, NO,
   NO, NO, NO, NO, NO, NO, NO, chr '7',
   chr '8', chr '9', chr '-', chr '4', chr '5', chr '6', chr '+', chr '1',
   chr '2', chr '3', chr '0', chr '.', NO, NO, NO, NO]
  [(0xC7, KEY_HOME), (0x9C, chr '\n'), (0xB5, chr '/'), (0xC8, KEY_UP), (0xC9, KEY_PGUP),
   (0xCB, KEY_LF), (0xCD, KEY_RT), (0xCF, KEY_END), (0xD0, KEY_DN), (0xD1, KEY_PGDN),
   (0xD2, KEY_INS), (0xD3, KEY_DEL)]

/-- The control character of a letter. -/
def C (x : Char) : Byte := chr x - chr '@'

def ctlmap : Byte → Byte := table
  [NO, NO, NO, NO, NO, NO, NO, NO,
   NO, NO, NO, NO, NO, NO, NO, NO,
   C 'Q', C 'W', C 'E', C 'R', C 'T', C 'Y', C 'U', C 'I',
   C 'O', C 'P', NO, NO, chr '\r', NO, C 'A', C 'S',
   C 'D', C 'F', C 'G', C 'H', C 'J', C 'K', C 'L', NO,
   NO, NO, NO, C '\\', C 'Z', C 'X', C 'C', C 'V',
   C 'B', C 'N', C 'M', NO, NO, C '/', NO, NO]
  [(0x97, KEY_HOME), (0xB5, C '/'), (0xC8, KEY_UP), (0xC9, KEY_PGUP), (0xCB, KEY_LF),
   (0xCD, KEY_RT), (0xCF, KEY_END), (0xD0, KEY_DN), (0xD1, KEY_PGDN), (0xD2, KEY_INS),
   (0xD3, KEY_DEL)]

/-- The map for `charcode[i]`, of which there are four. -/
def charcode (i : BitVec 32) : Res (Byte → Byte) :=
  match [normalmap, shiftmap, ctlmap, ctlmap][i.toNat]? with
  | some m => .ok m
  | none => .error .fault

/-! ### The devices -/

/-- A byte in the output buffer of the keyboard controller, which also serves the mouse. -/
structure KbcByte where
  fromMouse : Bool
  data : Byte
deriving DecidableEq, Repr

/-- What the two input routines read and write. -/
structure Devices where
  /-- What the serial port has received, oldest first. -/
  uart : List Byte
  serialExists : Bool
  /-- What waits in the keyboard controller, oldest first. -/
  kbc : List KbcByte
  shift : BitVec 32
  console : Console

namespace Devices

/-- `inb(COM1+COM_LSR) & COM_LSR_DATA`. -/
def lsrData (d : Devices) : Byte := if d.uart = [] then 0 else 0x01

/-- `inb(COM1+COM_RX)`. -/
def inbRx (d : Devices) : Byte × Devices :=
  match d.uart with
  | [] => (0, d)
  | b :: rest => (b, { d with uart := rest })

abbrev KBS_DIB : Byte := 0x01
abbrev KBS_TERR : Byte := 0x20

/-- `inb(KBSTATP)`, in the two bits that are looked at. -/
def inbStat (d : Devices) : Byte :=
  match d.kbc with
  | [] => 0
  | k :: _ => if k.fromMouse then KBS_DIB ||| KBS_TERR else KBS_DIB

/-- `inb(KBDATAP)`, which makes room for the next byte. -/
def inbData (d : Devices) : Byte × Devices :=
  match d.kbc with
  | [] => (0, d)
  | k :: rest => (k.data, { d with kbc := rest })

end Devices

def serialProcData (_fuel : ℕ) (d : Devices) : Res (BitVec 32 × Devices) :=
  if d.lsrData &&& 0x01 = 0 then .ok (-1, d)
  else
    let (b, d) := d.inbRx
    .ok (b.setWidth 32, d)

/-- The letters are swapped while `CAPSLOCK` is on. -/
def capsSwap (shift c : BitVec 32) : BitVec 32 :=
  if shift &&& CAPSLOCK ≠ 0 then
    if (chr 'a' : BitVec 32).sle c ∧ c.sle (chr 'z') then c + (chr 'A' - chr 'a')
    else if (chr 'A' : BitVec 32).sle c ∧ c.sle (chr 'Z') then c + (chr 'a' - chr 'A')
    else c
  else c

/-- A key is pressed: the shift word it leaves and the character it gives. -/
def kbdPress (shift : BitVec 32) (data : Byte) : Res (BitVec 32 × BitVec 32) := do
  let shift := shift ||| shiftcode data
  let shift := shift ^^^ togglecode data
  let map ← charcode (shift &&& (CTL ||| SHIFT))
  pure (shift, capsSwap shift ((map data).setWidth 32))

/-- What a byte from the keyboard means: the shift word it leaves, and the character or 0. -/
def kbdByte (shift : BitVec 32) (data : Byte) : Res (BitVec 32 × BitVec 32) :=
  if data = 0xE0 then pure (shift ||| E0ESC, 0)
  else if data &&& 0x80 ≠ 0 then
    let data := if shift &&& E0ESC ≠ 0 then data else data &&& 0x7F
    pure (shift &&& ~~~(shiftcode data ||| E0ESC), 0)
  else if shift &&& E0ESC ≠ 0 then kbdPress (shift &&& ~~~E0ESC) (data ||| 0x80)
  else kbdPress shift data

/-- Ctrl-Alt-Del. A release and an escape return before this is looked at. -/
def isReboot (shift c : BitVec 32) : Bool :=
  ~~~shift &&& (CTL ||| ALT) = 0 ∧ c = KEY_DEL.setWidth 32

def kbdProcData (fuel : ℕ) (d : Devices) : Res (BitVec 32 × Devices) :=
  let stat := d.inbStat
  if stat &&& Devices.KBS_DIB = 0 then pure (-1, d)
  else if stat &&& Devices.KBS_TERR ≠ 0 then pure (-1, d)
  else do
    let (data, d) := d.inbData
    let (shift, c) ← kbdByte d.shift data
    let d := { d with shift := shift }
    if isReboot shift c then do
      let (_, console) ← cprintf fuel (cstr (lit "Rebooting!\n")) [] d.console
      pure (c, { d with console := console.outb 0x92 0x3 })
    else pure (c, d)

variable {shift sh c : BitVec 32} {b : Byte} {d : Devices} {rest : List KbcByte}

/-! ### What a byte from the keyboard gives -/

/-- The index into `charcode` is in range, whatever the shift word. -/
theorem charcode_total (shift : BitVec 32) : ∃ m, charcode (shift &&& (CTL ||| SHIFT)) = .ok m := by
  have hlt : (shift &&& (CTL ||| SHIFT)).toNat < 4 := by
    have h3 : (CTL ||| SHIFT).toNat = 3 := rfl
    have := Nat.and_le_right (n := shift.toNat) (m := 3)
    rw [BitVec.toNat_and, h3]
    omega
  unfold charcode
  rw [List.getElem?_eq_getElem (by simpa using hlt)]
  exact ⟨_, rfl⟩

theorem capsSwap_lt (shift : BitVec 32) (b : Byte) :
    (capsSwap shift (b.setWidth 32)).toNat < 256 := by
  unfold capsSwap
  by_cases h : shift &&& CAPSLOCK ≠ 0
  · rw [if_pos h]
    revert b
    decide
  · rw [if_neg h]
    revert b
    decide

/-- A key that is pressed sets its modifier and toggles its lock. -/
theorem kbdPress_ok (shift : BitVec 32) (b : Byte) :
    ∃ c, kbdPress shift b = .ok ((shift ||| shiftcode b) ^^^ togglecode b, c) ∧ c.toNat < 256 := by
  obtain ⟨m, hm⟩ := charcode_total ((shift ||| shiftcode b) ^^^ togglecode b)
  refine ⟨capsSwap ((shift ||| shiftcode b) ^^^ togglecode b) ((m b).setWidth 32), ?_,
    capsSwap_lt _ _⟩
  simp only [kbdPress, hm, ok_bind]
  rfl

/-- Every byte is understood, and what it gives is a character or 0. -/
theorem kbdByte_total (shift : BitVec 32) (b : Byte) :
    ∃ sh c, kbdByte shift b = .ok (sh, c) ∧ c.toNat < 256 := by
  unfold kbdByte
  split
  · exact ⟨_, _, rfl, by decide⟩
  split
  · exact ⟨_, _, rfl, by decide⟩
  split
  · exact ⟨_, kbdPress_ok _ _⟩
  · exact ⟨_, kbdPress_ok _ _⟩

theorem reboot_settles (console : Console) :
    ∃ r con, Settles (fun n => cprintf n (cstr (lit "Rebooting!\n")) [] console)
      (.ok (r, con)) := by
  have h0 : 0 ∉ lit "Rebooting!\n" := by decide
  have hfit : Fits (formatArgs (lit "Rebooting!\n")) [] := trivial
  obtain ⟨o, -, ho⟩ := vprintfmt_collects h0 hfit fun h => absurd h (by decide)
  exact ⟨_, _, vcprintf_settles ho console⟩

/-- A byte from the keyboard is read, and the message is printed when it reboots the machine. -/
theorem kbdProcData_data (hk : d.kbc = ⟨false, b⟩ :: rest) (hb : kbdByte d.shift b = .ok (sh, c))
    (n : ℕ) : kbdProcData n d =
      if isReboot sh c then
        cprintf n (cstr (lit "Rebooting!\n")) [] d.console >>= fun p =>
          .ok (c, { d with kbc := rest, shift := sh, console := p.2.outb 0x92 0x3 })
      else .ok (c, { d with kbc := rest, shift := sh }) := by
  have hstat : d.inbStat = Devices.KBS_DIB := by
    simp only [Devices.inbStat, hk]
    rfl
  have hdata : d.inbData = (b, { d with kbc := rest }) := by
    simp only [Devices.inbData, hk]
  have hdib : ¬ Devices.KBS_DIB &&& Devices.KBS_DIB = 0 := by decide
  have hterr : ¬ Devices.KBS_DIB &&& Devices.KBS_TERR ≠ 0 := by decide
  simp only [kbdProcData, hstat, hdata, if_neg hdib, if_neg hterr, hb, ok_bind]
  rfl

/-- A byte that does not reboot the machine prints nothing. -/
theorem kbdProcData_plain (hk : d.kbc = ⟨false, b⟩ :: rest)
    (hb : kbdByte d.shift b = .ok (sh, c)) (hre : ¬ isReboot sh c) (n : ℕ) :
    kbdProcData n d = .ok (c, { d with kbc := rest, shift := sh }) :=
  (kbdProcData_data hk hb n).trans (if_neg hre)

/-- A byte from the keyboard gives its character. -/
theorem kbdProcData_key (hk : d.kbc = ⟨false, b⟩ :: rest) (hb : kbdByte d.shift b = .ok (sh, c)) :
    ∃ con, Settles (fun n => kbdProcData n d)
      (.ok (c, { d with kbc := rest, shift := sh, console := con })) := by
  by_cases hre : isReboot sh c
  · obtain ⟨r, con, hprint⟩ := reboot_settles d.console
    exact ⟨con.outb 0x92 0x3, (hprint.bind (Settles.const _)).congr fun n =>
      (kbdProcData_data hk hb n).trans (if_pos hre)⟩
  · exact ⟨d.console, (Settles.const _).congr (kbdProcData_plain hk hb hre)⟩

/-- With nothing in the controller there is no data. -/
theorem kbdProcData_empty (hk : d.kbc = []) (n : ℕ) : kbdProcData n d = .ok (-1, d) := by
  simp only [kbdProcData, Devices.inbStat, hk]
  rfl

/-- A byte from the mouse is left where it is. -/
theorem kbdProcData_mouse (hk : d.kbc = ⟨true, b⟩ :: rest) (n : ℕ) :
    kbdProcData n d = .ok (-1, d) := by
  simp only [kbdProcData, Devices.inbStat, hk]
  rfl

/-- What the keyboard gives is -1, or a character or 0 for one byte. -/
theorem kbdProcData_cases {e : Devices} (h : Settles (fun n => kbdProcData n d) (.ok (c, e))) :
    c = -1 ∧ e = d ∨
      c.toNat < 256 ∧ e.uart = d.uart ∧ ∃ k, d.kbc = k :: e.kbc := by
  rcases hk : d.kbc with _ | ⟨⟨m, b⟩, rest⟩
  · have hn := (Settles.const _).congr (kbdProcData_empty hk)
    exact .inl (Prod.mk.inj (Except.ok.inj (h.unique hn)))
  · cases m with
    | true =>
      have hn := (Settles.const _).congr (kbdProcData_mouse hk)
      exact .inl (Prod.mk.inj (Except.ok.inj (h.unique hn)))
    | false =>
      obtain ⟨sh, c', hb, hlt⟩ := kbdByte_total d.shift b
      obtain ⟨con, hkey⟩ := kbdProcData_key hk hb
      obtain ⟨rfl, rfl⟩ := Prod.mk.inj (Except.ok.inj (h.unique hkey))
      exact .inr ⟨hlt, rfl, _, rfl⟩

theorem kbdProcData_range {e : Devices} (h : Settles (fun n => kbdProcData n d) (.ok (c, e))) :
    c = -1 ∨ c.toNat < 256 := by
  rcases kbdProcData_cases h with ⟨hend, -⟩ | ⟨hlt, -⟩
  · exact .inl hend
  · exact .inr hlt

theorem serialProcData_empty (hd : d.uart = []) (n : ℕ) : serialProcData n d = .ok (-1, d) := by
  simp only [serialProcData, Devices.lsrData, hd]
  rfl

theorem serialProcData_byte {us : List Byte} (hd : d.uart = b :: us) (n : ℕ) :
    serialProcData n d = .ok (b.setWidth 32, { d with uart := us }) := by
  have hlsr : d.lsrData = 0x01 := by rw [Devices.lsrData, hd, if_neg (List.cons_ne_nil b us)]
  have hready : ¬ (0x01 : Byte) &&& 0x01 = 0 := by decide
  simp only [serialProcData, hlsr, if_neg hready, Devices.inbRx, hd]

end Jos
