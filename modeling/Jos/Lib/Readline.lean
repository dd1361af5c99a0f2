import Jos.Kern.Printf

/-! `lib/readline.c`, and `getchar` and `iscons` of `kern/console.c`. -/
namespace Jos

open Prog

abbrev bufLen : ℕ := 1024

/-- Wait for a character. The list is what successive calls of `cons_getc` return, 0 when nothing
is there; at its end the loop is still waiting. -/
def getchar : List Byte → Res (BitVec 32 × List Byte)
  | [] => .error .fuel
  | c :: polls => if c = 0 then getchar polls else .ok (c.setWidth 32, polls)

def iscons (_fdnum : BitVec 32) : BitVec 32 := 1

/-- The state of `readline` and of what it works on. -/
structure Editor where
  buf : ℕ → Byte
  i : ℕ
  polls : List Byte
  console : Console

namespace Editor

/-- `buf[i] = c`. -/
def store (s : Editor) (i : ℕ) (c : Byte) : Res Editor :=
  if i < bufLen then .ok { s with buf := Function.update s.buf i c } else .error .fault

def echo (echoing c : BitVec 32) (s : Editor) : Editor :=
  if echoing ≠ 0 then { s with console := cputchar c s.console } else s

/-- An empty line, with the cursor at `pos` of an empty screen. -/
def start (pos : BitVec 16) (polls : List Byte) : Editor := ⟨fun _ => 0, 0, polls, .zeroed pos⟩

/-- The string that starts at `buf`. -/
def line (s : Editor) : List Byte := ((List.range bufLen).map s.buf).takeWhile (· ≠ 0)

end Editor

/-- The pointer that `readline` returns: `none` is `NULL`, `some ()` is `buf`. -/
abbrev BufPtr := Option Unit

/-- What is done with one character. -/
def readlineKey (fuel : ℕ) (echoing c : BitVec 32) (s : Editor) :
    Res (Editor ⊕ BufPtr × Editor) :=
  if c.slt 0 then do
    let (_, console) ← cprintf fuel (cstr (lit "read error: %e\n")) [.int c] s.console
    pure (.inr (none, { s with console := console }))
  else if (c = chr '\x08' ∨ c = chr '\x7f') ∧ 0 < s.i then
    let s := s.echo echoing (chr '\x08')
    pure (.inl { s with i := s.i - 1 })
  else if (chr ' ' : BitVec 32).sle c ∧ s.i < bufLen - 1 then do
    let s ← (s.echo echoing c).store s.i (c.setWidth 8)
    pure (.inl { s with i := s.i + 1 })
  else if c = chr '\n' ∨ c = chr '\r' then do
    let s ← (s.echo echoing (chr '\n')).store s.i 0
    pure (.inr (some (), s))
  else pure (.inl s)

def readlineBody (fuel : ℕ) (echoing : BitVec 32) (s : Editor) :
    Res (Editor ⊕ BufPtr × Editor) := do
  let (c, polls) ← getchar s.polls
  readlineKey fuel echoing c { s with polls := polls }

/-- Read a line into the static buffer, whose contents and count are left from before. -/
def readline (fuel : ℕ) (prompt : Option (List Byte)) (s : Editor) : Res (BufPtr × Editor) := do
  let console ← (match prompt with
    | none => pure s.console
    | some p => do
      let (_, console) ← cprintf fuel (cstr (lit "%s")) [.str p] s.console
      pure console)
  loop (readlineBody fuel (iscons 0)) fuel { s with console := console, i := 0 }

/-! ### What one key does -/

variable {s : Editor} {b : Byte} {n : ℕ}

def isErase (b : Byte) : Bool := b = chr '\x08' ∨ b = chr '\x7f'

def isEnd (b : Byte) : Bool := b = chr '\n' ∨ b = chr '\r'

theorem key_nonneg : ¬ (b.setWidth 32 : BitVec 32).slt 0 := by
  revert b
  decide

theorem key_isErase : ((b.setWidth 32 : BitVec 32) = chr '\x08' ∨
    (b.setWidth 32 : BitVec 32) = chr '\x7f') ↔ isErase b := by
  revert b
  decide

theorem key_isEnd : ((b.setWidth 32 : BitVec 32) = chr '\n' ∨
    (b.setWidth 32 : BitVec 32) = chr '\r') ↔ isEnd b := by
  revert b
  decide

theorem key_printable : (chr ' ' : BitVec 32).sle (b.setWidth 32) ↔ chr ' ' ≤ b := by
  revert b
  decide

theorem key_low : (b.setWidth 32 : BitVec 32).setWidth 8 = b := by
  revert b
  decide

/-- The characters that end a line are neither erasing nor inserted. -/
theorem isEnd_control (h : isEnd b) : ¬ isErase b ∧ ¬ chr ' ' ≤ b := by
  revert b
  decide

theorem Editor.echo_iscons (c : BitVec 32) :
    s.echo (iscons 0) c = { s with console := cputchar c s.console } := if_pos (by decide)

theorem Editor.store_of_lt (h : s.i < bufLen) (c : Byte) (console : Console) :
    Editor.store { s with console := console } s.i c =
      .ok { s with console := console, buf := Function.update s.buf s.i c } := if_pos h

theorem readlineKey_erase (hb : isErase b) (hs : 0 < s.i) :
    readlineKey n (iscons 0) (b.setWidth 32) s =
      .ok (.inl { s with i := s.i - 1, console := cputchar (chr '\x08') s.console }) := by
  simp only [readlineKey, if_neg key_nonneg, key_isErase]
  rw [if_pos ⟨hb, hs⟩, Editor.echo_iscons]
  rfl

theorem readlineKey_insert (herase : ¬ (isErase b ∧ 0 < s.i)) (hb : chr ' ' ≤ b)
    (hs : s.i < bufLen - 1) :
    readlineKey n (iscons 0) (b.setWidth 32) s = .ok (.inl { s with
      buf := Function.update s.buf s.i b, i := s.i + 1,
      console := cputchar (b.setWidth 32) s.console }) := by
  have hlt : s.i < bufLen := by omega
  simp only [readlineKey, if_neg key_nonneg, key_isErase, key_printable]
  rw [if_neg herase, if_pos ⟨hb, hs⟩, Editor.echo_iscons, Editor.store_of_lt hlt, key_low]
  rfl

theorem readlineKey_end (hb : isEnd b) (hs : s.i < bufLen) :
    readlineKey n (iscons 0) (b.setWidth 32) s = .ok (.inr (some (), { s with
      buf := Function.update s.buf s.i 0, console := cputchar (chr '\n') s.console })) := by
  obtain ⟨herase, hprint⟩ := isEnd_control hb
  simp only [readlineKey, if_neg key_nonneg, key_isErase, key_printable, key_isEnd]
  rw [if_neg fun h => herase h.1, if_neg fun h => hprint h.1, if_pos hb, Editor.echo_iscons,
    Editor.store_of_lt hs]
  rfl

theorem readlineKey_ignore (herase : ¬ (isErase b ∧ 0 < s.i))
    (hins : ¬ (chr ' ' ≤ b ∧ s.i < bufLen - 1)) (hend : ¬ isEnd b) :
    readlineKey n (iscons 0) (b.setWidth 32) s = .ok (.inl s) := by
  simp only [readlineKey, if_neg key_nonneg, key_isErase, key_printable, key_isEnd]
  rw [if_neg herase, if_neg hins, if_neg hend]
  rfl

end Jos
