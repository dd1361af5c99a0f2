import Jos.Lib.Strings

/-! `lib/printfmt.c`: the formatter behind every print function. -/
namespace Jos

open Prog

/-- One variadic argument, as the caller passed it. -/
inductive VaArg where
  /-- An `int`, `unsigned`, `long` or `unsigned long`, all of them 32 bits wide. -/
  | int (v : BitVec 32)
  | llong (v : BitVec 64)
  | ptr (v : BitVec 32)
  /-- A `char *`: `NULL`, or the array that it points to. -/
  | str (p : Option (List Byte))
deriving DecidableEq, Repr

abbrev VaList := List VaArg

def vaInt : VaList → Res (BitVec 32 × VaList)
  | .int v :: ap => .ok (v, ap)
  | _ => .error .fault

def vaLlong : VaList → Res (BitVec 64 × VaList)
  | .llong v :: ap => .ok (v, ap)
  | _ => .error .fault

def vaPtr : VaList → Res (BitVec 32 × VaList)
  | .ptr v :: ap => .ok (v, ap)
  | _ => .error .fault

def vaStr : VaList → Res (Option (List Byte) × VaList)
  | .str p :: ap => .ok (p, ap)
  | _ => .error .fault

/-- Get an unsigned int of various possible sizes, depending on `lflag`. -/
def getuint (ap : VaList) (lflag : BitVec 32) : Res (BitVec 64 × VaList) :=
  if (2#32).sle lflag then vaLlong ap
  else do
    let (v, ap) ← vaInt ap
    pure (v.setWidth 64, ap)

/-- Same as `getuint` but signed. -/
def getint (ap : VaList) (lflag : BitVec 32) : Res (BitVec 64 × VaList) :=
  if (2#32).sle lflag then vaLlong ap
  else do
    let (v, ap) ← vaInt ap
    pure (v.signExtend 64, ap)

abbrev maxError : BitVec 32 := 7

/-- `error_string`; the entry without an initializer is `NULL`. -/
def errorString : List (Option (List Byte)) :=
  [none, lit "unspecified error", lit "bad environment", lit "invalid parameter",
    lit "out of memory", lit "out of environments", lit "segmentation fault"]

/-- `error_string[err]`, found at the 32-bit byte offset `4 * err`. -/
def errorEntry (err : BitVec 32) : Res (Option (List Byte)) :=
  match errorString[(4 * err).toNat / 4]? with
  | some p => .ok p
  | none => .error .fault

/-- What the flags of a directive leave in the locals of `vprintfmt`. -/
structure Flags where
  padc : Byte := chr ' '
  width : BitVec 32 := -1
  precision : BitVec 32 := -1
  lflag : BitVec 32 := 0
  altflag : Bool := false
deriving DecidableEq, Repr

/-- Where control is: in the loop over literal text, or at the label `reswitch`. -/
inductive Label where
  | text
  | reswitch (d : Flags)
deriving DecidableEq, Repr

/-- The state of `vprintfmt`; `σ` is what `putdat` points to. -/
structure Scan (σ : Type) where
  fmt : Int
  ap : VaList
  out : σ
  label : Label

section

variable {σ : Type} (putch : BitVec 32 → σ → σ)

/-- `for (; width > 0; width--) putch(c, putdat)`, with the width that is left. -/
def padLoop (c width : BitVec 32) (s : σ) : BitVec 32 × σ :=
  if (0#32).slt width then (0, (List.replicate width.toNat c).foldl (fun s c => putch c s) s)
  else (width, s)

/-- Print a number (base <= 16), the more significant digits first. -/
def printnum : ℕ → BitVec 64 → BitVec 32 → BitVec 32 → BitVec 32 → σ → Res σ
  | 0, _, _, _, _, _ => .error .fuel
  | fuel + 1, num, base, width, padc, s => do
    let s ← (if base.setWidth 64 ≤ num then
        printnum fuel (num / base.setWidth 64) base (width - 1) padc s
      else pure (padLoop putch padc (width - 1) s).2)
    let digit ← peek (lit "0123456789abcdef") (num % base.setWidth 64).toNat
    pure (putch (digit.signExtend 32) s)

/-- The label `number`. -/
def number (fuel : ℕ) (d : Flags) (num : BitVec 64) (base : BitVec 32) (s : σ) : Res σ :=
  printnum putch fuel num base d.width (d.padc.signExtend 32) s

/-- The locals of the loop over the characters of a string. -/
structure Text (σ : Type) where
  pos : ℕ
  precision : BitVec 32
  width : BitVec 32
  out : σ

/-- One pass of that loop. `precision` is counted down only when it was not negative. -/
def textBody (p : List Byte) (altflag : Bool) (t : Text σ) : Res (Text σ ⊕ Text σ) := do
  let b ← peek p t.pos
  let ch : BitVec 32 := b.signExtend 32
  let t := { t with pos := t.pos + 1 }
  if ch = 0 then pure (.inr t)
  else
    let precision := if t.precision.slt 0 then t.precision else t.precision - 1
    let t' := { t with precision := precision }
    if t.precision.slt 0 ∨ (0#32).sle precision then
      let c := if altflag ∧ (ch.slt (chr ' ') ∨ (chr '~' : BitVec 32).slt ch) then chr '?' else ch
      pure (.inl { t' with width := t'.width - 1, out := putch c t'.out })
    else pure (.inr t')

/-- What the case `'s'` prints before the string, with the width that is left. -/
def stringPad (fuel : ℕ) (d : Flags) (p : List Byte) (s : σ) : Res (BitVec 32 × σ) :=
  if (0#32).slt d.width ∧ d.padc ≠ chr '-' then do
    let n ← strnlen fuel p d.precision
    pure (padLoop putch (d.padc.signExtend 32) (d.width - n) s)
  else pure (d.width, s)

/-- The case `'s'`, once `p` is known not to be `NULL`. -/
def string (fuel : ℕ) (d : Flags) (p : List Byte) (s : σ) : Res σ := do
  let (width, s) ← stringPad putch fuel d p s
  let t ← loop (textBody putch p d.altflag) fuel ⟨0, d.precision, width, s⟩
  pure (padLoop putch (chr ' ') t.width t.out).2

/-- The case `'e'`, with `printfmt` given. -/
def errorMessage (printfmt : List Byte → VaList → σ → Res σ) (err : BitVec 32) (s : σ) :
    Res σ := do
  let err := if err.slt 0 then -err else err
  if maxError.sle err then printfmt (cstr (lit "error %d")) [.int err] s
  else
    match ← errorEntry err with
    | none => printfmt (cstr (lit "error %d")) [.int err] s
    | some p => printfmt (cstr (lit "%s")) [.str (cstr p)] s

/-- The label `process_precision`. -/
def Flags.processPrecision (d : Flags) : Flags :=
  if d.width.slt 0 then { d with width := d.precision, precision := -1 } else d

/-- One pass of the loop over the digits of a width: `precision`, `ch` and `fmt`. -/
def digitsBody (f : List Byte) :
    BitVec 32 × BitVec 32 × Int → Res (BitVec 32 × BitVec 32 × Int ⊕ BitVec 32 × Int)
  | (precision, ch, fmt) => do
    let precision := precision * 10 + ch - chr '0'
    let b ← peek f fmt
    let ch : BitVec 32 := b.signExtend 32
    if ch.slt (chr '0') ∨ (chr '9' : BitVec 32).slt ch then pure (.inr (precision, fmt))
    else pure (.inl (precision, ch, fmt + 1))

/-- `for (fmt--; fmt[-1] != '%'; fmt--)`, after its first decrement. -/
def backBody (f : List Byte) (fmt : Int) : Res (Int ⊕ Int) := do
  let b ← peek f (fmt - 1)
  if b = chr '%' then pure (.inr fmt) else pure (.inl (fmt - 1))

/-- The conversions of the `switch`, and its default. `fmt` is past the character `ch`. -/
def convert (printfmt : List Byte → VaList → σ → Res σ) (fuel : ℕ) (f : List Byte) (d : Flags)
    (ch : Byte) (k : Scan σ) : Res (Scan σ) :=
  if ch = chr 'c' then do
    let (c, ap) ← vaInt k.ap
    pure { k with ap := ap, out := putch c k.out, label := .text }
  else if ch = chr 'e' then do
    let (err, ap) ← vaInt k.ap
    let s ← errorMessage printfmt err k.out
    pure { k with ap := ap, out := s, label := .text }
  else if ch = chr 's' then do
    let (p, ap) ← vaStr k.ap
    let s ← string putch fuel d (p.getD (cstr (lit "(null)"))) k.out
    pure { k with ap := ap, out := s, label := .text }
  else if ch = chr 'd' then do
    let (num, ap) ← getint k.ap d.lflag
    let s ← (if num.slt 0 then number putch fuel d (-num) 10 (putch (chr '-') k.out)
      else number putch fuel d num 10 k.out)
    pure { k with ap := ap, out := s, label := .text }
  else if ch = chr 'u' then do
    let (num, ap) ← getuint k.ap d.lflag
    let s ← number putch fuel d num 10 k.out
    pure { k with ap := ap, out := s, label := .text }
  else if ch = chr 'o' then do
    let (num, ap) ← getuint k.ap d.lflag
    let s ← number putch fuel d num 8 k.out
    pure { k with ap := ap, out := s, label := .text }
  else if ch = chr 'p' then do
    let out := putch (chr 'x') (putch (chr '0') k.out)
    let (v, ap) ← vaPtr k.ap
    let s ← number putch fuel d (v.setWidth 64) 16 out
    pure { k with ap := ap, out := s, label := .text }
  else if ch = chr 'x' then do
    let (num, ap) ← getuint k.ap d.lflag
    let s ← number putch fuel d num 16 k.out
    pure { k with ap := ap, out := s, label := .text }
  else if ch = chr '%' then
    pure { k with out := putch (ch.setWidth 32) k.out, label := .text }
  else do
    -- unrecognized: go back to just after the `%` and print from there as text
    let fmt ← loop (backBody f) fuel (k.fmt - 1)
    pure { k with fmt := fmt, out := putch (chr '%') k.out, label := .text }

/-- The flags of the `switch`, and then what is not a flag. -/
def reswitch (printfmt : List Byte → VaList → σ → Res σ) (fuel : ℕ) (f : List Byte) (d : Flags)
    (k : Scan σ) : Res (Scan σ) := do
  let ch ← peek f k.fmt
  let k := { k with fmt := k.fmt + 1 }
  if ch = chr '-' then pure { k with label := .reswitch { d with padc := chr '-' } }
  else if ch = chr '0' then pure { k with label := .reswitch { d with padc := chr '0' } }
  else if chr '1' ≤ ch ∧ ch ≤ chr '9' then do
    let (precision, fmt) ← loop (digitsBody f) fuel (0, ch.setWidth 32, k.fmt)
    let d := { d with precision := precision }
    pure { k with fmt := fmt, label := .reswitch d.processPrecision }
  else if ch = chr '*' then do
    let (precision, ap) ← vaInt k.ap
    let d := { d with precision := precision }
    pure { k with ap := ap, label := .reswitch d.processPrecision }
  else if ch = chr '.' then
    let d := if d.width.slt 0 then { d with width := 0 } else d
    pure { k with label := .reswitch d }
  else if ch = chr '#' then pure { k with label := .reswitch { d with altflag := true } }
  else if ch = chr 'l' then pure { k with label := .reswitch { d with lflag := d.lflag + 1 } }
  else convert putch printfmt fuel f d ch k

/-- Control from one label to the next. -/
def vprintfmtBody (printfmt : List Byte → VaList → σ → Res σ) (fuel : ℕ) (f : List Byte)
    (k : Scan σ) : Res (Scan σ ⊕ σ) :=
  match k.label with
  | .text => do
    let ch ← peek f k.fmt
    let k := { k with fmt := k.fmt + 1 }
    if ch = chr '%' then pure (.inl { k with label := .reswitch {} })
    else if ch = 0 then pure (.inr k.out)
    else pure (.inl { k with out := putch (ch.setWidth 32) k.out })
  | .reswitch d => do
    let k ← reswitch putch printfmt fuel f d k
    pure (.inl k)

/-- Format and print a string. `printfmt` is the same function with its own `va_list`. -/
def vprintfmt : ℕ → List Byte → VaList → σ → Res σ
  | 0, _, _, _ => .error .fuel
  | fuel + 1, f, ap, s =>
    loop (vprintfmtBody putch (vprintfmt fuel) fuel f) fuel ⟨0, ap, s, .text⟩

end

end Jos
