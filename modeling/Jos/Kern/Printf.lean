import Jos.Kern.Console
import Jos.Lib.Snprintf

/-! `kern/printf.c`: formatted output to the console. -/
namespace Jos

open Prog

def putch (ch : BitVec 32) : BitVec 32 × Console → BitVec 32 × Console
  | (cnt, s) => (cnt + 1, cputchar ch s)

/-- The count that is returned, and the console. -/
def vcprintf (fuel : ℕ) (fmt : List Byte) (ap : VaList) (s : Console) :
    Res (BitVec 32 × Console) :=
  vprintfmt putch fuel fmt ap (0, s)

abbrev cprintf := vcprintf

variable {fmt : List Byte} {ap : VaList} {out : List (BitVec 32)} {s : Console}

theorem emit_putch (cnt : BitVec 32) :
    emit putch out (cnt, s) = (cnt + BitVec.ofNat 32 out.length, emit cputchar out s) := by
  induction out generalizing cnt s with
  | nil => simp
  | cons c out ih =>
    change emit putch out (cnt + 1, cputchar c s) = _
    rw [ih, List.length_cons, Memory.add_ofNat_succ]
    rfl

theorem vcprintf_settles (h : Settles (fun fuel => vprintfmt collect fuel fmt ap []) (.ok out))
    (s : Console) : Settles (fun fuel => vcprintf fuel fmt ap s)
      (.ok (BitVec.ofNat 32 out.length, emit cputchar out s)) := by
  have hrun := (h.view fun out => emit putch out (0, s)).congr
    fun fuel => vprintfmt_eq_emit putch fuel fmt ap _
  have hcnt : (0 : BitVec 32) + BitVec.ofNat 32 out.length = BitVec.ofNat 32 out.length :=
    BitVec.zero_add _
  rwa [emit_putch, hcnt] at hrun

/-- `cprintf` ends, and takes the console from `s` to `t`. -/
def Prints (fmt : List Byte) (ap : VaList) (s t : Console) : Prop :=
  ∃ r, Settles (fun fuel => cprintf fuel (cstr fmt) ap s) (.ok (r, t))

theorem exists_prints (h0 : 0 ∉ fmt) (hfit : Fits (formatArgs fmt) ap) (s : Console) :
    ∃ t, Prints fmt ap s t := by
  obtain ⟨out, -, hout⟩ := vprintfmt_collects h0 hfit fun _ => errorsPrinted
  exact ⟨_, _, vcprintf_settles hout s⟩

/-- A well-typed format prints some characters, and every print function agrees on them:
`vsnprintf` stores those that fit and returns how many there are, as `vcprintf` does. -/
theorem vsnprintf_contract (h0 : 0 ∉ fmt) (hfit : Fits (formatArgs fmt) ap) :
    ∃ out, Settles (fun fuel => vprintfmt collect fuel (cstr fmt) ap []) (.ok out) ∧
      (out.length < 2 ^ 31 → ∃ r : BitVec 32, r.toInt = out.length ∧
        (∀ buf (n : BitVec 32) m, buf ≠ 0 → 1 ≤ n.toInt → buf.toNat + n.toNat ≤ 2 ^ 32 →
          ∃ m', Settles (fun fuel => vsnprintf fuel buf n (cstr fmt) ap m) (.ok (r, m')) ∧
            Truncates out buf n.toNat m m') ∧
        ∀ s, ∃ s', Settles (fun fuel => vcprintf fuel (cstr fmt) ap s) (.ok (r, s'))) ∧
      ∀ buf (n : BitVec 32) m fuel, buf = 0 ∨ n.toInt < 1 →
        vsnprintf fuel buf n (cstr fmt) ap m = .ok (-eInval, m) := by
  obtain ⟨out, -, hout⟩ := vprintfmt_collects h0 hfit fun _ => errorsPrinted
  refine ⟨out, hout, fun hlen => ⟨BitVec.ofNat 32 out.length, ?_, ?_, ?_⟩, ?_⟩
  · rw [BitVec.toInt_eq_toNat_cond, BitVec.toNat_ofNat]
    omega
  · intro buf n m hbuf hn hroom
    exact vsnprintf_settles hout hbuf (by omega) hroom
  · intro s
    exact ⟨_, vcprintf_settles hout s⟩
  · intro buf n m fuel h
    exact vsnprintf_refuses h fuel

theorem vsnprintf_contract_decimal :
    ∃ out, Settles (fun fuel => vprintfmt collect fuel (cstr (lit "%d")) [.int 42] []) (.ok out) ∧
      (out.length < 2 ^ 31 → ∃ r : BitVec 32, r.toInt = out.length ∧
        (∀ buf (n : BitVec 32) m, buf ≠ 0 → 1 ≤ n.toInt → buf.toNat + n.toNat ≤ 2 ^ 32 →
          ∃ m', Settles (fun fuel => vsnprintf fuel buf n (cstr (lit "%d")) [.int 42] m)
            (.ok (r, m')) ∧ Truncates out buf n.toNat m m') ∧
        ∀ s, ∃ s', Settles (fun fuel => vcprintf fuel (cstr (lit "%d")) [.int 42] s)
          (.ok (r, s'))) ∧
      ∀ buf (n : BitVec 32) m fuel, buf = 0 ∨ n.toInt < 1 →
        vsnprintf fuel buf n (cstr (lit "%d")) [.int 42] m = .ok (-eInval, m) :=
  vsnprintf_contract (by decide) ⟨trivial, trivial⟩

end Jos
