import Jos.Lib.Format

/-! What `printnum` prints: padding and then the digits of the number. -/
namespace Jos

open Prog

variable {σ : Type} {putch : BitVec 32 → σ → σ} {s : σ} {num : BitVec 64}
  {base width padc c : BitVec 32} {b n : ℕ} {out : List (BitVec 32)}

/-- The digits of `n`, most significant first. -/
def numeral (b n : ℕ) : List Byte := (Nat.toDigits b n).map fun c => chr c

/-- What a counted loop prints. -/
def padding (c width : BitVec 32) : List (BitVec 32) :=
  if (0#32).slt width then List.replicate width.toNat c else []

/-- The text of a number in a field. -/
def numberText (b n : ℕ) (width padc : BitVec 32) : List (BitVec 32) :=
  padding padc (width - BitVec.ofNat 32 (numeral b n).length) ++ chars (numeral b n)

/-- How two `int`s compare, by their bits. -/
theorem slt_iff_toNat {v w : BitVec 32} :
    v.slt w ↔ (v.toNat + 2 ^ 31) % 2 ^ 32 < (w.toNat + 2 ^ 31) % 2 ^ 32 := by
  have hv := v.isLt
  have hw := w.isLt
  rw [BitVec.slt_iff_toInt_lt, BitVec.toInt_eq_toNat_cond, BitVec.toInt_eq_toNat_cond]
  omega

@[simp] theorem emit_nil : emit putch [] s = s := rfl

theorem emit_append (a b : List (BitVec 32)) (s : σ) :
    emit putch (a ++ b) s = emit putch b (emit putch a s) :=
  List.foldl_append

@[simp] theorem emit_collect_eq (a : List (BitVec 32)) : emit collect a out = out ++ a := by
  induction a generalizing out with
  | nil => simp
  | cons c a ih =>
    change emit collect a (out ++ [c]) = _
    rw [ih, List.append_assoc]
    rfl

theorem numeral_of_lt (h : n < b) : numeral b n = [chr n.digitChar] := by
  rw [numeral, Nat.toDigits_of_lt_base h]
  rfl

theorem numeral_of_le (hb : 1 < b) (h : b ≤ n) :
    numeral b n = numeral b (n / b) ++ [chr (n % b).digitChar] := by
  rw [numeral, Nat.toDigits_of_base_le hb h, List.map_append]
  rfl

theorem padLoop_snd : (padLoop putch c width s).2 = emit putch (padding c width) s := by
  unfold padLoop padding
  split <;> rfl

theorem peek_digit (hn : n < 16) :
    peek (lit "0123456789abcdef") n = .ok (chr n.digitChar) := by
  have : ∀ n < 16, peek (lit "0123456789abcdef") (n : ℕ) = .ok (chr n.digitChar) := by decide
  exact this n hn

theorem signExtend_digit (hn : n < 16) :
    (chr n.digitChar : Byte).signExtend 32 = (chr n.digitChar : Byte).setWidth 32 := by
  have : ∀ n < 16, (chr (n : ℕ).digitChar : Byte).signExtend 32 =
    (chr n.digitChar : Byte).setWidth 32 := by decide
  exact this n hn

theorem numberText_succ (hb : 1 < b) (h : b ≤ n) :
    numberText b n width padc =
      numberText b (n / b) (width - 1) padc ++ chars [chr (n % b).digitChar] := by
  have hw : width - 1 - BitVec.ofNat 32 (numeral b (n / b)).length =
      width - BitVec.ofNat 32 ((numeral b (n / b)).length + 1) := by
    bv_omega
  rw [numberText, numberText, hw, numeral_of_le hb h, List.length_append, chars, List.map_append,
    ← List.append_assoc]
  rfl

theorem printnum_settles (hlo : 2 ≤ base.toNat) (hhi : base.toNat ≤ 16) :
    Settles (fun fuel => printnum putch fuel num base width padc s)
      (.ok (emit putch (numberText base.toNat num.toNat width padc) s)) := by
  have hbase : (base.setWidth 64).toNat = base.toNat := by
    rw [BitVec.toNat_setWidth]
    omega
  induction hn : num.toNat using Nat.strongRecOn generalizing num width with
  | ind n ih =>
    subst n
    have hmod : (num % base.setWidth 64).toNat = num.toNat % base.toNat := by
      rw [BitVec.toNat_umod, hbase]
    have hlt : num.toNat % base.toNat < 16 := by
      have := Nat.mod_lt num.toNat (show 0 < base.toNat by omega)
      omega
    -- the last digit, after the others have been printed
    have hlast : ∀ t : σ, (peek (lit "0123456789abcdef") (num % base.setWidth 64).toNat >>=
        fun digit => pure (putch (digit.signExtend 32) t)) =
        (.ok (emit putch (chars [chr (num.toNat % base.toNat).digitChar]) t) : Res σ) := by
      intro t
      rw [hmod, peek_digit hlt, ok_bind, signExtend_digit hlt]
      rfl
    by_cases hle : base.toNat ≤ num.toNat
    · have hcond : base.setWidth 64 ≤ num := by
        rw [BitVec.le_def, hbase]
        exact hle
      have hdiv : (num / base.setWidth 64).toNat = num.toNat / base.toNat := by
        rw [BitVec.toNat_udiv, hbase]
      have hsmall : num.toNat / base.toNat < num.toNat := Nat.div_lt_self (by omega) (by omega)
      have hrec := @ih _ hsmall (num / base.setWidth 64) (width - 1) hdiv
      rw [numberText_succ (by omega) hle, emit_append]
      refine Settles.succ (hrec.view (emit putch _)) fun fuel => ?_
      simp only [printnum, if_pos hcond, hlast]
      rfl
    · have hcond : ¬ base.setWidth 64 ≤ num := by
        rw [BitVec.le_def, hbase]
        exact hle
      have hnum := numeral_of_lt (show num.toNat < base.toNat by omega)
      have htext : numberText base.toNat num.toNat width padc =
          padding padc (width - 1) ++ chars [chr (num.toNat % base.toNat).digitChar] := by
        rw [numberText, hnum, Nat.mod_eq_of_lt (by omega)]
        rfl
      rw [htext, emit_append]
      refine Settles.succ (Settles.const _) fun fuel => ?_
      simp only [printnum, if_neg hcond, pure_eq_ok, ok_bind, padLoop_snd]
      exact hlast _

end Jos
