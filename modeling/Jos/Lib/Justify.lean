import Jos.Lib.Fields

/-! Number directives with a width: where the padding should stand, and where it does. -/
namespace Jos

open Prog

/-- What may stand before a width. -/
inductive Pad where
  | space | zero | minus
deriving DecidableEq, Repr

def Pad.source : Pad → List Byte
  | .space => []
  | .zero => [chr '0']
  | .minus => [chr '-']

/-- The pad character that it leaves. -/
def Pad.padc : Pad → Byte
  | .space => chr ' '
  | .zero => chr '0'
  | .minus => chr '-'

/-- The directive with the width `W`, `k` long flags and the conversion `c`. -/
def fieldFormat (pad : Pad) (W k : ℕ) (c : Byte) : List Byte :=
  chr '%' :: (pad.source ++ (numeral 10 W ++ (List.replicate k (chr 'l') ++ [c])))

/-- What it leaves in the locals. -/
def fieldFlags (pad : Pad) (W k : ℕ) : Flags where
  padc := pad.padc
  width := BitVec.ofNat 32 W
  lflag := BitVec.ofNat 32 k

variable {f pre post : List Byte} {ap r : VaList} {out o : List (BitVec 32)} {c : Byte} {d : Flags}
  {x : Res (List (BitVec 32))} {pad : Pad} {W k n : ℕ}

/-! ### The scanner on such a directive -/

theorem dash_flag {i n : ℕ} (h : f[i]? = some (chr '-')) :
    pass f n ⟨i, ap, out, .reswitch d⟩ =
      .ok (.inl ⟨(i + 1 : ℕ), ap, out, .reswitch { d with padc := chr '-' }⟩) := by
  simp only [pass, vprintfmtBody, reswitch, peek_of_getElem? h]
  rfl

theorem long_flag {i n : ℕ} (h : f[i]? = some (chr 'l')) :
    pass f n ⟨i, ap, out, .reswitch d⟩ =
      .ok (.inl ⟨(i + 1 : ℕ), ap, out, .reswitch { d with lflag := d.lflag + 1 }⟩) := by
  simp only [pass, vprintfmtBody, reswitch, peek_of_getElem? h]
  rfl

theorem Pad.scan (pad : Pad) (hf : f = pre ++ pad.source ++ post)
    (h : LoopSettles (pass f) ⟨((pre ++ pad.source).length : ℕ), ap, out,
      .reswitch { padc := pad.padc }⟩ x) :
    LoopSettles (pass f) ⟨pre.length, ap, out, .reswitch {}⟩ x := by
  cases pad with
  | space => simpa [source, padc] using h
  | zero =>
    have hget : f[pre.length]? = some (chr '0') := by simp [hf, source]
    refine .next ((Settles.const _).congr fun n => zero_flag hget) ?_
    simpa [source, padc] using h
  | minus =>
    have hget : f[pre.length]? = some (chr '-') := by simp [hf, source]
    refine .next ((Settles.const _).congr fun n => dash_flag hget) ?_
    simpa [source, padc] using h

theorem longs_scan (k : ℕ) (hf : f = pre ++ List.replicate k (chr 'l') ++ post)
    (h : LoopSettles (pass f) ⟨((pre ++ List.replicate k (chr 'l')).length : ℕ), ap, out,
      .reswitch { d with lflag := d.lflag + BitVec.ofNat 32 k }⟩ x) :
    LoopSettles (pass f) ⟨pre.length, ap, out, .reswitch d⟩ x := by
  induction k generalizing pre d with
  | zero => simpa using h
  | succ k ih =>
    have hget : f[pre.length]? = some (chr 'l') := by simp [hf, List.replicate_succ]
    have hf' : f = (pre ++ [chr 'l']) ++ List.replicate k (chr 'l') ++ post := by
      simp [hf, List.replicate_succ]
    have hlflag : d.lflag + BitVec.ofNat 32 (k + 1) = d.lflag + 1 + BitVec.ofNat 32 k :=
      Memory.add_ofNat_succ k
    have hlen : (pre ++ List.replicate (k + 1) (chr 'l')).length =
        ((pre ++ [chr 'l']) ++ List.replicate k (chr 'l')).length := by
      simp [List.replicate_succ]
    rw [hlflag, hlen] at h
    have hnext := ih (d := { d with lflag := d.lflag + 1 }) hf' h
    rw [List.length_append, List.length_singleton] at hnext
    exact .next ((Settles.const _).congr fun n => long_flag hget) hnext

/-- The directive prints what its conversion prints with these flags. -/
theorem fieldFormat_settles (hc : isConversion c) (hW : 0 < W)
    (h : ∀ f (i : Int) l, Settles (fun n =>
      convert collect (vprintfmt collect n) n f (fieldFlags pad W k) c ⟨i, ap, [], l⟩)
      (.ok ⟨i, r, o, .text⟩)) :
    Settles (fun n => vprintfmt collect n (cstr (fieldFormat pad W k c)) ap []) (.ok o) := by
  have hflag := not_isFlag_of_isConversion hc
  have hdigit := mt isFlag_of_isDigit hflag
  let f := cstr (fieldFormat pad W k c)
  let pre := [chr '%'] ++ pad.source ++ numeral 10 W
  have hf : f = pre ++ List.replicate k (chr 'l') ++ c :: [0] := by
    simp [f, pre, cstr, fieldFormat]
  have hget : f[(pre ++ List.replicate k (chr 'l')).length]? = some c := by
    rw [hf, List.getElem?_append_right (Nat.le_refl _), Nat.sub_self]
    rfl
  have hnul : f[(pre ++ List.replicate k (chr 'l')).length + 1]? = some 0 := by
    rw [hf, List.getElem?_append_right (Nat.le_add_right _ 1), Nat.add_sub_cancel_left]
    rfl
  have hconv : LoopSettles (pass f) ⟨((pre ++ List.replicate k (chr 'l')).length : ℕ), ap, [],
      .reswitch (fieldFlags pad W k)⟩ (.ok o) := by
    refine .next (((h f _ _).view Sum.inl).congr fun n => pass_convert hget hflag) ?_
    exact .exit ((Settles.const _).congr fun n => pass_nul hnul)
  have hlongs : LoopSettles (pass f) ⟨(pre.length : ℕ), ap, [],
      .reswitch { padc := pad.padc, width := BitVec.ofNat 32 W }⟩ (.ok o) := by
    have hzero : (0 : BitVec 32) + BitVec.ofNat 32 k = BitVec.ofNat 32 k := BitVec.zero_add _
    refine longs_scan k hf ?_
    rw [hzero]
    exact hconv
  -- what follows the width is a long flag or the conversion
  obtain ⟨b, rest, hrest, hb⟩ : ∃ b rest,
      List.replicate k (chr 'l') ++ c :: [0] = b :: rest ∧ ¬ isDigit b := by
    cases k with
    | zero => exact ⟨c, [0], rfl, hdigit⟩
    | succ k => exact ⟨chr 'l', _, rfl, by decide⟩
  have hfw : f = ([chr '%'] ++ pad.source) ++ numeral 10 W ++ b :: rest := by
    rw [hf, List.append_assoc, hrest]
  have hfp : f = [chr '%'] ++ pad.source ++ (numeral 10 W ++ b :: rest) := by
    rw [hfw, List.append_assoc]
  have hwidth := (Width.numeral W hW).scan pad.padc hb hfw hlongs
  have hrun : LoopSettles (pass f) ⟨0, ap, [], .text⟩ (.ok o) :=
    .next ((Settles.const _).congr fun n => pass_percent (i := 0) (by simp [hfp]))
      (pad.scan hfp hwidth)
  exact hrun.settles.succ fun n => rfl

/-! ### Signed fields -/

/-- The argument of `%d`, `%ld` or `%lld`, and its value. -/
inductive SignedArg : ℕ → VaArg → Int → Prop
  | int (v : BitVec 32) : SignedArg 0 (.int v) v.toInt
  | long (v : BitVec 32) : SignedArg 1 (.int v) v.toInt
  | llong (v : BitVec 64) : SignedArg 2 (.llong v) v.toInt

/-- The sign of a number, and its digits. -/
def signChars (v : Int) : List (BitVec 32) := if v < 0 then [chr '-'] else []

def digitChars (v : Int) : List (BitVec 32) := chars (numeral 10 v.natAbs)

/-- The decimal text of `v` in a field: spaces before it, or zeros after the sign. -/
def signedField (zero : Bool) (W : ℕ) (v : Int) : List (BitVec 32) :=
  let pad := W - (signChars v ++ digitChars v).length
  if zero then signChars v ++ List.replicate pad (chr '0') ++ digitChars v
  else List.replicate pad (chr ' ') ++ signChars v ++ digitChars v

/-- What is printed: the padding always stands after the sign, and does not count it. -/
def signedPrinted (padc : Byte) (W : ℕ) (v : Int) : List (BitVec 32) :=
  signChars v ++ numberText 10 v.natAbs (BitVec.ofNat 32 W) (padc.signExtend 32)

theorem getint_signed {arg : VaArg} {v : Int} (h : SignedArg k arg v) :
    ∃ u : BitVec 64, getint [arg] (BitVec.ofNat 32 k) = .ok (u, []) ∧ u.toInt = v := by
  cases h with
  | int v => exact ⟨v.signExtend 64, rfl, BitVec.toInt_signExtend_of_le (by decide)⟩
  | long v => exact ⟨v.signExtend 64, rfl, BitVec.toInt_signExtend_of_le (by decide)⟩
  | llong v => exact ⟨v, rfl, rfl⟩

theorem natAbs_toInt (u : BitVec 64) :
    u.toInt.natAbs = if u.slt 0 then (-u).toNat else u.toNat := by
  have hzero : (0 : BitVec 64).toInt = 0 := rfl
  have hlt := u.isLt
  by_cases hneg : u.slt 0
  · rw [if_pos hneg, BitVec.toNat_neg]
    rw [BitVec.slt_iff_toInt_lt, hzero] at hneg
    rw [BitVec.toInt_eq_toNat_cond] at hneg ⊢
    omega
  · rw [if_neg hneg]
    rw [BitVec.slt_iff_toInt_lt, hzero] at hneg
    rw [BitVec.toInt_eq_toNat_cond] at hneg ⊢
    omega

theorem signed_prints {arg : VaArg} {v : Int} (pad : Pad) (hW : 0 < W) (h : SignedArg k arg v) :
    Settles (fun n => vprintfmt collect n (cstr (fieldFormat pad W k (chr 'd'))) [arg] [])
      (.ok (signedPrinted pad.padc W v)) := by
  obtain ⟨u, hget, rfl⟩ := getint_signed h
  have hneg : u.slt 0 ↔ u.toInt < 0 := BitVec.slt_iff_toInt_lt
  refine fieldFormat_settles (r := []) (by decide) hW fun f i l => ?_
  have hget' : getint [arg] (fieldFlags pad W k).lflag = .ok (u, []) := hget
  simp only [convert_signed, hget', ok_bind, signedPrinted, signChars, natAbs_toInt, ← hneg]
  split
  · exact (number_settles (fieldFlags pad W k) (-u) (by decide) (by decide) [chr '-']).bind
      (Settles.const _)
  · exact (number_settles (fieldFlags pad W k) u (by decide) (by decide) []).bind
      (Settles.const _)

/-! ### When the two are the same -/

variable {p : BitVec 32} {L : ℕ}

/-- A width that the digits fill leaves nothing to pad. -/
theorem padding_of_le (hL : L ≤ 64) (h : W ≤ L) :
    padding p (BitVec.ofNat 32 W - BitVec.ofNat 32 L) = [] := by
  have hneg : ¬ (0#32).slt (BitVec.ofNat 32 W - BitVec.ofNat 32 L) := by
    rw [slt_iff_toNat]
    bv_omega
  exact if_neg hneg

theorem padding_of_lt (h : L < W) (hlt : W < 2 ^ 31 + L) :
    padding p (BitVec.ofNat 32 W - BitVec.ofNat 32 L) = List.replicate (W - L) p := by
  have hw : (BitVec.ofNat 32 W - BitVec.ofNat 32 L).toNat = W - L := by bv_omega
  have hpos : (0#32).slt (BitVec.ofNat 32 W - BitVec.ofNat 32 L) := by
    rw [slt_iff_toNat]
    bv_omega
  rw [padding, if_pos hpos, hw]

/-- A width that no `int` can hold is not reached. -/
theorem length_padding_of_le (h : 2 ^ 31 + L ≤ W) :
    (padding p (BitVec.ofNat 32 W - BitVec.ofNat 32 L)).length + 1 < W - L := by
  unfold padding
  split
  · rename_i hpos
    rw [slt_iff_toNat] at hpos
    rw [List.length_replicate]
    bv_omega
  · rw [List.length_nil]
    omega

theorem padding_eq_iff (hL : L ≤ 64) :
    padding p (BitVec.ofNat 32 W - BitVec.ofNat 32 L) = List.replicate (W - L) p ↔
      W < 2 ^ 31 + L := by
  constructor
  · intro heq
    by_contra hge
    have hlen := congrArg List.length heq
    have hlt := length_padding_of_le (p := p) (Nat.le_of_not_lt hge)
    rw [List.length_replicate] at hlen
    omega
  · intro hlt
    rcases Nat.lt_or_ge L W with h | h
    · exact padding_of_lt h hlt
    · rw [padding_of_le hL h, Nat.sub_eq_zero_of_le h]
      rfl

theorem length_signedField (zero : Bool) (W : ℕ) (v : Int) :
    (signedField zero W v).length =
      W - (signChars v ++ digitChars v).length + (signChars v ++ digitChars v).length := by
  simp only [signedField, List.length_append]
  split <;> simp only [List.length_append, List.length_replicate] <;> omega

/-- The padding is right when it does not have to know of a sign. -/
theorem signedPrinted_eq_iff (zero : Bool) (v : Int) (hv : v.natAbs < 2 ^ 64) :
    signedPrinted (if zero then chr '0' else chr ' ') W v = signedField zero W v ↔
      0 ≤ v ∧ W < 2 ^ 31 + (digitChars v).length ∨ v < 0 ∧ W ≤ (digitChars v).length := by
  have hlen : (digitChars v).length = (numeral 10 v.natAbs).length := List.length_map ..
  have hL := length_numeral_le (b := 10) (by decide) hv
  rw [← hlen] at hL
  have hpad : ((if zero then chr '0' else chr ' ' : Byte)).signExtend 32 =
      if zero then chr '0' else chr ' ' := by
    cases zero <;> rfl
  rw [signedPrinted, numberText, hpad, ← hlen]
  change signChars v ++ (_ ++ digitChars v) = _ ↔ _
  by_cases hv0 : v < 0
  · have hsign : (signChars v).length = 1 := by rw [signChars, if_pos hv0, List.length_singleton]
    simp only [hv0, true_and, Int.not_le.mpr hv0, false_and, false_or]
    constructor
    · intro heq
      by_contra hlt
      have hlens := congrArg List.length heq
      rw [length_signedField] at hlens
      simp only [List.length_append, hsign] at hlens
      rcases Nat.lt_or_ge W (2 ^ 31 + (digitChars v).length) with h | h
      · rw [padding_of_lt (by omega) h, List.length_replicate] at hlens
        omega
      · have hshort := length_padding_of_le (p := if zero then chr '0' else chr ' ') h
        omega
    · intro hle
      have hnone : W - (signChars v ++ digitChars v).length = 0 := by
        rw [List.length_append, hsign]
        omega
      rw [padding_of_le hL hle, signedField, hnone]
      cases zero <;> simp
  · have hsign : signChars v = [] := if_neg hv0
    simp only [hv0, false_and, or_false, Int.not_lt.mp hv0, true_and]
    rw [← padding_eq_iff (p := if zero then chr '0' else chr ' ') hL, hsign, List.nil_append,
      signedField, hsign, List.nil_append]
    cases zero <;> simp

/-- A signed number fills its field as it should exactly when it is not negative, or when the width
leaves nothing to pad. -/
theorem signed_field_iff (zero : Bool) (W k : ℕ) (hW : 0 < W) (arg : VaArg) (v : Int)
    (harg : SignedArg k arg v) :
    Settles (fun n => vprintfmt collect n
        (cstr (fieldFormat (if zero then .zero else .space) W k (chr 'd'))) [arg] [])
      (.ok (signedField zero W v)) ↔
    0 ≤ v ∧ W < 2 ^ 31 + (digitChars v).length ∨ v < 0 ∧ W ≤ (digitChars v).length := by
  have hv : v.natAbs < 2 ^ 64 := by
    cases harg with
    | int v => have := v.toInt_lt; have := v.le_toInt; omega
    | long v => have := v.toInt_lt; have := v.le_toInt; omega
    | llong v => have := v.toInt_lt; have := v.le_toInt; omega
  have hprints := signed_prints (if zero then .zero else .space) hW harg
  have hpadc : (if zero then Pad.zero else .space).padc = if zero then chr '0' else chr ' ' := by
    cases zero <;> rfl
  rw [hpadc] at hprints
  rw [← signedPrinted_eq_iff zero v hv]
  constructor
  · intro h
    exact Except.ok.inj (hprints.unique h)
  · intro heq
    rwa [heq] at hprints

theorem signed_field_iff_negative :
    Settles (fun n => vprintfmt collect n (cstr (fieldFormat .space 2 0 (chr 'd'))) [.int (-42)] [])
      (.ok (signedField false 2 (-42))) ↔
    0 ≤ (-42 : Int) ∧ 2 < 2 ^ 31 + (digitChars (-42)).length ∨
      (-42 : Int) < 0 ∧ 2 ≤ (digitChars (-42)).length :=
  signed_field_iff false 2 0 (by decide) (.int (-42)) (-42) (.int (-42))

/-- `%5d` prints six characters for -42. -/
theorem signed_field_too_wide : ¬ Settles (fun n =>
    vprintfmt collect n (cstr (fieldFormat .space 5 0 (chr 'd'))) [.int (-42)] [])
      (.ok (signedField false 5 (-42))) := by
  intro h
  have hprints := signed_prints .space (W := 5) (by decide) (.int (-42))
  have heq := Except.ok.inj (hprints.unique h)
  exact absurd heq (by decide)

/-! ### Left justification -/

/-- The sign and the digits of an argument under the conversion `c`. -/
inductive NumberOf : Byte → BitVec 32 → List (BitVec 32) → List (BitVec 32) → Prop
  | signed (v : BitVec 32) : NumberOf (chr 'd') v (signChars v.toInt) (digitChars v.toInt)
  | unsigned {c : Byte} {base : BitVec 32} (v : BitVec 32) (h : UnsignedBase c base) :
      NumberOf c v [] (chars (numeral base.toNat v.toNat))

variable {v base : BitVec 32} {sign digits : List (BitVec 32)}

theorem UnsignedBase.range (h : UnsignedBase c base) :
    isConversion c ∧ 2 ≤ base.toNat ∧ base.toNat ≤ 16 := by
  rcases h with ⟨rfl, rfl⟩ | ⟨rfl, rfl⟩ | ⟨rfl, rfl⟩ <;> decide

/-- The dash of the flag is what the number is padded with. -/
theorem minus_prints (hW : 0 < W) (h : NumberOf c v sign digits) :
    Settles (fun n => vprintfmt collect n (cstr (fieldFormat .minus W 0 c)) [.int v] [])
      (.ok (sign ++ (padding (chr '-') (BitVec.ofNat 32 W - BitVec.ofNat 32 digits.length) ++
        digits))) := by
  cases h with
  | signed v =>
    have hprints := signed_prints .minus hW (.int v)
    have hlen : (digitChars v.toInt).length = (numeral 10 v.toInt.natAbs).length :=
      List.length_map ..
    rw [hlen]
    exact hprints
  | @unsigned c base v h =>
    obtain ⟨hc, hlo, hhi⟩ := h.range
    have hget : getuint [.int v] (fieldFlags .minus W 0).lflag = .ok (v.setWidth 64, []) := rfl
    have hnat : (v.setWidth 64).toNat = v.toNat := by
      rw [BitVec.toNat_setWidth]
      omega
    have hlen : (chars (numeral base.toNat v.toNat)).length = (numeral base.toNat v.toNat).length :=
      List.length_map ..
    rw [hlen]
    refine fieldFormat_settles (r := []) hc hW fun f i l => ?_
    simp only [convert_unsigned h, hget, ok_bind, ← hnat]
    exact (number_settles (fieldFlags .minus W 0) (v.setWidth 64) hlo hhi []).bind
      (Settles.const _)

/-- The first digit is no dash. -/
theorem NumberOf.digits_cons (h : NumberOf c v sign digits) :
    ∃ a ds, digits = a :: ds ∧ a ≠ chr '-' ∧ digits.length ≤ 64 := by
  have hdash : ∀ k < 16, (chr (k : ℕ).digitChar : Byte).setWidth 32 ≠ (chr '-' : BitVec 32) := by
    decide
  obtain ⟨b, n, rfl, hb, hb', hn⟩ : ∃ b n, digits = chars (numeral b n) ∧ 1 < b ∧ b ≤ 16 ∧
      n < 2 ^ 64 := by
    cases h with
    | signed v =>
      have hlt := v.toInt_lt
      have hle := v.le_toInt
      exact ⟨10, v.toInt.natAbs, rfl, by decide, by decide, by omega⟩
    | unsigned v h => exact ⟨_, _, rfl, h.range.2.1, h.range.2.2, by omega⟩
  have hlen := length_numeral_le hb hn
  have hmem := numeral_mem (n := n) hb
  rcases hnum : numeral b n with _ | ⟨a, ds⟩
  · exact absurd hnum (by rw [numeral]; simp)
  · rw [hnum] at hlen hmem
    obtain ⟨k, hk, rfl⟩ := hmem a List.mem_cons_self
    exact ⟨_, chars ds, rfl, hdash k (by omega), by rw [chars, List.length_map]; exact hlen⟩

theorem NumberOf.length_sign (h : NumberOf c v sign digits) : sign = [] ∨ sign.length = 1 := by
  cases h with
  | signed v =>
    unfold signChars
    split
    · exact .inr rfl
    · exact .inl rfl
  | unsigned v h => exact .inl rfl

/-- The flag `-` puts the padding after the number exactly when there is none. -/
theorem left_justified_iff (W : ℕ) (hW : 0 < W) (c : Byte) (v : BitVec 32)
    (sign digits : List (BitVec 32)) (h : NumberOf c v sign digits) :
    Settles (fun n => vprintfmt collect n (cstr (fieldFormat .minus W 0 c)) [.int v] [])
      (.ok (sign ++ digits ++ List.replicate (W - (sign ++ digits).length) (chr ' '))) ↔
    W ≤ digits.length := by
  have hprints := minus_prints hW h
  obtain ⟨a, ds, hcons, hdash, hL⟩ := h.digits_cons
  constructor
  · intro hleft
    have heq := Except.ok.inj (hprints.unique hleft)
    have hlen := congrArg List.length heq
    simp only [List.length_append, List.length_replicate] at hlen
    have hone : sign.length ≤ 1 := by
      rcases h.length_sign with rfl | hsign
      · exact Nat.zero_le 1
      · exact Nat.le_of_eq hsign
    by_contra hlt
    rcases Nat.lt_or_ge W (2 ^ 31 + digits.length) with hw | hw
    · rw [padding_of_lt (by omega) hw] at heq hlen
      rw [List.length_replicate] at hlen
      rcases h.length_sign with rfl | hsign
      · obtain ⟨k, hk⟩ : ∃ k, W - digits.length = k + 1 := ⟨W - digits.length - 1, by omega⟩
        rw [hk, List.replicate_succ, hcons] at heq
        exact hdash (List.cons.inj heq).1.symm
      · omega
    · have hshort := length_padding_of_le (p := chr '-') hw
      omega
  · intro hle
    have hnone : W - (sign ++ digits).length = 0 := by
      rw [List.length_append]
      omega
    rw [padding_of_le hL hle] at hprints
    rw [hnone, List.replicate_zero, List.append_nil]
    exact hprints

theorem left_justified_iff_hex :
    Settles
      (fun n => vprintfmt collect n (cstr (fieldFormat .minus 2 0 (chr 'x'))) [.int 0xBEEF] [])
      (.ok ([] ++ chars (numeral 16 0xBEEF) ++
        List.replicate (2 - ([] ++ chars (numeral 16 0xBEEF)).length) (chr ' '))) ↔
    2 ≤ (chars (numeral 16 0xBEEF)).length :=
  left_justified_iff 2 (by decide) (chr 'x') 0xBEEF [] _ (.unsigned 0xBEEF (.inr (.inr ⟨rfl, rfl⟩)))

/-- `%-5d` prints `---42` for 42. -/
theorem left_justified_dashes : ¬ Settles (fun n =>
    vprintfmt collect n (cstr (fieldFormat .minus 5 0 (chr 'd'))) [.int 42] [])
      (.ok (signChars 42 ++ digitChars 42 ++
        List.replicate (5 - (signChars 42 ++ digitChars 42).length) (chr ' '))) := by
  intro h
  have hprints := minus_prints (W := 5) (by decide) (.signed 42)
  have heq := Except.ok.inj (hprints.unique h)
  exact absurd heq (by decide)

end Jos
