import Jos.Lib.Scanning

/-! What single number directives print, with their padding. -/
namespace Jos

open Prog

variable {f pre post : List Byte} {ap : VaList} {out : List (BitVec 32)} {c : Byte} {b n : ℕ}
  {x : Res (List (BitVec 32))}

/-! ### Decimal numerals in a format -/

theorem numeral_mem (hb : 1 < b) : ∀ a ∈ numeral b n, ∃ k < b, a = chr k.digitChar := by
  induction n using Nat.strongRecOn with
  | ind n ih =>
    by_cases hn : n < b
    · rw [numeral_of_lt hn]
      intro a ha
      exact ⟨n, hn, List.mem_singleton.mp ha⟩
    · rw [numeral_of_le hb (by omega)]
      intro a ha
      rcases List.mem_append.mp ha with ha | ha
      · exact ih (n / b) (Nat.div_lt_self (by omega) hb) a ha
      · exact ⟨n % b, Nat.mod_lt n (by omega), List.mem_singleton.mp ha⟩

theorem numeral_ne_nil : numeral b n ≠ [] := by
  simp [numeral]

theorem length_numeral_le (hb : 1 < b) (hn : n < 2 ^ 64) : (numeral b n).length ≤ 64 := by
  rw [numeral, List.length_map, Nat.length_toDigits_le_iff hb (by decide)]
  exact Nat.lt_of_lt_of_le hn (Nat.pow_le_pow_left hb 64)

theorem numeral_digits (hb : 1 < b) (hb' : b ≤ 10) : ∀ a ∈ numeral b n, isDigit a := by
  have hdigit : ∀ k < 10, isDigit (chr (k : ℕ).digitChar) := by decide
  intro a ha
  obtain ⟨k, hk, rfl⟩ := numeral_mem hb a ha
  exact hdigit k (by omega)

/-- A positive numeral does not begin with a zero. -/
theorem exists_numeral_cons (hn : 0 < n) :
    ∃ a ds, numeral 10 n = a :: ds ∧ chr '1' ≤ a ∧ a ≤ chr '9' := by
  have hdigit : ∀ k < 10, 0 < k → chr '1' ≤ (chr (k : ℕ).digitChar : Byte) ∧
      (chr (k : ℕ).digitChar : Byte) ≤ chr '9' := by decide
  induction n using Nat.strongRecOn with
  | ind n ih =>
    by_cases hlt : n < 10
    · exact ⟨_, [], numeral_of_lt hlt, hdigit n hlt hn⟩
    · obtain ⟨a, ds, hds, ha⟩ := ih (n / 10) (by omega) (by omega)
      exact ⟨a, ds ++ [_], by rw [numeral_of_le (by omega) (by omega), hds]; rfl, ha⟩

theorem decimal_append (p : BitVec 32) (ds : List Byte) (a : Byte) :
    decimal p (ds ++ [a]) = decimal p ds * 10 + a.setWidth 32 - chr '0' := by
  simp [decimal]

theorem decimal_numeral : decimal 0 (numeral 10 n) = BitVec.ofNat 32 n := by
  have hdigit : ∀ (p : BitVec 32), ∀ k < 10,
      p * 10 + (chr (k : ℕ).digitChar : Byte).setWidth 32 - chr '0' =
        p * 10 + BitVec.ofNat 32 k := by
    intro p k hk
    have : ∀ k < 10, (chr (k : ℕ).digitChar : Byte).setWidth 32 = BitVec.ofNat 32 k + chr '0' := by
      decide
    rw [this k hk, ← BitVec.add_assoc, BitVec.add_sub_cancel]
  induction n using Nat.strongRecOn with
  | ind n ih =>
    by_cases hlt : n < 10
    · rw [numeral_of_lt hlt, decimal, List.foldl_cons, List.foldl_nil, hdigit 0 n hlt]
      simp
    · rw [numeral_of_le (by omega) (by omega), decimal_append, ih (n / 10) (by omega),
        hdigit _ _ (Nat.mod_lt n (by omega))]
      have hdiv : n / 10 * 10 + n % 10 = n := by omega
      conv_rhs => rw [← hdiv, BitVec.ofNat_add, BitVec.ofNat_mul]
      rfl

/-! ### Fields -/

/-- A width, written in the format or taken from the arguments. -/
inductive Width where
  | numeral (n : ℕ) (pos : 0 < n)
  | star (v : BitVec 32)

def Width.source : Width → List Byte
  | .numeral n _ => Jos.numeral 10 n
  | .star _ => [chr '*']

def Width.args : Width → VaList
  | .numeral _ _ => []
  | .star v => [.int v]

def Width.value : Width → BitVec 32
  | .numeral n _ => BitVec.ofNat 32 n
  | .star v => v

/-- The flag `0` and a width, both optional. -/
structure Field where
  zero : Bool
  width : Option Width

def Field.source (w : Field) : List Byte :=
  (if w.zero then [chr '0'] else []) ++ (w.width.map Width.source).getD []

def Field.args (w : Field) : VaList := (w.width.map Width.args).getD []

/-- What the field leaves in the locals. -/
def Field.flags (w : Field) : Flags where
  padc := if w.zero then chr '0' else chr ' '
  width := (w.width.map Width.value).getD (-1)

theorem zero_flag {i n : ℕ} {d : Flags} (h : f[i]? = some (chr '0')) :
    pass f n ⟨i, ap, out, .reswitch d⟩ =
      .ok (.inl ⟨(i + 1 : ℕ), ap, out, .reswitch { d with padc := chr '0' }⟩) := by
  simp only [pass, vprintfmtBody, reswitch, peek_of_getElem? h]
  rfl

theorem processPrecision_of_default {p : Byte} {v : BitVec 32} :
    Flags.processPrecision { padc := p, precision := v } = { padc := p, width := v } := by
  have hneg : (-1 : BitVec 32).slt 0 := by decide
  exact if_pos hneg

/-- A width given after at most the flag `0`. -/
theorem Width.scan (w : Width) (p : Byte) (hc : ¬ isDigit c) (hf : f = pre ++ w.source ++ c :: post)
    (h : LoopSettles (pass f) ⟨((pre ++ w.source).length : ℕ), ap, out,
      .reswitch { padc := p, width := w.value }⟩ x) :
    LoopSettles (pass f) ⟨pre.length, w.args ++ ap, out, .reswitch { padc := p }⟩ x := by
  cases w with
  | numeral n pos =>
    obtain ⟨a, ds, hds, ha⟩ := exists_numeral_cons pos
    have hdigits := numeral_digits (b := 10) (n := n) (by omega) (by omega)
    have hvalue : decimal 0 (a :: ds) = BitVec.ofNat 32 n := by rw [← hds, decimal_numeral]
    simp only [Width.source, Width.value, hds] at hf h
    have hpass := width_flag (d := { padc := p }) ap out ha
      (fun e he => hdigits e (by simp [hds, he])) hc hf
    rw [hvalue] at hpass
    exact .next hpass h
  | star v =>
    have hget : f[pre.length]? = some (chr '*') := by simp [hf, Width.source]
    refine .next ((Settles.const _).congr fun n => star_flag hget) ?_
    rw [processPrecision_of_default]
    simpa [Width.source, Width.value] using h

theorem Field.scan (w : Field) (hc : ¬ isDigit c) (hf : f = pre ++ w.source ++ c :: post)
    (h : LoopSettles (pass f) ⟨((pre ++ w.source).length : ℕ), ap, out, .reswitch w.flags⟩ x) :
    LoopSettles (pass f) ⟨pre.length, w.args ++ ap, out, .reswitch {}⟩ x := by
  obtain ⟨zero, width⟩ := w
  cases zero with
  | false =>
    cases width with
    | none => simpa [Field.source, Field.flags, Field.args] using h
    | some w => exact w.scan (chr ' ') hc hf h
  | true =>
    have hget : f[pre.length]? = some (chr '0') := by simp [hf, Field.source]
    refine .next ((Settles.const _).congr fun n => zero_flag hget) ?_
    cases width with
    | none => simpa [Field.source, Field.flags, Field.args] using h
    | some w =>
      have hf' : f = (pre ++ [chr '0']) ++ w.source ++ c :: post := by
        simpa [Field.source] using hf
      have h' : LoopSettles (pass f) ⟨(((pre ++ [chr '0']) ++ w.source).length : ℕ), ap, out,
          .reswitch { padc := chr '0', width := w.value }⟩ x := by
        simpa [Field.source, Field.flags] using h
      have hscan := w.scan (chr '0') hc hf' h'
      simpa [Field.args] using hscan

/-- A format that is one directive prints what its conversion prints. -/
theorem vprintfmt_field (w : Field) (hc : isConversion c) {o : List (BitVec 32)} {r : VaList}
    (h : ∀ f (i : Int) l, Settles (fun n =>
      convert collect (vprintfmt collect n) n f w.flags c ⟨i, ap, [], l⟩)
      (.ok ⟨i, r, o, .text⟩)) :
    Settles (fun n => vprintfmt collect n (cstr (chr '%' :: w.source ++ [c])) (w.args ++ ap) [])
      (.ok o) := by
  have hflag := not_isFlag_of_isConversion hc
  let f := cstr (chr '%' :: w.source ++ [c])
  have hf : f = [chr '%'] ++ w.source ++ c :: [0] := by simp [f, cstr]
  have hpercent : f[0]? = some (chr '%') := by simp [hf]
  have hget : f[([chr '%'] ++ w.source).length]? = some c := by simp [hf]
  have hnul : f[([chr '%'] ++ w.source).length + 1]? = some 0 := by simp [hf]
  have hconv : LoopSettles (pass f) ⟨(([chr '%'] ++ w.source).length : ℕ), ap, [],
      .reswitch w.flags⟩ (.ok o) := by
    refine .next (((h f _ _).view Sum.inl).congr fun n => pass_convert hget hflag) ?_
    exact .exit ((Settles.const _).congr fun n => pass_nul hnul)
  have hrun : LoopSettles (pass f) ⟨0, w.args ++ ap, [], .text⟩ (.ok o) :=
    .next ((Settles.const _).congr fun n => pass_percent (i := 0) hpercent)
      (w.scan (mt isFlag_of_isDigit hflag) hf hconv)
  exact hrun.settles.succ fun n => rfl

/-! ### Number directives -/

/-- The text of a `%d`. -/
def signedText (v : BitVec 64) (d : Flags) : List (BitVec 32) :=
  if v.slt 0 then chr '-' :: numberText 10 (-v).toNat d.width (d.padc.signExtend 32)
  else numberText 10 v.toNat d.width (d.padc.signExtend 32)

theorem vprintfmt_signed (w : Field) (v : BitVec 32) :
    Settles (fun n => vprintfmt collect n (cstr (chr '%' :: w.source ++ [chr 'd']))
      (w.args ++ [.int v]) []) (.ok (signedText (v.signExtend 64) w.flags)) := by
  refine vprintfmt_field (r := []) w (by decide) fun f i l => ?_
  have hget : getint [.int v] w.flags.lflag = .ok (v.signExtend 64, []) := rfl
  simp only [convert_signed, hget, ok_bind, signedText]
  split
  · exact (number_settles w.flags (-v.signExtend 64) (by decide) (by decide) [chr '-']).bind
      (Settles.const _)
  · exact (number_settles w.flags (v.signExtend 64) (by decide) (by decide) []).bind
      (Settles.const _)

theorem vprintfmt_unsigned (w : Field) (v : BitVec 32) {base : BitVec 32}
    (hbase : UnsignedBase c base) :
    Settles (fun n => vprintfmt collect n (cstr (chr '%' :: w.source ++ [c]))
      (w.args ++ [.int v]) [])
      (.ok (numberText base.toNat v.toNat w.flags.width (w.flags.padc.signExtend 32))) := by
  have hget : getuint [.int v] w.flags.lflag = .ok (v.setWidth 64, []) := rfl
  have hnat : (v.setWidth 64).toNat = v.toNat := by
    rw [BitVec.toNat_setWidth]
    omega
  have hconv : isConversion c ∧ 2 ≤ base.toNat ∧ base.toNat ≤ 16 := by
    rcases hbase with ⟨rfl, rfl⟩ | ⟨rfl, rfl⟩ | ⟨rfl, rfl⟩ <;> decide
  refine vprintfmt_field (r := []) w hconv.1 fun f i l => ?_
  simp only [convert_unsigned hbase, hget, ok_bind, ← hnat]
  exact (number_settles w.flags (v.setWidth 64) hconv.2.1 hconv.2.2 []).bind (Settles.const _)

theorem vprintfmt_pointer (w : Field) (v : BitVec 32) :
    Settles (fun n => vprintfmt collect n (cstr (chr '%' :: w.source ++ [chr 'p']))
      (w.args ++ [.ptr v]) []) (.ok (chr '0' :: chr 'x' ::
        numberText 16 v.toNat w.flags.width (w.flags.padc.signExtend 32))) := by
  have hget : vaPtr [.ptr v] = .ok (v, []) := rfl
  have hnat : (v.setWidth 64).toNat = v.toNat := by
    rw [BitVec.toNat_setWidth]
    omega
  refine vprintfmt_field (r := []) w (by decide) fun f i l => ?_
  simp only [convert_pointer, hget, ok_bind, ← hnat]
  exact (number_settles w.flags (v.setWidth 64) (by decide) (by decide)
    [chr '0', chr 'x']).bind (Settles.const _)

end Jos
