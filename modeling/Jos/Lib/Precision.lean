import Jos.Lib.StringField

/-! Precisions that are written in the format. -/
namespace Jos

open Prog

/-- The directive `%s` with the width `W`, unless that is 0, and the precision `N` after `z` more
zeros. -/
def precisionFormat (W z N : ℕ) : List Byte :=
  chr '%' :: ((if W = 0 then [] else numeral 10 W) ++
    chr '.' :: (List.replicate z (chr '0') ++ (numeral 10 N ++ [chr 's'])))

/-- What it leaves in the locals: a zero is always the flag `0`. -/
def precisionFlags (W z N : ℕ) : Flags where
  padc := if z = 0 ∧ N ≠ 0 then chr ' ' else chr '0'
  width := if (BitVec.ofNat 32 W).slt 0 then 0 else BitVec.ofNat 32 W
  precision := if N = 0 then -1 else BitVec.ofNat 32 N

variable {f pre post s : List Byte} {ap : VaList} {out : List (BitVec 32)} {d : Flags}
  {x : Res (List (BitVec 32))} {W z N : ℕ} {c : Byte}

/-! ### The scanner on such a directive -/

theorem dot_flag {i n : ℕ} (h : f[i]? = some (chr '.')) :
    pass f n ⟨i, ap, out, .reswitch d⟩ = .ok (.inl ⟨(i + 1 : ℕ), ap, out,
      .reswitch (if d.width.slt 0 then { d with width := 0 } else d)⟩) := by
  simp only [pass, vprintfmtBody, reswitch, peek_of_getElem? h]
  rfl

theorem zeros_scan (z : ℕ) (hf : f = pre ++ List.replicate z (chr '0') ++ post)
    (h : LoopSettles (pass f) ⟨((pre ++ List.replicate z (chr '0')).length : ℕ), ap, out,
      .reswitch { d with padc := if z = 0 then d.padc else chr '0' }⟩ x) :
    LoopSettles (pass f) ⟨pre.length, ap, out, .reswitch d⟩ x := by
  induction z generalizing pre d with
  | zero => simpa using h
  | succ z ih =>
    have hget : f[pre.length]? = some (chr '0') := by simp [hf, List.replicate_succ]
    have hf' : f = (pre ++ [chr '0']) ++ List.replicate z (chr '0') ++ post := by
      simp [hf, List.replicate_succ]
    have hlen : (pre ++ List.replicate (z + 1) (chr '0')).length =
        ((pre ++ [chr '0']) ++ List.replicate z (chr '0')).length := by
      simp [List.replicate_succ]
    have hpadc : (if z = 0 then ({ d with padc := chr '0' } : Flags).padc else chr '0') =
        chr '0' := ite_self _
    rw [hlen, if_neg (Nat.succ_ne_zero z)] at h
    have hnext := ih (d := { d with padc := chr '0' }) hf' (by rw [hpadc]; exact h)
    rw [List.length_append, List.length_singleton] at hnext
    exact .next ((Settles.const _).congr fun n => zero_flag hget) hnext

theorem processPrecision_of_width (h : ¬ d.width.slt 0) : d.processPrecision = d := if_neg h

/-- The digits after the dot. A lone zero is not seen by the loop over the digits. -/
theorem precision_scan (hd : ¬ d.width.slt 0) (hdefault : d.precision = -1) (hc : ¬ isDigit c)
    (hf : f = pre ++ (List.replicate z (chr '0') ++ numeral 10 N) ++ c :: post)
    (h : LoopSettles (pass f)
      ⟨((pre ++ (List.replicate z (chr '0') ++ numeral 10 N)).length : ℕ), ap, out,
        .reswitch { d with
          padc := if z = 0 ∧ N ≠ 0 then d.padc else chr '0'
          precision := if N = 0 then -1 else BitVec.ofNat 32 N }⟩ x) :
    LoopSettles (pass f) ⟨pre.length, ap, out, .reswitch d⟩ x := by
  rcases Nat.eq_zero_or_pos N with rfl | hN
  · have hzeros : List.replicate z (chr '0') ++ numeral 10 0 =
        List.replicate (z + 1) (chr '0') := by
      rw [numeral_of_lt (by decide), List.replicate_succ']
      rfl
    rw [hzeros] at hf h
    refine zeros_scan (z + 1) hf ?_
    rw [if_neg fun h : z = 0 ∧ 0 ≠ 0 => h.2 rfl, if_pos rfl] at h
    rw [if_neg (Nat.succ_ne_zero z)]
    have hsame : ({ d with padc := chr '0' } : Flags) =
        { d with padc := chr '0', precision := -1 } := by
      rw [← hdefault]
    rw [hsame]
    exact h
  · obtain ⟨a, ds, hds, ha⟩ := exists_numeral_cons hN
    have hdigits := numeral_digits (b := 10) (n := N) (by omega) (by omega)
    have hvalue : decimal 0 (a :: ds) = BitVec.ofNat 32 N := by rw [← hds, decimal_numeral]
    have hN0 : N ≠ 0 := Nat.ne_of_gt hN
    have hf' : f = pre ++ List.replicate z (chr '0') ++ (numeral 10 N ++ c :: post) := by
      simp [hf]
    have hf'' : f = (pre ++ List.replicate z (chr '0')) ++ a :: ds ++ c :: post := by
      rw [hf', hds]
      simp only [List.append_assoc]
    have hpass := width_flag (d := { d with padc := if z = 0 then d.padc else chr '0' }) ap out ha
      (fun e he => hdigits e (by simp [hds, he])) hc hf''
    rw [hvalue, processPrecision_of_width (by exact hd)] at hpass
    refine zeros_scan z hf' (.next hpass ?_)
    simpa [hN0, hds] using h

/-- The directive prints what its conversion prints with these flags. -/
theorem precisionFormat_prints (W z N : ℕ) (hs : 0 ∉ s) :
    Settles (fun n => vprintfmt collect n (cstr (precisionFormat W z N)) [.str (some (cstr s))] [])
      (.ok (stringText (precisionFlags W z N) s)) := by
  let f := cstr (precisionFormat W z N)
  let width : List Byte := if W = 0 then [] else numeral 10 W
  let prec := List.replicate z (chr '0') ++ numeral 10 N
  let ap : VaList := [.str (some (cstr s))]
  have hf : f = ([chr '%'] ++ width ++ [chr '.']) ++ prec ++ chr 's' :: [0] := by
    simp [f, width, prec, cstr, precisionFormat]
  have hget : f[([chr '%'] ++ width ++ [chr '.'] ++ prec).length]? = some (chr 's') := by simp [hf]
  have hnul : f[([chr '%'] ++ width ++ [chr '.'] ++ prec).length + 1]? = some 0 := by
    rw [hf, List.getElem?_append_right (Nat.le_add_right _ 1), Nat.add_sub_cancel_left]
    rfl
  have hconv : LoopSettles (pass f) ⟨(([chr '%'] ++ width ++ [chr '.'] ++ prec).length : ℕ), ap, [],
      .reswitch (precisionFlags W z N)⟩ (.ok (stringText (precisionFlags W z N) s)) := by
    have harg : StringArg (some (cstr s)) s := .array hs
    have hstring := convert_string collect (fun n => vprintfmt collect n) f (precisionFlags W z N)
      ⟨(([chr '%'] ++ width ++ [chr '.'] ++ prec).length + 1 : ℕ), ap, [],
        .reswitch (precisionFlags W z N)⟩ harg rfl
    rw [emit_collect_eq, List.nil_append] at hstring
    refine .next ((hstring.view Sum.inl).congr fun n => pass_convert hget (by decide)) ?_
    exact .exit ((Settles.const _).congr fun n => pass_nul hnul)
  have hprec : LoopSettles (pass f) ⟨(([chr '%'] ++ width ++ [chr '.']).length : ℕ), ap, [],
      .reswitch { width := (precisionFlags W z N).width }⟩
      (.ok (stringText (precisionFlags W z N) s)) := by
    have hwidth : ¬ (precisionFlags W z N).width.slt 0 := by
      unfold precisionFlags
      dsimp only
      split
      · decide
      · assumption
    exact precision_scan hwidth rfl (by decide) hf hconv
  -- the width is not negative from here on
  have hdot : ∀ w : BitVec 32, (if w.slt 0 then 0 else w) = (precisionFlags W z N).width →
      LoopSettles (pass f) ⟨(([chr '%'] ++ width).length : ℕ), ap, [],
        .reswitch { width := w }⟩ (.ok (stringText (precisionFlags W z N) s)) := by
    intro w hw
    have hd : (if w.slt 0 then { width := 0 } else { width := w } : Flags) =
        { width := (precisionFlags W z N).width } := by
      rw [← hw]
      split <;> rfl
    have hgetdot : f[([chr '%'] ++ width).length]? = some (chr '.') := by simp [hf]
    refine .next ((Settles.const _).congr fun n => dot_flag hgetdot) ?_
    rw [List.length_append, List.length_singleton] at hprec
    dsimp only
    rw [hd]
    exact hprec
  have hstart : LoopSettles (pass f) ⟨(([chr '%'] : List Byte).length : ℕ), ap, [],
      .reswitch {}⟩
      (.ok (stringText (precisionFlags W z N) s)) := by
    by_cases hW : W = 0
    · have hnone : width = [] := if_pos hW
      rw [hnone] at hdot
      refine hdot (-1) ?_
      rw [hW]
      rfl
    · have hsome : width = numeral 10 W := if_neg hW
      rw [hsome] at hdot hf
      let w := Width.numeral W (Nat.pos_of_ne_zero hW)
      have hfw : f = [chr '%'] ++ w.source ++ chr '.' :: (prec ++ chr 's' :: [0]) := by
        simp [hf, w, Width.source]
      refine w.scan (chr ' ') (by decide) hfw ?_
      exact hdot (BitVec.ofNat 32 W) rfl
  have hrun : LoopSettles (pass f) ⟨0, ap, [], .text⟩ (.ok (stringText (precisionFlags W z N) s)) :=
    .next ((Settles.const _).congr fun n => pass_percent (i := 0) (by simp [hf])) hstart
  exact hrun.settles.succ fun n => rfl

/-! ### What the precision should print -/

/-- The first `N` characters of `s`, on the right of a field of `W`. -/
def precisionText (W N : ℕ) (s : List Byte) : List (BitVec 32) :=
  List.replicate (W - min N s.length) (chr ' ') ++ (s.take N).map (BitVec.signExtend 32)

theorem length_precisionText : (precisionText W N s).length = max W (min N s.length) := by
  rw [precisionText, List.length_append, List.length_replicate, List.length_map, List.length_take]
  omega

theorem precisionFlags_width (z N : ℕ) : (precisionFlags W z N).width.toNat < 2 ^ 31 ∧
    (W < 2 ^ 31 → (precisionFlags W z N).width.toNat = W) ∧
    ((precisionFlags W z N).width.toNat = 0 ∨
      (precisionFlags W z N).width.toNat = W % 2 ^ 32) := by
  unfold precisionFlags
  dsimp only
  split
  · rename_i hneg
    rw [slt_iff_toNat, BitVec.toNat_ofNat] at hneg
    refine ⟨by decide, fun h => ?_, .inl rfl⟩
    bv_omega
  · rename_i hpos
    have hzero : (0 : BitVec 32).toNat = 0 := rfl
    rw [slt_iff_toNat, hzero] at hpos
    rw [BitVec.toNat_ofNat] at hpos ⊢
    omega

/-- The spaces after the string: none, unless the width has run below the smallest `int`. -/
def wrapped (w L : ℕ) : ℕ := if w = 0 ∨ 2 * L ≤ w + 2 ^ 31 then 0 else w + 2 ^ 32 - 2 * L

theorem stringText_precision (hlen : s.length < 2 ^ 31) {L w : ℕ}
    (hL : (clip (precisionFlags W z N).precision s).length = L)
    (hw : (precisionFlags W z N).width.toNat = w) :
    stringText (precisionFlags W z N) s =
      List.replicate (w - L) ((precisionFlags W z N).padc.signExtend 32) ++
        (clip (precisionFlags W z N).precision s).map (BitVec.signExtend 32) ++
          List.replicate (wrapped w L) (chr ' ') := by
  have hcount := min_eq_clip (precisionFlags W z N).precision hlen
  have hle := length_clip_le (precisionFlags W z N).precision s
  have hlt := (precisionFlags_width (W := W) z N).1
  have hdash : (precisionFlags W z N).padc ≠ chr '-' := by
    unfold precisionFlags
    dsimp only
    split <;> decide
  have hbody : stringBody (precisionFlags W z N) s =
      (clip (precisionFlags W z N).precision s).map (BitVec.signExtend 32) := by
    rw [← shown_false]
    rfl
  rw [hL] at hle hcount
  rw [hw] at hlt
  rw [stringText, hbody, hL, stringWidth, hcount]
  generalize (precisionFlags W z N).width = width at hw
  generalize (precisionFlags W z N).padc = padc at hdash
  have hnone : ∀ c v : BitVec 32, 2 ^ 31 ≤ v.toNat ∨ v.toNat = 0 → padding c v = [] := by
    intro c v hv
    refine if_neg fun h => ?_
    rw [slt_iff_toNat] at h
    bv_omega
  by_cases hpos : (0#32).slt width
  · rw [if_pos ⟨hpos, hdash⟩]
    rw [slt_iff_toNat] at hpos
    dsimp only
    rcases Nat.lt_or_ge L w with hLw | hwL
    · have hleft : (width - BitVec.ofNat 32 L).toNat = w - L := by bv_omega
      have hslt : (0#32).slt (width - BitVec.ofNat 32 L) := by
        rw [slt_iff_toNat]
        bv_omega
      have htail : padding (chr ' ') (0 - BitVec.ofNat 32 L) = [] := hnone _ _ (by bv_omega)
      have hwrap : wrapped w L = 0 := if_pos (by omega)
      rw [if_pos hslt, htail, padding, if_pos hslt, hleft, hwrap, List.replicate_zero]
    · have hslt : ¬ (0#32).slt (width - BitVec.ofNat 32 L) := by
        rw [slt_iff_toNat]
        bv_omega
      have htail : padding (chr ' ') (width - BitVec.ofNat 32 L - BitVec.ofNat 32 L) =
          List.replicate (wrapped w L) (chr ' ') := by
        by_cases hfit : 2 * L ≤ w + 2 ^ 31
        · rw [wrapped, if_pos (.inr hfit)]
          exact hnone _ _ (by bv_omega)
        · have hwrap : (width - BitVec.ofNat 32 L - BitVec.ofNat 32 L).toNat =
              w + 2 ^ 32 - 2 * L := by
            bv_omega
          have hslt : (0#32).slt (width - BitVec.ofNat 32 L - BitVec.ofNat 32 L) := by
            rw [slt_iff_toNat]
            omega
          rw [wrapped, if_neg (by bv_omega), padding, if_pos hslt, hwrap]
      rw [if_neg hslt, htail, padding, if_neg hslt, Nat.sub_eq_zero_of_le hwL]
      simp
  · rw [if_neg fun h => hpos h.1]
    rw [slt_iff_toNat] at hpos
    have hw0 : w = 0 := by bv_omega
    have htail : padding (chr ' ') (width - BitVec.ofNat 32 L) = [] := hnone _ _ (by bv_omega)
    rw [htail, hw0, wrapped, if_pos (.inl rfl), Nat.zero_sub]
    simp

variable {L : ℕ}

/-- Only a width that is an `int` can be reached. -/
theorem stringText_eq_iff (hlen : s.length < 2 ^ 31)
    (hL : (clip (precisionFlags W z N).precision s).length = L) :
    stringText (precisionFlags W z N) s = precisionText W N s ↔
      W < 2 ^ 31 ∧ (W = 0 ∨ 2 * L ≤ W + 2 ^ 31) ∧
        List.replicate (W - L) ((precisionFlags W z N).padc.signExtend 32) ++
          (clip (precisionFlags W z N).precision s).map (BitVec.signExtend 32) =
            precisionText W N s := by
  have hle := length_clip_le (precisionFlags W z N).precision s
  obtain ⟨hlt, hint, hmod⟩ := precisionFlags_width (W := W) z N
  have htext := stringText_precision (W := W) (z := z) (N := N) hlen hL rfl
  rw [hL] at hle
  constructor
  · intro heq
    have hlengths := congrArg List.length heq
    rw [htext] at hlengths
    simp only [length_precisionText, List.length_append, List.length_replicate, List.length_map,
      hL, wrapped] at hlengths
    have hW : W < 2 ^ 31 := by
      split at hlengths <;> omega
    have hfit : W = 0 ∨ 2 * L ≤ W + 2 ^ 31 := by
      rw [hint hW] at hlengths
      split at hlengths <;> omega
    rw [hint hW, wrapped, if_pos hfit, List.replicate_zero, List.append_nil] at htext
    exact ⟨hW, hfit, htext.symm.trans heq⟩
  · rintro ⟨hW, hfit, heq⟩
    rw [hint hW, wrapped, if_pos hfit, List.replicate_zero, List.append_nil] at htext
    exact htext.trans heq

/-- A list that is its own prefix after some copies of `c` is all `c`. -/
theorem eq_replicate_of_shift {α : Type} {t : List α} {c e : α} {P : ℕ} (hP : P < t.length)
    (h : List.replicate (W - P) c ++ t.take P = List.replicate (W - t.length) e ++ t) :
    t.length ≤ W ∧ t = List.replicate t.length c ∧ (c = e ∨ W = t.length) := by
  have hlen := congrArg List.length h
  simp only [List.length_append, List.length_replicate, List.length_take] at hlen
  have hW : t.length ≤ W := by omega
  have hall : ∀ i (hi : i < t.length), t[i] = c := by
    intro i
    induction i using Nat.strongRecOn with
    | ind i ih =>
      intro hi
      have hright : (List.replicate (W - t.length) e ++ t)[W - t.length + i]? = some t[i] := by
        rw [List.getElem?_append_right (by simp), List.length_replicate, Nat.add_sub_cancel_left,
          List.getElem?_eq_getElem hi]
      rw [← h] at hright
      rcases Nat.lt_or_ge (W - t.length + i) (W - P) with hlt | hge
      · rw [List.getElem?_append_left (by simpa using hlt), List.getElem?_replicate,
          if_pos hlt] at hright
        exact (Option.some.inj hright).symm
      · rw [List.getElem?_append_right (by simpa using hge), List.length_replicate,
          List.getElem?_take_of_lt (by omega), List.getElem?_eq_getElem (by omega)] at hright
        have hback := ih (W - t.length + i - (W - P)) (by omega) (by omega)
        exact (Option.some.inj hright).symm.trans hback
  refine ⟨hW, List.eq_replicate_iff.mpr ⟨rfl, fun b hb => ?_⟩, ?_⟩
  · obtain ⟨i, hi, rfl⟩ := List.getElem_of_mem hb
    exact hall i hi
  · rcases Nat.eq_or_lt_of_le hW with heq | hlt
    · exact .inr heq.symm
    · left
      have hfirst : (List.replicate (W - P) c ++ t.take P)[0]? =
          (List.replicate (W - t.length) e ++ t)[0]? := by rw [h]
      rw [List.getElem?_append_left (by rw [List.length_replicate]; omega),
        List.getElem?_append_left (by rw [List.length_replicate]; omega),
        List.getElem?_replicate, List.getElem?_replicate, if_pos (by omega),
        if_pos (by omega)] at hfirst
      exact Option.some.inj hfirst

theorem signExtend_injective (a b : Byte)
    (h : (a.signExtend 32 : BitVec 32) = b.signExtend 32) : a = b := by
  have hint := congrArg BitVec.toInt h
  rw [BitVec.toInt_signExtend_of_le (by decide), BitVec.toInt_signExtend_of_le (by decide)] at hint
  exact BitVec.eq_of_toInt_eq hint

theorem map_signExtend_eq_replicate {n : ℕ} {c : Byte} :
    s.map (BitVec.signExtend 32) = List.replicate n (c.signExtend 32 : BitVec 32) ↔
      s = List.replicate n c := by
  rw [← List.map_replicate]
  exact List.map_inj_right signExtend_injective

/-- The pad character that is left after `z` zeros. -/
def zerosPadc (z : ℕ) : Byte := if z = 0 then chr ' ' else chr '0'

/-- When a precision is obeyed: with `N = 0` hardly ever; else when the width is an `int` and no
zero was taken for a flag that matters; a precision that a `size_t` cuts is made up for only by a
string of pad characters. -/
def PrecisionObeyed (W z N : ℕ) (s : List Byte) : Prop :=
  if N = 0 then s = List.replicate W (chr ' ')
  else if N < 2 ^ 32 ∨ s.length ≤ N % 2 ^ 32 then
    W < 2 ^ 31 ∧ (z = 0 ∨ W ≤ min N s.length) ∧ (W = 0 ∨ 2 * min N s.length ≤ W + 2 ^ 31)
  else W < 2 ^ 31 ∧ s.length ≤ W ∧ s = List.replicate s.length (zerosPadc z) ∧
    (z = 0 ∨ W = s.length)

instance : Decidable (PrecisionObeyed W z N s) := by
  unfold PrecisionObeyed
  infer_instance

/-- What the directive leaves of a precision that a `size_t` holds, and of one that it cuts. -/
theorem clip_precision (hN : N ≠ 0) (hlen : s.length < 2 ^ 31) :
    clip (precisionFlags W z N).precision s =
      if N < 2 ^ 32 ∨ s.length ≤ N % 2 ^ 32 then s.take N else s.take (N % 2 ^ 32) := by
  have hprec : (precisionFlags W z N).precision = BitVec.ofNat 32 N := if_neg hN
  rw [hprec, clip, BitVec.toNat_ofNat]
  by_cases hneg : (BitVec.ofNat 32 N).slt 0
  · rw [if_pos hneg]
    rw [slt_iff_toNat, BitVec.toNat_ofNat] at hneg
    have hle : N < 2 ^ 32 ∨ s.length ≤ N % 2 ^ 32 := .inr (by bv_omega)
    have hN : s.length ≤ N := by bv_omega
    rw [if_pos hle, List.take_of_length_le hN]
  · rw [if_neg hneg]
    split
    · rename_i h
      rcases Nat.lt_or_ge N (2 ^ 32) with hlt | hge
      · rw [Nat.mod_eq_of_lt hlt]
      · have hle : s.length ≤ N % 2 ^ 32 := h.resolve_left (by omega)
        rw [List.take_of_length_le hle, List.take_of_length_le (by omega)]
    · rfl

theorem padc_eq_space : (zerosPadc z).signExtend 32 = (chr ' ' : BitVec 32) ↔ z = 0 := by
  unfold zerosPadc
  by_cases hz : z = 0
  · rw [if_pos hz]
    exact iff_of_true rfl hz
  · rw [if_neg hz]
    exact iff_of_false (by decide) hz

theorem precision_zero_iff (hlen : s.length < 2 ^ 31) :
    stringText (precisionFlags W z 0) s = precisionText W 0 s ↔
      s = List.replicate W (chr ' ') := by
  have hclip : clip (precisionFlags W z 0).precision s = s := rfl
  have htext : precisionText W 0 s = List.replicate W ((chr ' ' : Byte).signExtend 32) := by
    rw [precisionText, Nat.zero_min, List.take_zero, List.map_nil, List.append_nil]
    rfl
  have hpadc : (precisionFlags W z 0).padc = chr '0' := if_neg fun h => h.2 rfl
  rw [stringText_eq_iff hlen (congrArg List.length hclip), hclip, hpadc, htext]
  constructor
  · rintro ⟨-, -, heq⟩
    have hnone : W - s.length = 0 := by
      rcases h : W - s.length with _ | n
      · rfl
      · rw [h, List.replicate_succ] at heq
        obtain ⟨W, rfl⟩ : ∃ k, W = k + 1 := ⟨W - 1, by omega⟩
        rw [List.replicate_succ] at heq
        exact absurd (List.cons.inj heq).1 (by decide)
    rw [hnone, List.replicate_zero, List.nil_append, map_signExtend_eq_replicate] at heq
    exact heq
  · intro hs
    have hW : s.length = W := by rw [hs, List.length_replicate]
    refine ⟨by omega, by omega, ?_⟩
    rw [hW, Nat.sub_self, List.replicate_zero, List.nil_append, map_signExtend_eq_replicate]
    exact hs

theorem precision_kept_iff (hN : N ≠ 0) (hlen : s.length < 2 ^ 31)
    (h : N < 2 ^ 32 ∨ s.length ≤ N % 2 ^ 32) :
    stringText (precisionFlags W z N) s = precisionText W N s ↔
      W < 2 ^ 31 ∧ (z = 0 ∨ W ≤ min N s.length) ∧
        (W = 0 ∨ 2 * min N s.length ≤ W + 2 ^ 31) := by
  have hclip := clip_precision (W := W) (z := z) hN hlen
  have hpadc : (precisionFlags W z N).padc = zerosPadc z := by
    unfold precisionFlags zerosPadc
    simp [hN]
  rw [if_pos h] at hclip
  have hL : (clip (precisionFlags W z N).precision s).length = min N s.length := by
    rw [hclip, List.length_take]
  have hpad : List.replicate (W - min N s.length) ((zerosPadc z).signExtend 32) ++
      (s.take N).map (BitVec.signExtend 32) = precisionText W N s ↔
        z = 0 ∨ W ≤ min N s.length := by
    rw [precisionText, List.append_left_inj, List.replicate_inj, padc_eq_space]
    omega
  rw [stringText_eq_iff hlen hL, hclip, hpadc, hpad]
  exact and_congr_right fun _ => and_comm

theorem precision_cut_iff (hN : N ≠ 0) (hlen : s.length < 2 ^ 31)
    (h : ¬ (N < 2 ^ 32 ∨ s.length ≤ N % 2 ^ 32)) :
    stringText (precisionFlags W z N) s = precisionText W N s ↔
      W < 2 ^ 31 ∧ s.length ≤ W ∧ s = List.replicate s.length (zerosPadc z) ∧
        (z = 0 ∨ W = s.length) := by
  have hclip := clip_precision (W := W) (z := z) hN hlen
  have hpadc : (precisionFlags W z N).padc = zerosPadc z := by
    unfold precisionFlags zerosPadc
    simp [hN]
  rw [if_neg h] at hclip
  have hlt : N % 2 ^ 32 < s.length := by omega
  have hL : (clip (precisionFlags W z N).precision s).length = N % 2 ^ 32 := by
    rw [hclip, List.length_take]
    omega
  have hall : min N s.length = s.length := by omega
  have htext : precisionText W N s = List.replicate (W - s.length) (chr ' ') ++
      s.map (BitVec.signExtend 32) := by
    rw [precisionText, hall, List.take_of_length_le (by omega)]
  rw [stringText_eq_iff hlen hL, hclip, hpadc, htext]
  constructor
  · rintro ⟨hW, -, heq⟩
    rw [List.map_take] at heq
    have hshift := eq_replicate_of_shift (t := s.map (BitVec.signExtend 32)) (W := W)
      (c := (zerosPadc z).signExtend 32) (e := chr ' ') (P := N % 2 ^ 32)
      (by rwa [List.length_map]) (by rwa [List.length_map])
    rw [List.length_map, map_signExtend_eq_replicate, padc_eq_space] at hshift
    exact ⟨hW, hshift⟩
  · rintro ⟨hW, hle, hs, hz⟩
    refine ⟨hW, by omega, ?_⟩
    have htake : s.take (N % 2 ^ 32) = List.replicate (N % 2 ^ 32) (zerosPadc z) := by
      rw [hs, List.take_replicate]
      congr 1
      omega
    have hsum : W - N % 2 ^ 32 + N % 2 ^ 32 = W - s.length + s.length := by omega
    have hmap : s.map (BitVec.signExtend 32) =
        List.replicate s.length ((zerosPadc z).signExtend 32 : BitVec 32) :=
      map_signExtend_eq_replicate.mpr hs
    rw [htake, List.map_replicate, List.replicate_append_replicate, hsum, hmap,
      ← List.replicate_append_replicate, List.append_left_inj, List.replicate_inj, padc_eq_space]
    omega

/-- A precision that is written in the format is obeyed exactly when its first digit is not taken
for the flag `0`, or when that makes no difference. -/
theorem precision_obeyed_iff (W z N : ℕ) (s : List Byte) (hs : 0 ∉ s) (hlen : s.length < 2 ^ 31) :
    Settles (fun n => vprintfmt collect n (cstr (precisionFormat W z N)) [.str (some (cstr s))] [])
      (.ok (precisionText W N s)) ↔ PrecisionObeyed W z N s := by
  have hprints := precisionFormat_prints W z N hs
  have hiff : stringText (precisionFlags W z N) s = precisionText W N s ↔
      PrecisionObeyed W z N s := by
    unfold PrecisionObeyed
    split
    · rename_i hN
      rw [hN]
      exact precision_zero_iff hlen
    · rename_i hN
      split
      · exact precision_kept_iff hN hlen ‹_›
      · exact precision_cut_iff hN hlen ‹_›
  rw [← hiff]
  constructor
  · intro h
    exact Except.ok.inj (hprints.unique h)
  · intro heq
    rwa [heq] at hprints

theorem precision_obeyed_iff_two :
    Settles (fun n => vprintfmt collect n (cstr (precisionFormat 5 0 2))
      [.str (some (cstr (lit "abc")))] []) (.ok (precisionText 5 2 (lit "abc"))) ↔
    PrecisionObeyed 5 0 2 (lit "abc") :=
  precision_obeyed_iff 5 0 2 (lit "abc") (by decide) (by decide)

/-- `%.0s` prints the whole string. -/
theorem precision_zero_ignored : ¬ Settles (fun n =>
    vprintfmt collect n (cstr (precisionFormat 0 0 0)) [.str (some (cstr (lit "abc")))] [])
      (.ok (precisionText 0 0 (lit "abc"))) := by
  intro h
  have hprints := precisionFormat_prints 0 0 0 (s := lit "abc") (by decide)
  have heq := Except.ok.inj (hprints.unique h)
  exact absurd heq (by decide)

end Jos
