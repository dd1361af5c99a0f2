import Jos.Lib.Text
import Jos.Lib.RoundTrip

/-! The directive `%e`: error codes and their messages. -/
namespace Jos

open Prog

variable {err v : BitVec 32} {ap : VaList} {o : List (BitVec 32)} {u msg : List Byte}
  {gs : List Segment} {k : ℕ}

/-- `err`, without its sign where that is possible. -/
def magnitude (err : BitVec 32) : BitVec 32 := if err.slt 0 then -err else err

/-- The index at which `error_string` is read for `err`, when it is. -/
def errorIndex (err : BitVec 32) : Option Int :=
  if maxError.sle (magnitude err) then none else some (magnitude err).toInt

/-- What is to be printed for the codes `k` and `-k`. -/
def errorText (k : ℕ) : List (BitVec 32) :=
  match errorString[k]?.join with
  | some msg => chars msg
  | none => chars (lit "error " ++ numeral 10 k)

/-- `%e` looks up `err` inside the table, and prints it and its negation as the same code. -/
structure PrintsCode (err : BitVec 32) : Prop where
  index : ∀ i, errorIndex err = some i → 0 ≤ i ∧ i < maxError.toInt
  text : Settles (fun n => vprintfmt collect n (cstr (lit "%e")) [.int err] [])
    (.ok (errorText err.toInt.natAbs))
  negated : Settles (fun n => vprintfmt collect n (cstr (lit "%e")) [.int (-err)] [])
    (.ok (errorText err.toInt.natAbs))

/-- The table is read where `errorIndex` says, and nowhere else. -/
theorem errorMessage_eq {σ : Type} (printfmt : List Byte → VaList → σ → Res σ) (err : BitVec 32)
    (s : σ) : errorMessage printfmt err s =
      match errorIndex err with
      | none => printfmt (cstr (lit "error %d")) [.int (magnitude err)] s
      | some i => errorEntry (BitVec.ofInt 32 i) >>= fun p =>
        match p with
        | none => printfmt (cstr (lit "error %d")) [.int (magnitude err)] s
        | some p => printfmt (cstr (lit "%s")) [.str (cstr p)] s := by
  rw [errorMessage, errorIndex]
  change (if maxError.sle (magnitude err) then _ else _) = _
  by_cases hlarge : maxError.sle (magnitude err)
  · rw [if_pos hlarge, if_pos hlarge]
    rfl
  · rw [if_neg hlarge, if_neg hlarge]
    dsimp only
    rw [BitVec.ofInt_toInt]
    rfl

/-! ### The magnitude -/

theorem toNat_magnitude (h : err ≠ BitVec.intMin 32) :
    (magnitude err).toNat = err.toInt.natAbs ∧ err.toInt.natAbs < 2 ^ 31 := by
  have hmin : err.toNat ≠ 2 ^ 31 := fun h' => h (BitVec.eq_of_toNat_eq h')
  have hlt := err.isLt
  have hneg : err.slt 0 ↔ err.toInt < 0 := BitVec.slt_iff_toInt_lt
  have hint := BitVec.toInt_eq_toNat_cond err
  by_cases hs : err.slt 0
  · rw [magnitude, if_pos hs, BitVec.toNat_neg]
    rw [hneg] at hs
    omega
  · rw [magnitude, if_neg hs]
    rw [hneg] at hs
    omega

theorem magnitude_neg (h : err ≠ BitVec.intMin 32) : magnitude (-err) = magnitude err := by
  have hmin : -err ≠ BitVec.intMin 32 := by
    intro h'
    rw [BitVec.neg_eq_iff_eq_neg] at h'
    exact h (h'.trans (by decide))
  have hneg : (-err).toInt.natAbs = err.toInt.natAbs := by
    rw [BitVec.toInt_neg_of_ne_intMin h, Int.natAbs_neg]
  refine BitVec.eq_of_toNat_eq ?_
  rw [(toNat_magnitude hmin).1, (toNat_magnitude h).1, hneg]

theorem maxError_sle_iff (hv : v.toNat < 2 ^ 31) : maxError.sle v ↔ 7 ≤ v.toNat := by
  have hseven : maxError.toInt = 7 := rfl
  rw [BitVec.sle_iff_toInt_le, hseven, BitVec.toInt_eq_toNat_cond]
  omega

theorem errorIndex_magnitude (hv : (magnitude err).toNat < 2 ^ 31) {i : Int}
    (hi : errorIndex err = some i) : 0 ≤ i ∧ i < maxError.toInt := by
  have hseven : maxError.toInt = 7 := rfl
  rw [errorIndex] at hi
  split at hi
  · cases hi
  · rename_i hlarge
    rw [maxError_sle_iff hv] at hlarge
    obtain rfl := Option.some.inj hi
    rw [hseven, BitVec.toInt_eq_toNat_cond]
    omega

/-! ### What the nested calls print -/

theorem renders_texts (h : Renders (u.map Segment.text ++ gs) ap o) :
    ∃ o', o = chars u ++ o' ∧ Renders gs ap o' := by
  induction u generalizing o with
  | nil => exact ⟨o, rfl, h⟩
  | cons c u ih =>
    cases h with
    | cons hprints hrest =>
      obtain ⟨o', rfl, hrenders⟩ := ih hrest
      obtain rfl := hprints
      exact ⟨o', rfl, hrenders⟩

theorem signedText_nonneg (hv : v.toNat < 2 ^ 31) :
    signedText (v.signExtend 64) {} = chars (numeral 10 v.toNat) := by
  have hext : (v.signExtend 64).toNat = v.toNat := by
    have hmsb : v.msb = false := by
      rw [BitVec.msb_eq_false_iff_two_mul_lt]
      omega
    rw [BitVec.signExtend_eq_setWidth_of_msb_false hmsb,
      BitVec.toNat_setWidth_of_le (by decide)]
  have hpos : ¬ (v.signExtend 64).slt 0 := by
    have hneg : (v.signExtend 64).slt 0 ↔ (v.signExtend 64).toInt < 0 := BitVec.slt_iff_toInt_lt
    rw [hneg, BitVec.toInt_eq_toNat_cond]
    omega
  rw [signedText, if_neg hpos, ← hext]
  exact numberText_default (by decide) _

theorem error_number (hv : v.toNat < 2 ^ 31) :
    Settles (fun n => vprintfmt collect n (cstr (lit "error %d")) [.int v] [])
      (.ok (chars (lit "error " ++ numeral 10 v.toNat))) := by
  have hfit : Fits (formatArgs (lit "error %d")) [.int v] := ⟨trivial, trivial⟩
  obtain ⟨o, hrenders, ho⟩ := vprintfmt_collects (by decide) hfit fun h => absurd h (by decide)
  have hsegments : segments (lit "error %d") =
      (lit "error ").map Segment.text ++ [.directive [] (chr 'd')] := by decide
  rw [hsegments] at hrenders
  obtain ⟨o', rfl, hlast⟩ := renders_texts hrenders
  cases hlast with
  | cons hprints hrest =>
    cases hrest
    have hnumber := Except.ok.inj (hprints.unique (vprintfmt_signed ⟨false, none⟩ v))
    subst hnumber
    have htext := signedText_nonneg hv
    rw [chars, List.map_append, ← chars, ← chars, ← htext]
    rw [List.append_nil] at ho
    exact ho

/-- The messages are plain characters. -/
theorem errorString_plain (h : some msg ∈ errorString) :
    0 ∉ msg ∧ msg.length < 2 ^ 31 ∧ msg.map (BitVec.signExtend 32) = chars msg := by
  have hall : ∀ p ∈ errorString, ∀ msg ∈ p,
      0 ∉ msg ∧ msg.length < 2 ^ 31 ∧ msg.map (BitVec.signExtend 32) = chars msg := by decide
  exact hall _ h msg rfl

theorem errorEntry_eq (hv : v.toNat < 7) (hk : errorString[v.toNat]? = some p) :
    errorEntry v = .ok p := by
  have hindex : (4 * v).toNat / 4 = v.toNat := by bv_omega
  rw [errorEntry, hindex, hk]

theorem errorText_unknown (hk : errorString[k]?.join = none) :
    errorText k = chars (lit "error " ++ numeral 10 k) := by
  rw [errorText, hk]

theorem errorText_known (hk : errorString[k]?.join = some msg) : errorText k = chars msg := by
  rw [errorText, hk]

theorem errorMessage_settles (hv : (magnitude err).toNat < 2 ^ 31) :
    Settles (fun n => errorMessage (vprintfmt collect n) err [])
      (.ok (errorText (magnitude err).toNat)) := by
  have hmessage : ∀ n, errorMessage (vprintfmt collect n) err [] =
      if maxError.sle (magnitude err) then
        vprintfmt collect n (cstr (lit "error %d")) [.int (magnitude err)] []
      else errorEntry (magnitude err) >>= fun p =>
        match p with
        | none => vprintfmt collect n (cstr (lit "error %d")) [.int (magnitude err)] []
        | some p => vprintfmt collect n (cstr (lit "%s")) [.str (cstr p)] [] := fun _ => rfl
  have hnumber := error_number hv
  by_cases hlarge : maxError.sle (magnitude err)
  · have hnone : errorString[(magnitude err).toNat]?.join = none := by
      rw [maxError_sle_iff hv] at hlarge
      rw [List.getElem?_eq_none hlarge]
      rfl
    rw [errorText_unknown hnone]
    exact hnumber.congr fun n => (hmessage n).trans (if_pos hlarge)
  · have hsmall : (magnitude err).toNat < 7 := by
      rw [maxError_sle_iff hv] at hlarge
      omega
    have hget := List.getElem?_eq_getElem (l := errorString) hsmall
    cases hp : errorString[(magnitude err).toNat] with
    | none =>
      rw [hp] at hget
      have hnone : errorString[(magnitude err).toNat]?.join = none := by rw [hget]; rfl
      rw [errorText_unknown hnone]
      refine hnumber.congr fun n => ?_
      rw [hmessage, if_neg hlarge, errorEntry_eq hsmall hget]
      rfl
    | some msg =>
      rw [hp] at hget
      have hsome : errorString[(magnitude err).toNat]?.join = some msg := by rw [hget]; rfl
      obtain ⟨h0, hlen, hplain⟩ := errorString_plain (List.mem_of_getElem? hget)
      rw [errorText_known hsome, ← hplain]
      refine (vprintfmt_string h0 hlen).congr fun n => ?_
      rw [hmessage, if_neg hlarge, errorEntry_eq hsmall hget]
      rfl

/-- A format that is the directive `%e` prints what the message is. -/
theorem vprintfmt_error
    (h : Settles (fun n => errorMessage (vprintfmt collect n) err []) (.ok o)) :
    Settles (fun n => vprintfmt collect n (cstr (lit "%e")) [.int err] []) (.ok o) := by
  refine vprintfmt_field (r := []) ⟨false, none⟩ (by decide) fun f i l => ?_
  have hget : vaInt [.int err] = .ok (err, []) := rfl
  simp +decide only [convert, hget]
  exact h.bind (Settles.const _)

/-- The most negative code is its own negation: it is the only one that is looked up outside the
table. -/
theorem error_printed_iff (err : BitVec 32) : PrintsCode err ↔ err ≠ BitVec.intMin 32 := by
  constructor
  · rintro ⟨hindex, -, -⟩ rfl
    have hbad := hindex (-2 ^ 31) (by decide)
    omega
  · intro h
    obtain ⟨habs, hlt⟩ := toNat_magnitude h
    have hv : (magnitude err).toNat < 2 ^ 31 := by omega
    have hv' : (magnitude (-err)).toNat < 2 ^ 31 := by rwa [magnitude_neg h]
    have htext := errorMessage_settles hv
    have hnegated := errorMessage_settles hv'
    rw [magnitude_neg h] at hnegated
    rw [habs] at htext hnegated
    exact ⟨fun i => errorIndex_magnitude hv, vprintfmt_error htext, vprintfmt_error hnegated⟩

/-- The index is far in front of the table. -/
theorem error_outside_table : ¬ ∀ err, PrintsCode err := by
  intro h
  have hbad := (h (BitVec.intMin 32)).index (-2 ^ 31) (by decide)
  omega

end Jos
