import Jos.Lib.Fields

/-! `strtol` reads back the numbers that `vprintfmt` prints. -/
namespace Jos

open Prog

variable {p pre post ds sign pfx : List Byte} {a c : Byte} {base base' val v : BitVec 32}
  {b n k : ℕ} {neg : Bool}

/-! ### The loops of `strtol` -/

/-- `c` is read as a digit of this base. -/
def IsDigitOf (base : BitVec 32) (c : Byte) : Prop :=
  ∃ dig, digitValue c = some dig ∧ ¬ base.sle dig

/-- What the digits make of `val`, in 32 bits. -/
def readDigits (base val : BitVec 32) (ds : List Byte) : BitVec 32 :=
  ds.foldl (fun val c => val * base + (digitValue c).getD 0) val

theorem readDigits_append (u w : List Byte) :
    readDigits base val (u ++ w) = readDigits base (readDigits base val u) w :=
  List.foldl_append

theorem not_isDigitOf_of_none (hc : digitValue c = none) : ¬ IsDigitOf base c := by
  rintro ⟨dig, hdig, -⟩
  rw [hc] at hdig
  cases hdig

theorem strtolBody_exit {i : ℕ} (hc : ¬ IsDigitOf base c) (hget : p[i]? = some c) :
    strtolBody p base (val, i) = .ok (.inr (val, i)) := by
  simp only [strtolBody, peek_of_getElem? hget, ok_bind]
  cases hdig : digitValue c with
  | none => rfl
  | some dig =>
    have hle : base.sle dig := not_not.mp fun h => hc ⟨dig, hdig, h⟩
    exact if_pos hle

theorem digits_read (val : BitVec 32) (hds : ∀ a ∈ ds, IsDigitOf base a) (hc : ¬ IsDigitOf base c)
    (hp : p = pre ++ ds ++ c :: post) :
    Settles (fun n => loop (strtolBody p base) n (val, pre.length))
      (.ok (readDigits base val ds, (pre ++ ds).length)) := by
  induction ds generalizing pre val with
  | nil =>
    have hget : p[pre.length]? = some c := by simp [hp]
    rw [List.append_nil]
    exact .loop_exit (strtolBody_exit hc hget)
  | cons a ds ih =>
    obtain ⟨dig, hdig, hlt⟩ := hds a (by simp)
    have hget : p[pre.length]? = some a := by simp [hp]
    have hp' : p = (pre ++ [a]) ++ ds ++ c :: post := by simp [hp]
    have hrest := ih (val * base + dig) (fun e he => hds e (by simp [he])) hp'
    have hval : readDigits base val (a :: ds) = readDigits base (val * base + dig) ds := by
      simp [readDigits, hdig]
    rw [hval]
    rw [List.append_assoc, List.singleton_append, List.length_append,
      List.length_singleton] at hrest
    refine Settles.loop_next ?_ hrest
    simp only [strtolBody, peek_of_getElem? hget, ok_bind, hdig, if_neg hlt]
    rfl

def isBlank (c : Byte) : Bool := c = chr ' ' ∨ c = chr '\t'

theorem blanks_settle {u : List Byte} (hu : ∀ b ∈ u, isBlank b) (ha : ¬ isBlank a)
    (hp : p = pre ++ u ++ a :: post) :
    Settles (fun n => loop (blankBody p) n pre.length) (.ok (pre ++ u).length) := by
  have hbody : ∀ {i : ℕ} {b : Byte}, p[i]? = some b → blankBody p i =
      if b = chr ' ' ∨ b = chr '\t' then .ok (.inl (i + 1)) else .ok (.inr i) := by
    intro i b hget
    rw [blankBody, peek_of_getElem? hget]
    rfl
  induction u generalizing pre with
  | nil =>
    have hget : p[pre.length]? = some a := by simp [hp]
    rw [List.append_nil]
    exact .loop_exit ((hbody hget).trans (if_neg (by simpa [isBlank] using ha)))
  | cons b u ih =>
    have hget : p[pre.length]? = some b := by simp [hp]
    have hp' : p = (pre ++ [b]) ++ u ++ a :: post := by simp [hp]
    have hb : b = chr ' ' ∨ b = chr '\t' := of_decide_eq_true (hu b (by simp))
    have hrest := ih (fun e he => hu e (by simp [he])) hp'
    rw [List.append_assoc, List.singleton_append, List.length_append,
      List.length_singleton] at hrest
    exact .loop_next ((hbody hget).trans (if_pos hb)) hrest

/-! ### The text of a number -/

theorem digitValue_digitChar (hn : n < 16) :
    digitValue (chr n.digitChar) = some (BitVec.ofNat 32 n) := by
  have : ∀ n < 16, digitValue (chr (n : ℕ).digitChar) = some (BitVec.ofNat 32 n) := by decide
  exact this n hn

theorem isDigitOf_digitChar (hn : n < base.toNat) (hb : base.toNat ≤ 16) :
    IsDigitOf base (chr n.digitChar) := by
  refine ⟨_, digitValue_digitChar (by omega), ?_⟩
  rw [BitVec.sle_iff_toInt_le, BitVec.toInt_eq_toNat_cond, BitVec.toInt_eq_toNat_cond,
    BitVec.toNat_ofNat]
  omega

theorem isDigitOf_numeral (base : BitVec 32) (hb : 1 < base.toNat) (hb' : base.toNat ≤ 16) :
    ∀ c ∈ numeral base.toNat n, IsDigitOf base c := by
  induction n using Nat.strongRecOn with
  | ind n ih =>
    by_cases hn : n < base.toNat
    · rw [numeral_of_lt hn]
      intro c hc
      obtain rfl := List.mem_singleton.mp hc
      exact isDigitOf_digitChar hn hb'
    · rw [numeral_of_le hb (by omega)]
      intro c hc
      rcases List.mem_append.mp hc with hc | hc
      · exact ih _ (Nat.div_lt_self (by omega) hb) c hc
      · obtain rfl := List.mem_singleton.mp hc
        exact isDigitOf_digitChar (Nat.mod_lt n (by omega)) hb'

theorem readDigits_numeral (base : BitVec 32) (hb : 1 < base.toNat) (hb' : base.toNat ≤ 16) :
    readDigits base 0 (numeral base.toNat n) = BitVec.ofNat 32 n := by
  induction n using Nat.strongRecOn with
  | ind n ih =>
    by_cases hn : n < base.toNat
    · rw [numeral_of_lt hn, readDigits, List.foldl_cons, List.foldl_nil,
        digitValue_digitChar (by omega)]
      simp
    · have hmod : n % base.toNat < 16 := by
        have := Nat.mod_lt n (show 0 < base.toNat by omega)
        omega
      have hdiv : n / base.toNat * base.toNat + n % base.toNat = n := Nat.div_add_mod' n _
      rw [numeral_of_le hb (by omega), readDigits_append, ih _ (Nat.div_lt_self (by omega) hb),
        readDigits, List.foldl_cons, List.foldl_nil, digitValue_digitChar hmod]
      conv_rhs => rw [← hdiv, BitVec.ofNat_add, BitVec.ofNat_mul]
      simp

theorem readDigits_zeros (k : ℕ) (ds : List Byte) :
    readDigits base 0 (List.replicate k (chr '0') ++ ds) = readDigits base 0 ds := by
  induction k with
  | zero => simp
  | succ k ih =>
    have hzero : digitValue (chr '0') = some 0 := by decide
    rw [List.replicate_succ, List.cons_append, readDigits, List.foldl_cons, hzero]
    simpa [readDigits] using ih

/-! ### Reading a whole text -/

/-- What may stand before the digits for the base that is asked for. -/
def PrefixOf (base base' : BitVec 32) (pfx : List Byte) : Prop :=
  pfx = [] ∧ base' = base ∧ base ≠ 0 ∨
    pfx = [chr '0', chr 'x'] ∧ base' = 16 ∧ (base = 0 ∨ base = 16)

theorem isDigitOf_ne (h : IsDigitOf base c) :
    c ≠ chr ' ' ∧ c ≠ chr '\t' ∧ c ≠ chr '+' ∧ c ≠ chr '-' := by
  have hnone : ∀ c ∈ lit " \t+-", digitValue c = none := by decide
  have hmem : c ∉ lit " \t+-" := by
    intro hmem
    obtain ⟨dig, hdig, -⟩ := h
    rw [hnone c hmem] at hdig
    cases hdig
  refine ⟨?_, ?_, ?_, ?_⟩ <;> rintro rfl <;> exact hmem (by decide)

theorem hexPrefix_of_digits (hds : ds ≠ []) (h : ∀ c ∈ ds, IsDigitOf 16 c)
    (hp : p = pre ++ ds ++ [0]) : hexPrefix p pre.length = .ok false := by
  have hx : ¬ IsDigitOf 16 (chr 'x') := by
    rintro ⟨dig, hdig, hlt⟩
    obtain rfl := Option.some.inj ((by decide : digitValue (chr 'x') = some 33).symm.trans hdig)
    exact hlt (by decide)
  match ds, hds with
  | a :: rest, _ =>
    have hget : p[pre.length]? = some a := by simp [hp]
    simp only [hexPrefix, peek_of_getElem? hget, ok_bind]
    split
    · obtain ⟨e, hnext, he⟩ : ∃ e, p[pre.length + 1]? = some e ∧ e ≠ chr 'x' := by
        cases rest with
        | nil => exact ⟨0, by simp [hp], by decide⟩
        | cons e rest =>
          refine ⟨e, by simp [hp], ?_⟩
          rintro rfl
          exact hx (h _ (by simp))
      rw [peek_of_getElem? hnext, ok_bind, decide_eq_false he]
      rfl
    · rfl

theorem strtolPrefix_settles (hpfx : PrefixOf base base' pfx) (hds : ds ≠ [])
    (h : ∀ c ∈ ds, IsDigitOf base' c) (hp : p = pre ++ pfx ++ ds ++ [0]) :
    strtolPrefix p base pre.length = .ok (base', pre.length + pfx.length) := by
  rcases hpfx with ⟨rfl, rfl, hbase⟩ | ⟨rfl, rfl, hbase⟩
  · have hhex : (if base' = 0 ∨ base' = 16 then hexPrefix p pre.length else pure false) =
        .ok false := by
      split
      · rename_i h16
        obtain rfl := h16.resolve_left hbase
        exact hexPrefix_of_digits hds h (by simpa using hp)
      · rfl
    simp only [strtolPrefix, hhex, ok_bind, if_neg hbase]
    rfl
  · have hget : p[pre.length]? = some (chr '0') := by simp [hp]
    have hnext : p[pre.length + 1]? = some (chr 'x') := by simp [hp]
    simp only [strtolPrefix, if_pos hbase, hexPrefix, peek_of_getElem? hget, ok_bind, if_true,
      peek_of_getElem? hnext]
    rfl

theorem strtolSign_settles (ha : a ≠ chr '+' ∧ a ≠ chr '-')
    (hp : p = pre ++ (if neg then [chr '-'] else []) ++ a :: post) :
    strtolSign p pre.length =
      .ok (neg, (pre ++ (if neg then [chr '-'] else [])).length) := by
  cases neg with
  | true =>
    have hget : p[pre.length]? = some (chr '-') := by simp [hp]
    have hplus : (chr '-' : Byte) ≠ chr '+' := by decide
    simp only [strtolSign, peek_of_getElem? hget, ok_bind, if_neg hplus, if_true]
    simp
  | false =>
    have hget : p[pre.length]? = some a := by simp [hp]
    simp only [strtolSign, peek_of_getElem? hget, ok_bind, if_neg ha.1, if_neg ha.2]
    simp

/-- Blanks, a sign, a prefix and digits are read to the end. -/
theorem strtol_settles (neg : Bool) (hpfx : PrefixOf base base' pfx) (hds : ds ≠ [])
    (h : ∀ c ∈ ds, IsDigitOf base' c) {text : List Byte}
    (htext : text = List.replicate k (chr ' ') ++ (if neg then [chr '-'] else []) ++ pfx ++ ds) :
    Settles (fun n => strtol n (cstr text) base)
      (.ok (if neg then -readDigits base' 0 ds else readDigits base' 0 ds, text.length)) := by
  -- whatever the prefix, the number begins with a digit
  obtain ⟨a, rest, hcons, hspace, htab, hplus, hminus⟩ : ∃ a rest, pfx ++ ds = a :: rest ∧
      a ≠ chr ' ' ∧ a ≠ chr '\t' ∧ a ≠ chr '+' ∧ a ≠ chr '-' := by
    rcases hpfx with ⟨rfl, -, -⟩ | ⟨rfl, -, -⟩
    · obtain ⟨a, rest, rfl⟩ := List.exists_cons_of_ne_nil hds
      exact ⟨a, rest, rfl, isDigitOf_ne (h a (by simp))⟩
    · exact ⟨chr '0', chr 'x' :: ds, rfl, by decide⟩
  let blanks := List.replicate k (chr ' ' : Byte)
  let sign : List Byte := if neg then [chr '-'] else []
  have hp : cstr text = blanks ++ sign ++ pfx ++ ds ++ [0] := by rw [cstr, htext]
  have hblanks : Settles (fun n => loop (blankBody (cstr text)) n 0) (.ok blanks.length) := by
    have hall : ∀ b ∈ blanks, isBlank b := by
      intro b hb
      rw [(List.mem_replicate.mp hb).2]
      rfl
    cases neg with
    | true =>
      have hp' : cstr text = [] ++ blanks ++ chr '-' :: (pfx ++ ds ++ [0]) := by simp [hp, sign]
      exact blanks_settle hall (by decide) hp'
    | false =>
      have hp' : cstr text = [] ++ blanks ++ a :: (rest ++ [0]) := by
        rw [List.nil_append, ← List.cons_append, ← hcons]
        simp [hp, sign]
      exact blanks_settle hall (by simp [isBlank, hspace, htab]) hp'
  have hsign : strtolSign (cstr text) blanks.length = .ok (neg, (blanks ++ sign).length) := by
    have hp' : cstr text = blanks ++ sign ++ a :: (rest ++ [0]) := by
      rw [← List.cons_append, ← hcons, hp]
      simp
    exact strtolSign_settles ⟨hplus, hminus⟩ hp'
  have hpre : strtolPrefix (cstr text) base (blanks ++ sign).length =
      .ok (base', (blanks ++ sign ++ pfx).length) := by
    rw [strtolPrefix_settles hpfx hds h hp, ← List.length_append]
  have hread := digits_read 0 h (not_isDigitOf_of_none (by decide)) hp
  have hlen : (blanks ++ sign ++ pfx ++ ds).length = text.length := by rw [htext]
  rw [hlen] at hread
  unfold strtol
  refine hblanks.bind ?_
  simp only [hsign, hpre, ok_bind]
  exact hread.bind (Settles.const _)

/-! ### Printing and reading back -/

/-- What is printed with this format and these arguments is read in this base as `v`, up to its
end. -/
def ReadsBack (fmt : List Byte) (ap : VaList) (base v : BitVec 32) : Prop :=
  ∃ text, Settles (fun n => vprintfmt collect n (cstr fmt) ap []) (.ok (chars text)) ∧
    Settles (fun n => strtol n (cstr text) base) (.ok (v, text.length))

/-- Without a width there is no padding. -/
theorem numberText_default {v : BitVec 64} (hb : 2 ≤ b) (padc : BitVec 32) :
    numberText b v.toNat (-1) padc = chars (numeral b v.toNat) := by
  have hlen := length_numeral_le hb v.isLt
  have hneg : ¬ (0#32).slt (-1 - BitVec.ofNat 32 (numeral b v.toNat).length) := by
    rw [BitVec.slt_iff_toInt_lt, BitVec.toInt_zero, BitVec.toInt_eq_toNat_cond,
      BitVec.toNat_sub, BitVec.toNat_ofNat]
    have hone : (-1 : BitVec 32).toNat = 2 ^ 32 - 1 := rfl
    omega
  rw [numberText, padding, if_neg hneg, List.nil_append]

theorem exists_padding (c : Byte) (hc : (c.signExtend 32 : BitVec 32) = c.setWidth 32)
    (width : BitVec 32) :
    ∃ k, numberText b n width (c.signExtend 32) = chars (List.replicate k c ++ numeral b n) := by
  unfold numberText padding
  split
  · exact ⟨(width - BitVec.ofNat 32 (numeral b n).length).toNat, by simp [chars, hc]⟩
  · exact ⟨0, by simp [chars]⟩

/-- A number printed in any field is its digits after blanks or after zeros. -/
theorem exists_field_text (w : Field) (hw : w.width = none ∨ w.zero) {v : BitVec 64} (hb : 2 ≤ b) :
    ∃ k, numberText b v.toNat w.flags.width (w.flags.padc.signExtend 32) =
      chars (List.replicate k (chr '0') ++ numeral b v.toNat) := by
  by_cases hzero : w.zero
  · have hpadc : w.flags.padc = chr '0' := if_pos hzero
    rw [hpadc]
    exact exists_padding (chr '0') (by decide) _
  · have hwidth : w.flags.width = -1 := by rw [Field.flags, hw.resolve_right hzero]; rfl
    exact ⟨0, by rw [hwidth, numberText_default hb]; simp⟩

theorem isDigitOf_zeros_numeral (hb : 1 < base.toNat) (hb' : base.toNat ≤ 16) :
    ∀ c ∈ List.replicate k (chr '0') ++ numeral base.toNat n, IsDigitOf base c := by
  intro c hc
  rcases List.mem_append.mp hc with hc | hc
  · rw [(List.mem_replicate.mp hc).2]
    exact isDigitOf_digitChar (n := 0) (by omega) hb'
  · exact isDigitOf_numeral base hb hb' c hc

/-- Blanks, a sign, zeros and a numeral are read as the number. -/
theorem strtol_number (base : BitVec 32) (neg : Bool) (j k n : ℕ) (hb : 1 < base.toNat)
    (hb' : base.toNat ≤ 16) {text : List Byte}
    (htext : text = List.replicate j (chr ' ') ++ (if neg then [chr '-'] else []) ++
      (List.replicate k (chr '0') ++ numeral base.toNat n)) :
    Settles (fun fuel => strtol fuel (cstr text) base)
      (.ok (if neg then -BitVec.ofNat 32 n else BitVec.ofNat 32 n, text.length)) := by
  have hbase : base ≠ 0 := by
    rintro rfl
    exact absurd hb (by decide)
  have htext' : text = List.replicate j (chr ' ') ++ (if neg then [chr '-'] else []) ++ [] ++
      (List.replicate k (chr '0') ++ numeral base.toNat n) := by
    rw [htext, List.append_nil]
  have h := strtol_settles (k := j) neg (.inl ⟨rfl, rfl, hbase⟩) (by simp [numeral_ne_nil])
    (isDigitOf_zeros_numeral (k := k) (n := n) hb hb') htext'
  rwa [readDigits_zeros, readDigits_numeral base hb hb'] at h

theorem setWidth_signExtend (v : BitVec 32) : (v.signExtend 64).setWidth 32 = v := by
  ext i hi
  simp [BitVec.getElem_setWidth, BitVec.getLsbD_signExtend, hi]
  omega

theorem readsBack_signed (w : Field) (hw : w.width = none ∨ w.zero) (v : BitVec 32) :
    ReadsBack (chr '%' :: w.source ++ [chr 'd']) (w.args ++ [.int v]) 10 v := by
  have hprint := vprintfmt_signed w v
  unfold signedText at hprint
  by_cases hneg : (v.signExtend 64).slt 0
  · obtain ⟨k, hk⟩ := exists_field_text (b := 10) w hw (v := -v.signExtend 64) (by decide)
    rw [if_pos hneg, hk] at hprint
    have hv : -BitVec.ofNat 32 (-v.signExtend 64).toNat = v := by
      rw [BitVec.ofNat_toNat, BitVec.setWidth_neg_of_le (by decide), setWidth_signExtend,
        BitVec.neg_neg]
    have hread := strtol_number 10 true 0 k (-v.signExtend 64).toNat (by decide)
      (by decide) rfl
    rw [if_pos rfl, hv] at hread
    exact ⟨chr '-' :: (List.replicate k (chr '0') ++ numeral 10 _), hprint, hread⟩
  · obtain ⟨k, hk⟩ := exists_field_text (b := 10) w hw (v := v.signExtend 64) (by decide)
    rw [if_neg hneg, hk] at hprint
    have hv : BitVec.ofNat 32 (v.signExtend 64).toNat = v := by
      rw [BitVec.ofNat_toNat, setWidth_signExtend]
    have hread := strtol_number 10 false 0 k (v.signExtend 64).toNat (by decide)
      (by decide) rfl
    rw [if_neg Bool.false_ne_true, hv] at hread
    exact ⟨_, hprint, hread⟩

theorem readsBack_unsigned (w : Field) (v : BitVec 32) (hbase : UnsignedBase c base) :
    ReadsBack (chr '%' :: w.source ++ [c]) (w.args ++ [.int v]) base v := by
  have hb : 1 < base.toNat ∧ base.toNat ≤ 16 := by
    rcases hbase with ⟨rfl, rfl⟩ | ⟨rfl, rfl⟩ | ⟨rfl, rfl⟩ <;> decide
  have hv : BitVec.ofNat 32 v.toNat = v := by simp
  have hprint := vprintfmt_unsigned w v hbase
  by_cases hzero : w.zero
  · have hpadc : w.flags.padc = chr '0' := if_pos hzero
    obtain ⟨k, hk⟩ := exists_padding (b := base.toNat) (n := v.toNat) (chr '0') (by decide)
      w.flags.width
    rw [hpadc, hk] at hprint
    have hread := strtol_number base false 0 k v.toNat hb.1 hb.2 rfl
    rw [if_neg Bool.false_ne_true, hv] at hread
    exact ⟨_, hprint, hread⟩
  · have hpadc : w.flags.padc = chr ' ' := if_neg hzero
    obtain ⟨j, hj⟩ := exists_padding (b := base.toNat) (n := v.toNat) (chr ' ') (by decide)
      w.flags.width
    rw [hpadc, hj] at hprint
    have hread := strtol_number base false j 0 v.toNat hb.1 hb.2 rfl
    rw [if_neg Bool.false_ne_true, hv] at hread
    refine ⟨_, hprint, ?_⟩
    simpa using hread

theorem readsBack_pointer (v : BitVec 32) (hbase : base = 0 ∨ base = 16) :
    ReadsBack (lit "%p") [.ptr v] base v := by
  have hnat : (v.setWidth 64).toNat = v.toNat := by
    rw [BitVec.toNat_setWidth]
    omega
  have hprint := vprintfmt_pointer ⟨false, none⟩ v
  have htext := numberText_default (b := 16) (v := v.setWidth 64) (by decide)
    ((chr ' ' : Byte).signExtend 32)
  rw [hnat] at htext
  have hread := strtol_settles (k := 0) false (.inr ⟨rfl, rfl, hbase⟩) numeral_ne_nil
    (isDigitOf_numeral 16 (n := v.toNat) (by decide) (by decide)) rfl
  have hv : BitVec.ofNat 32 v.toNat = v := by simp
  rw [if_neg Bool.false_ne_true, readDigits_numeral 16 (by decide) (by decide), hv]
    at hread
  refine ⟨_, ?_, hread⟩
  have hflags : (Field.flags ⟨false, none⟩).width = -1 ∧
      (Field.flags ⟨false, none⟩).padc = chr ' ' := ⟨rfl, rfl⟩
  rw [hflags.1, hflags.2, htext] at hprint
  exact hprint

/-- Every 32-bit value is read back from what the number directives print. -/
theorem strtol_vprintfmt (v : BitVec 32) :
    ReadsBack (lit "%d") [.int v] 10 v ∧
    (∀ w : Width, ReadsBack (lit "%0" ++ w.source ++ lit "d") (w.args ++ [.int v]) 10 v) ∧
    (∀ w : Field,
      ReadsBack (lit "%" ++ w.source ++ lit "u") (w.args ++ [.int v]) 10 v ∧
      ReadsBack (lit "%" ++ w.source ++ lit "o") (w.args ++ [.int v]) 8 v ∧
      ReadsBack (lit "%" ++ w.source ++ lit "x") (w.args ++ [.int v]) 16 v) ∧
    ReadsBack (lit "%p") [.ptr v] 0 v ∧ ReadsBack (lit "%p") [.ptr v] 16 v := by
  refine ⟨readsBack_signed ⟨false, none⟩ (.inl rfl) v,
    fun w => readsBack_signed ⟨true, some w⟩ (.inr rfl) v, fun w => ⟨?_, ?_, ?_⟩,
    readsBack_pointer v (.inl rfl), readsBack_pointer v (.inr rfl)⟩
  · exact readsBack_unsigned w v (.inl ⟨rfl, rfl⟩)
  · exact readsBack_unsigned w v (.inr (.inl ⟨rfl, rfl⟩))
  · exact readsBack_unsigned w v (.inr (.inr ⟨rfl, rfl⟩))

end Jos
