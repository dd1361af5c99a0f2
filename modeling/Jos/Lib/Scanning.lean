import Jos.Lib.Numbers
import Jos.Prog.Words

/-! The scanner of `vprintfmt` finds the segments of its format and stays inside it. -/
namespace Jos

open Prog

variable {p f pre post post' flags ds : List Byte} {ap : VaList} {d : Flags} {c : Byte} {i k : ℕ}
  {out : List (BitVec 32)} {x : Res (List (BitVec 32))}

/-! ### Conversions end -/

theorem peek_of_lt (h : i < p.length) : peek p i = .ok p[i] :=
  peek_of_getElem? (List.getElem?_eq_getElem h)

theorem strnlen_settles (h : 0 ∈ p) (size : BitVec 32) :
    ∃ n, Settles (fun fuel => strnlen fuel p size) (.ok n) := by
  obtain ⟨k, hk, hnul⟩ := List.getElem_of_mem h
  have hstep : ∀ s : BitVec 32 × ℕ × BitVec 32, s.2.1 ≤ k →
      Total (Sum.elim (fun t => t.2.1 ≤ k ∧ k - t.2.1 < k - s.2.1) fun _ => True)
        (strnlenBody p s) := by
    rintro ⟨n, s, size⟩ (hs : s ≤ k)
    simp only [strnlenBody]
    split
    · rw [peek_of_lt (by omega), ok_bind]
      by_cases hb : p[s] = 0
      · rw [if_pos hb]
        trivial
      · have hne : s ≠ k := by
          rintro rfl
          exact hb hnul
        rw [if_neg hb]
        change s + 1 ≤ k ∧ k - (s + 1) < k - s
        omega
    · trivial
  obtain ⟨n, -, hn⟩ := loop_settles _ hstep (s := (0, 0, size)) (Nat.zero_le k)
  exact ⟨n, hn⟩

theorem textLoop_settles (h : 0 ∈ p) (altflag : Bool) (precision width : BitVec 32)
    (s : List (BitVec 32)) :
    ∃ t, Settles (fun fuel => loop (textBody collect p altflag) fuel ⟨0, precision, width, s⟩)
      (.ok t) := by
  obtain ⟨k, hk, hnul⟩ := List.getElem_of_mem h
  have hstep : ∀ t : Text (List (BitVec 32)), t.pos ≤ k →
      Total (Sum.elim (fun u => u.pos ≤ k ∧ k - u.pos < k - t.pos) fun _ => True)
        (textBody collect p altflag t) := by
    intro t hs
    unfold textBody
    rw [peek_of_lt (by omega), ok_bind]
    by_cases hb : p[t.pos].signExtend 32 = 0
    · rw [if_pos hb]
      trivial
    · have hne : t.pos ≠ k := by
        intro he
        apply hb
        simp [he, hnul]
      rw [if_neg hb]
      dsimp only
      generalize (if t.precision.slt 0 then t.precision else t.precision - 1) = q
      split
      · change t.pos + 1 ≤ k ∧ k - (t.pos + 1) < k - t.pos
        omega
      · trivial
  obtain ⟨t, -, ht⟩ := loop_settles _ hstep (s := ⟨0, precision, width, s⟩) (Nat.zero_le k)
  exact ⟨t, ht⟩

/-- A run from nothing settles what a run after `out` does. -/
theorem Settles.after {run : ℕ → List (BitVec 32) → Res (List (BitVec 32))}
    {o : List (BitVec 32)} (h : Settles (fun n => run n []) (.ok o))
    (hmap : ∀ n, run n (out ++ []) = view (out ++ ·) (run n [])) :
    Settles (fun n => run n out) (.ok (out ++ o)) :=
  (h.view (out ++ ·)).congr fun n => by rw [← hmap n, List.append_nil]

theorem collect_append (c : BitVec 32) (s : List (BitVec 32)) :
    collect c (out ++ s) = out ++ collect c s :=
  List.append_assoc ..

theorem string_settles (h : 0 ∈ p) (d : Flags) :
    ∃ o, ∀ out, Settles (fun n => string collect n d p out) (.ok (out ++ o)) := by
  obtain ⟨n, hn⟩ := strnlen_settles h d.precision
  suffices hs : ∃ o, Settles (fun n => string collect n d p []) (.ok o) by
    obtain ⟨o, ho⟩ := hs
    exact ⟨o, fun out => Settles.after ho fun fuel =>
      string_map (h := fun s => out ++ s) collect_append fuel d p []⟩
  obtain ⟨⟨w, s⟩, hpad⟩ : ∃ r, Settles (fun n => stringPad collect n d p []) (.ok r) := by
    unfold stringPad
    split
    · exact ⟨_, hn.bind (Settles.const (.ok (padLoop collect _ (d.width - n) [])))⟩
    · exact ⟨_, Settles.const _⟩
  obtain ⟨t, ht⟩ := textLoop_settles h d.altflag d.precision w s
  exact ⟨_, hpad.bind (ht.bind (Settles.const (.ok (padLoop collect _ t.width t.out).2)))⟩

theorem number_settles (d : Flags) (num : BitVec 64) {base : BitVec 32} (hlo : 2 ≤ base.toNat)
    (hhi : base.toNat ≤ 16) (out : List (BitVec 32)) :
    Settles (fun n => number collect n d num base out)
      (.ok (out ++ numberText base.toNat num.toNat d.width (d.padc.signExtend 32))) := by
  rw [← emit_collect_eq]
  exact printnum_settles hlo hhi

theorem isConversion_iff : isConversion c ↔ c = chr 'c' ∨ c = chr 'e' ∨ c = chr 's' ∨
    c = chr 'd' ∨ c = chr 'u' ∨ c = chr 'o' ∨ c = chr 'p' ∨ c = chr 'x' ∨ c = chr '%' := by
  have hlit : lit "cesduopx%" = [chr 'c', chr 'e', chr 's', chr 'd', chr 'u', chr 'o', chr 'p',
    chr 'x', chr '%'] := rfl
  rw [isConversion, List.contains_iff_mem, hlit]
  simp only [List.mem_cons, List.not_mem_nil, or_false]

/-- `%e` ends, whatever the error code. -/
def ErrorsPrinted : Prop :=
  ∀ err, ∃ o, Settles (fun n => errorMessage (vprintfmt collect n) err []) (.ok o)

theorem ErrorsPrinted.after (h : ErrorsPrinted) (err : BitVec 32) :
    ∃ o, ∀ out, Settles (fun n => errorMessage (vprintfmt collect n) err out)
      (.ok (out ++ o)) := by
  obtain ⟨o, ho⟩ := h err
  exact ⟨o, fun out => Settles.after ho fun n =>
    errorMessage_map (fun f ap s => vprintfmt_map collect_append n f ap s) err []⟩

/-- The unsigned conversions and their bases. -/
def UnsignedBase (c : Byte) (base : BitVec 32) : Prop :=
  c = chr 'u' ∧ base = 10 ∨ c = chr 'o' ∧ base = 8 ∨ c = chr 'x' ∧ base = 16

theorem convert_unsigned {σ : Type} {putch : BitVec 32 → σ → σ}
    {printfmt : List Byte → VaList → σ → Res σ} {fuel : ℕ} {k : Scan σ} {base : BitVec 32}
    (h : UnsignedBase c base) :
    convert putch printfmt fuel f d c k = getuint k.ap d.lflag >>= fun r =>
      number putch fuel d r.1 base k.out >>= fun s =>
        pure { k with ap := r.2, out := s, label := .text } := by
  rcases h with ⟨rfl, rfl⟩ | ⟨rfl, rfl⟩ | ⟨rfl, rfl⟩ <;> rfl

theorem convert_signed {σ : Type} {putch : BitVec 32 → σ → σ}
    {printfmt : List Byte → VaList → σ → Res σ} {fuel : ℕ} {k : Scan σ} :
    convert putch printfmt fuel f d (chr 'd') k = getint k.ap d.lflag >>= fun r =>
      (if r.1.slt 0 then number putch fuel d (-r.1) 10 (putch (chr '-') k.out)
        else number putch fuel d r.1 10 k.out) >>= fun s =>
          pure { k with ap := r.2, out := s, label := .text } := rfl

theorem convert_pointer {σ : Type} {putch : BitVec 32 → σ → σ}
    {printfmt : List Byte → VaList → σ → Res σ} {fuel : ℕ} {k : Scan σ} :
    convert putch printfmt fuel f d (chr 'p') k = vaPtr k.ap >>= fun r =>
      number putch fuel d (r.1.setWidth 64) 16 (putch (chr 'x') (putch (chr '0') k.out)) >>=
        fun s => pure { k with ap := r.2, out := s, label := .text } := rfl

theorem conversionArgs_number (lflag : BitVec 32) (hc : c = chr 'd' ∨ ∃ base, UnsignedBase c base) :
    conversionArgs lflag c = if (2#32).sle lflag then [.llong] else [.int] := by
  rcases hc with rfl | ⟨_, ⟨rfl, _⟩ | ⟨rfl, _⟩ | ⟨rfl, _⟩⟩ <;> rfl

/-- A conversion prints something and takes its arguments, wherever it stands. -/
def Converts (d : Flags) (c : Byte) (ap : VaList) : Prop :=
  ∃ o, ∀ f (i : Int) out l,
    Settles (fun n => convert collect (vprintfmt collect n) n f d c ⟨i, ap, out, l⟩)
      (.ok ⟨i, ap.drop (conversionArgs d.lflag c).length, out ++ o, .text⟩)

theorem length_numberArgs (lflag : BitVec 32) :
    ((if (2#32).sle lflag then [.llong] else [.int] : List ArgKind)).length = 1 := by
  split <;> rfl

theorem converts_unsigned {base : BitVec 32} (hbase : UnsignedBase c base)
    (hlo : 2 ≤ base.toNat) (hhi : base.toNat ≤ 16) (hfit : Fits (conversionArgs d.lflag c) ap) :
    Converts d c ap := by
  have hargs := conversionArgs_number d.lflag (.inr ⟨base, hbase⟩)
  rw [hargs] at hfit
  obtain ⟨num, hnum⟩ := hfit.getuint
  refine ⟨numberText base.toNat num.toNat d.width (d.padc.signExtend 32), ?_⟩
  intro f i out l
  simp only [convert_unsigned hbase, hnum, ok_bind, hargs, length_numberArgs]
  exact (number_settles d num hlo hhi out).bind (Settles.const _)

theorem converts_signed (hfit : Fits (conversionArgs d.lflag (chr 'd')) ap) :
    Converts d (chr 'd') ap := by
  have hargs := conversionArgs_number d.lflag (.inl (rfl : chr 'd' = chr 'd'))
  rw [hargs] at hfit
  obtain ⟨num, hnum⟩ := hfit.getint
  simp only [Converts, convert_signed, hnum, ok_bind, hargs, length_numberArgs]
  by_cases hneg : num.slt 0
  · refine ⟨chr '-' :: numberText 10 (-num).toNat d.width (d.padc.signExtend 32), ?_⟩
    intro f i out l
    simp only [if_pos hneg]
    rw [List.append_cons]
    exact (number_settles d (-num) (by decide) (by decide) (out ++ [chr '-'])).bind
      (Settles.const _)
  · refine ⟨numberText 10 num.toNat d.width (d.padc.signExtend 32), ?_⟩
    intro f i out l
    simp only [if_neg hneg]
    exact (number_settles d num (by decide) (by decide) out).bind (Settles.const _)

theorem converts_pointer (hfit : Fits [.ptr] ap) : Converts d (chr 'p') ap := by
  obtain ⟨v, hv⟩ := hfit.vaPtr
  refine ⟨[chr '0', chr 'x'] ++ numberText 16 (v.setWidth 64).toNat d.width
    (d.padc.signExtend 32), ?_⟩
  intro f i out l
  simp only [convert_pointer, hv, ok_bind, collect, ← List.append_assoc]
  have hout : out ++ [chr '0', chr 'x'] = out ++ [chr '0'] ++ [chr 'x'] := by simp
  rw [hout]
  exact (number_settles d (v.setWidth 64) (by decide) (by decide) _).bind (Settles.const _)

theorem converts_char (hfit : Fits [.int] ap) : Converts d (chr 'c') ap := by
  obtain ⟨v, hv⟩ := hfit.vaInt
  refine ⟨[v], fun f i out l => (Settles.const _).congr fun n => ?_⟩
  simp +decide only [convert, hv]
  rfl

theorem converts_error (hfit : Fits [.int] ap) (herr : ErrorsPrinted) :
    Converts d (chr 'e') ap := by
  obtain ⟨v, hv⟩ := hfit.vaInt
  obtain ⟨o, ho⟩ := herr.after v
  refine ⟨o, fun f i out l => ?_⟩
  simp +decide only [convert, hv]
  exact (ho out).bind (Settles.const _)

theorem converts_string (hfit : Fits [.str] ap) : Converts d (chr 's') ap := by
  obtain ⟨p, hp, hnul⟩ := hfit.vaStr
  have hstr : 0 ∈ p.getD (cstr (lit "(null)")) := by
    cases p with
    | none => decide
    | some a => exact hnul a rfl
  obtain ⟨o, ho⟩ := string_settles hstr d
  refine ⟨o, fun f i out l => ?_⟩
  simp +decide only [convert, hp]
  exact (ho out).bind (Settles.const _)

/-- A conversion that has its arguments prints something and takes them. -/
theorem convert_settles (hc : isConversion c) (hfit : Fits (conversionArgs d.lflag c) ap)
    (herr : c = chr 'e' → ErrorsPrinted) : Converts d c ap := by
  rcases isConversion_iff.mp hc with rfl | rfl | rfl | rfl | rfl | rfl | rfl | rfl | rfl
  · exact converts_char hfit
  · exact converts_error hfit (herr rfl)
  · exact converts_string hfit
  · exact converts_signed hfit
  · exact converts_unsigned (.inl ⟨rfl, rfl⟩) (by decide) (by decide) hfit
  · exact converts_unsigned (.inr (.inl ⟨rfl, rfl⟩)) (by decide) (by decide) hfit
  · exact converts_pointer hfit
  · exact converts_unsigned (.inr (.inr ⟨rfl, rfl⟩)) (by decide) (by decide) hfit
  · exact ⟨[chr '%'], fun f i out l => Settles.const _⟩

/-! ### Passes over the format -/

/-- One pass of a scanner that collects what it prints. -/
abbrev pass (f : List Byte) (n : ℕ) (k : Scan (List (BitVec 32))) :
    Res (Scan (List (BitVec 32)) ⊕ List (BitVec 32)) :=
  vprintfmtBody collect (vprintfmt collect n) n f k

theorem pass_percent {n : ℕ} (h : f[i]? = some (chr '%')) :
    pass f n ⟨i, ap, out, .text⟩ = .ok (.inl ⟨(i + 1 : ℕ), ap, out, .reswitch {}⟩) := by
  simp only [pass, vprintfmtBody, peek_of_getElem? h]
  rfl

theorem pass_nul {n : ℕ} (h : f[i]? = some 0) : pass f n ⟨i, ap, out, .text⟩ = .ok (.inr out) := by
  simp only [pass, vprintfmtBody, peek_of_getElem? h]
  rfl

theorem pass_text {n : ℕ} (h : f[i]? = some c) (hc : c ≠ chr '%') (hc0 : c ≠ 0) :
    pass f n ⟨i, ap, out, .text⟩ =
      .ok (.inl ⟨(i + 1 : ℕ), ap, out ++ chars [c], .text⟩) := by
  simp only [pass, vprintfmtBody, peek_of_getElem? h, ok_bind, if_neg hc, if_neg hc0]
  rfl

/-- Text that has no `%` is printed as it stands. -/
theorem text_run {u : List Byte} (hu : ∀ b ∈ u, b ≠ chr '%' ∧ b ≠ 0) (hf : f = pre ++ u ++ post)
    (h : LoopSettles (pass f) ⟨(pre ++ u).length, ap, out ++ chars u, .text⟩ x) :
    LoopSettles (pass f) ⟨pre.length, ap, out, .text⟩ x := by
  induction u generalizing pre out with
  | nil => simpa [chars] using h
  | cons b u ih =>
    obtain ⟨hb, hb0⟩ := hu b (by simp)
    have hget : f[pre.length]? = some b := by simp [hf]
    refine .next ((Settles.const _).congr fun n => pass_text hget hb hb0) ?_
    have hf' : f = (pre ++ [b]) ++ u ++ post := by simp [hf]
    have h' : LoopSettles (pass f) ⟨((pre ++ [b]) ++ u).length, ap,
        (out ++ chars [b]) ++ chars u, .text⟩ x := by
      simpa [chars] using h
    have hrest := ih (fun a ha => hu a (by simp [ha])) hf' h'
    simpa using hrest

/-! ### Flags -/

def isDigit (c : Byte) : Bool := chr '0' ≤ c ∧ c ≤ chr '9'

/-- The value that the digits give to `precision`, in 32 bits. -/
def decimal (p : BitVec 32) (ds : List Byte) : BitVec 32 :=
  ds.foldl (fun p c => p * 10 + c.setWidth 32 - chr '0') p

theorem isDigit_range : isDigit c ↔ 48 ≤ c.toNat ∧ c.toNat ≤ 57 := decide_eq_true_iff

theorem isDigit_iff : isDigit c ↔
    ¬ ((c.signExtend 32).slt (chr '0') ∨ (chr '9' : BitVec 32).slt (c.signExtend 32)) := by
  have hzero : (chr '0' : BitVec 32).toInt = 48 := rfl
  have hnine : (chr '9' : BitVec 32).toInt = 57 := rfl
  rw [isDigit_range, BitVec.slt_iff_toInt_lt, BitVec.slt_iff_toInt_lt,
    BitVec.toInt_signExtend_of_le (by decide), hzero, hnine, BitVec.toInt_eq_toNat_cond]
  have := c.isLt
  omega

theorem signExtend_of_isDigit (h : isDigit c) :
    (c.signExtend 32 : BitVec 32) = c.setWidth 32 := by
  have hrange := isDigit_range.mp h
  exact BitVec.signExtend_eq_setWidth_of_msb_false (by rw [BitVec.msb_eq_decide]; simp; omega)

theorem isDigit_of_width (h : chr '1' ≤ c ∧ c ≤ chr '9') : isDigit c := by
  have hone : 49 ≤ c.toNat := h.1
  exact isDigit_range.mpr ⟨by omega, h.2⟩

theorem isFlag_iff : isFlag c ↔ c = chr '-' ∨ c = chr '0' ∨ (chr '1' ≤ c ∧ c ≤ chr '9') ∨
    c = chr '*' ∨ c = chr '.' ∨ c = chr '#' ∨ c = chr 'l' := by
  have hlit : lit "-0123456789*.#l" = [0x2D, 0x30, 0x31, 0x32, 0x33, 0x34, 0x35, 0x36, 0x37, 0x38,
    0x39, 0x2A, 0x2E, 0x23, 0x6C] := rfl
  have hone : chr '1' = (0x31 : Byte) := rfl
  have hnine : chr '9' = (0x39 : Byte) := rfl
  have hdigits : (0x31 : Byte) ≤ c ∧ c ≤ 0x39 ↔ c = 0x31 ∨ c = 0x32 ∨ c = 0x33 ∨ c = 0x34 ∨
      c = 0x35 ∨ c = 0x36 ∨ c = 0x37 ∨ c = 0x38 ∨ c = 0x39 := by
    bv_omega
  rw [isFlag, List.contains_iff_mem, hlit, hone, hnine, hdigits]
  simp only [List.mem_cons, List.not_mem_nil, or_false, or_assoc]
  rfl

theorem isFlag_of_isDigit (h : isDigit c) : isFlag c := by
  have hrange := isDigit_range.mp h
  rw [isFlag_iff]
  by_cases hzero : c = chr '0'
  · exact .inr (.inl hzero)
  · refine .inr (.inr (.inl ?_))
    have hne : c ≠ 0x30 := hzero
    change (0x31 : Byte) ≤ c ∧ c ≤ 0x39
    bv_omega

theorem digits_settles (q ch : BitVec 32) (hds : ∀ b ∈ ds, isDigit b) (hc : ¬ isDigit c)
    (hf : f = pre ++ ds ++ c :: post) :
    Settles (fun n => loop (digitsBody f) n (q, ch, (pre.length : Int)))
      (.ok (decimal (q * 10 + ch - chr '0') ds, ((pre ++ ds).length : Int))) := by
  induction ds generalizing pre q ch with
  | nil =>
    have hget : f[pre.length]? = some c := by simp [hf]
    have hstop := not_not.mp (mt isDigit_iff.mpr hc)
    apply Settles.loop_exit
    simp only [digitsBody, peek_of_getElem? hget, ok_bind, if_pos hstop]
    simp [decimal]
  | cons b ds ih =>
    have hb : isDigit b := hds b (by simp)
    have hget : f[pre.length]? = some b := by simp [hf]
    have hf' : f = (pre ++ [b]) ++ ds ++ c :: post := by simp [hf]
    have hrest := ih (q * 10 + ch - chr '0') (b.setWidth 32) (fun a ha => hds a (by simp [ha])) hf'
    rw [List.append_assoc] at hrest
    have hgo := isDigit_iff.mp hb
    rw [signExtend_of_isDigit hb] at hgo
    refine Settles.loop_next ?_ hrest
    simp only [digitsBody, peek_of_getElem? hget, ok_bind, signExtend_of_isDigit hb, if_neg hgo]
    simp

/-- What is not a flag goes to the conversions. -/
theorem pass_convert {n : ℕ} (h : f[i]? = some c) (hc : ¬ isFlag c) :
    pass f n ⟨i, ap, out, .reswitch d⟩ =
      convert collect (vprintfmt collect n) n f d c ⟨(i + 1 : ℕ), ap, out, .reswitch d⟩ >>=
        fun k => .ok (.inl k) := by
  simp only [isFlag_iff, not_or] at hc
  obtain ⟨h1, h2, h3, h4, h5, h6, h7⟩ := hc
  simp only [pass, vprintfmtBody, reswitch, peek_of_getElem? h, ok_bind, if_neg h1, if_neg h2,
    if_neg h3, if_neg h4, if_neg h5, if_neg h6, if_neg h7]
  rfl

/-- A flag other than the digits of a width and `*`. -/
theorem plain_flag (hc : c = chr '-' ∨ c = chr '0' ∨ c = chr '.' ∨ c = chr '#' ∨ c = chr 'l')
    (d : Flags) : ∃ d' : Flags, d'.lflag = d.lflag + longs [c] ∧
      ∀ f (i : ℕ) n ap out, f[i]? = some c → pass f n ⟨i, ap, out, .reswitch d⟩ =
        .ok (.inl ⟨(i + 1 : ℕ), ap, out, .reswitch d'⟩) := by
  have hkeep : d.lflag + longs [chr '-'] = d.lflag := by simp +decide [longs]
  rcases hc with rfl | rfl | rfl | rfl | rfl
  · refine ⟨{ d with padc := chr '-' }, hkeep.symm, fun f i n ap out h => ?_⟩
    simp only [pass, vprintfmtBody, reswitch, peek_of_getElem? h]
    rfl
  · refine ⟨{ d with padc := chr '0' }, hkeep.symm, fun f i n ap out h => ?_⟩
    simp only [pass, vprintfmtBody, reswitch, peek_of_getElem? h]
    rfl
  · refine ⟨if d.width.slt 0 then { d with width := 0 } else d, ?_, fun f i n ap out h => ?_⟩
    · split <;> exact hkeep.symm
    · simp only [pass, vprintfmtBody, reswitch, peek_of_getElem? h]
      rfl
  · refine ⟨{ d with altflag := true }, hkeep.symm, fun f i n ap out h => ?_⟩
    simp only [pass, vprintfmtBody, reswitch, peek_of_getElem? h]
    rfl
  · refine ⟨{ d with lflag := d.lflag + 1 }, rfl, fun f i n ap out h => ?_⟩
    simp only [pass, vprintfmtBody, reswitch, peek_of_getElem? h]
    rfl

@[simp] theorem processPrecision_lflag : d.processPrecision.lflag = d.lflag := by
  unfold Flags.processPrecision
  split <;> rfl

theorem star_flag {v : BitVec 32} {n : ℕ} (h : f[i]? = some (chr '*')) :
    pass f n ⟨i, .int v :: ap, out, .reswitch d⟩ = .ok (.inl ⟨(i + 1 : ℕ), ap, out,
      .reswitch { d with precision := v }.processPrecision⟩) := by
  simp only [pass, vprintfmtBody, reswitch, peek_of_getElem? h]
  rfl

/-- A width numeral, up to its last digit. -/
theorem width_flag (ap : VaList) (out : List (BitVec 32)) {a : Byte}
    (ha : chr '1' ≤ a ∧ a ≤ chr '9') (hds : ∀ b ∈ ds, isDigit b) (hc : ¬ isDigit c)
    (hf : f = pre ++ a :: ds ++ c :: post) :
    Settles (fun n => pass f n ⟨pre.length, ap, out, .reswitch d⟩)
      (.ok (.inl ⟨((pre ++ a :: ds).length : Int), ap, out,
        .reswitch { d with precision := decimal 0 (a :: ds) }.processPrecision⟩)) := by
  have hget : f[pre.length]? = some a := by simp [hf]
  have hf' : f = (pre ++ [a]) ++ ds ++ c :: post := by simp [hf]
  have hdigits := digits_settles 0 (a.setWidth 32) hds hc hf'
  rw [← List.append_cons, List.length_append] at hdigits
  have hdash : a ≠ chr '-' := by
    rintro rfl
    exact absurd ha (by decide)
  have hzero : a ≠ chr '0' := by
    rintro rfl
    exact absurd ha (by decide)
  simp only [pass, vprintfmtBody, reswitch, peek_of_getElem? hget, ok_bind, if_neg hdash,
    if_neg hzero, if_pos ha]
  have hview := hdigits.view fun r => (Sum.inl ⟨r.2, ap, out,
    .reswitch { d with precision := r.1 }.processPrecision⟩ :
      Scan (List (BitVec 32)) ⊕ List (BitVec 32))
  exact hview.congr fun n => bind_assoc_ok ..

theorem longs_append (a b : List Byte) : longs (a ++ b) = longs a + longs b := by
  simp [longs, List.count_append, BitVec.ofNat_add]

theorem longs_cons (a : Byte) (b : List Byte) : longs (a :: b) = longs [a] + longs b :=
  longs_append [a] b

theorem longs_digits (h : ∀ b ∈ ds, isDigit b) : longs ds = 0 := by
  have hcount : ds.count (chr 'l') = 0 := by
    rw [List.count_eq_zero]
    intro hmem
    exact absurd (h _ hmem) (by decide)
  rw [longs, hcount]
  rfl

theorem starArgs_digits (h : ∀ b ∈ ds, isDigit b) : starArgs ds = [] := by
  have hcount : ds.count (chr '*') = 0 := by
    rw [List.count_eq_zero]
    intro hmem
    exact absurd (h _ hmem) (by decide)
  rw [starArgs, hcount]
  rfl

theorem starArgs_append (a b : List Byte) : starArgs (a ++ b) = starArgs a ++ starArgs b := by
  simp [starArgs, List.count_append]

/-- The scanner gets from `d` past the flags to `d'`, wherever they stand. -/
def ScansFlags (flags : List Byte) (ap : VaList) (d d' : Flags) : Prop :=
  d'.lflag = d.lflag + longs flags ∧ ∀ f pre c post out x,
    ¬ isFlag c → f = pre ++ flags ++ c :: post →
    LoopSettles (pass f) ⟨(pre ++ flags).length, ap.drop (starArgs flags).length, out,
      .reswitch d'⟩ x →
    LoopSettles (pass f) ⟨pre.length, ap, out, .reswitch d⟩ x

variable {d' : Flags} {b : Byte} {u rest : List Byte}

theorem scansFlags_nil (ap : VaList) (d : Flags) : ScansFlags [] ap d d := by
  refine ⟨by simp [longs], ?_⟩
  intro f pre c post out x _ _ h
  simpa [starArgs] using h

theorem starArgs_width (hb : chr '1' ≤ b ∧ b ≤ chr '9') (hds : ∀ a ∈ ds, isDigit a) :
    starArgs (b :: (ds ++ u)) = starArgs u ∧ longs (b :: (ds ++ u)) = longs u := by
  have hall : ∀ a ∈ b :: ds, isDigit a := by
    intro a ha
    rcases List.mem_cons.mp ha with rfl | ha
    · exact isDigit_of_width hb
    · exact hds a ha
  rw [← List.cons_append, starArgs_append, longs_append, starArgs_digits hall, longs_digits hall]
  exact ⟨List.nil_append _, BitVec.zero_add _⟩

/-- The digit loop takes all digits at once. -/
theorem scansFlags_width (hb : chr '1' ≤ b ∧ b ≤ chr '9') (hds : ∀ a ∈ ds, isDigit a)
    (hu : ∀ a ∈ u.head?, ¬ isDigit a)
    (h : ScansFlags u ap { d with precision := decimal 0 (b :: ds) }.processPrecision d') :
    ScansFlags (b :: (ds ++ u)) ap d d' := by
  obtain ⟨hd', hscan⟩ := h
  obtain ⟨hargs, hlongs⟩ := starArgs_width (u := u) hb hds
  refine ⟨by rw [hd', hlongs, processPrecision_lflag], ?_⟩
  rw [hargs]
  intro f pre c post out x hc hf h
  -- the character after the digits is the next flag, or `c`
  obtain ⟨c', post', hnext, hc'⟩ : ∃ c' post', u ++ c :: post = c' :: post' ∧ ¬ isDigit c' := by
    cases u with
    | nil => exact ⟨c, post, rfl, mt isFlag_of_isDigit hc⟩
    | cons a u => exact ⟨a, u ++ c :: post, rfl, hu a (by simp)⟩
  have hf' : f = pre ++ b :: ds ++ c' :: post' := by simp [hf, hnext]
  refine .next (width_flag _ out hb hds hc' hf') ?_
  exact hscan f (pre ++ b :: ds) c post out x hc (by simp [hf]) (by simpa using h)

theorem scansFlags_star {v : BitVec 32}
    (h : ScansFlags rest ap { d with precision := v }.processPrecision d') :
    ScansFlags (chr '*' :: rest) (.int v :: ap) d d' := by
  obtain ⟨hd', hscan⟩ := h
  have hargs : starArgs (chr '*' :: rest) = .int :: starArgs rest := by
    rw [← List.singleton_append, starArgs_append]
    rfl
  constructor
  · rw [hd', processPrecision_lflag, longs_cons (chr '*') rest]
    simp +decide [longs]
  · rw [hargs]
    intro f pre c post out x hc hf h
    have hget : f[pre.length]? = some (chr '*') := by simp [hf]
    refine .next ((Settles.const _).congr fun n => star_flag hget) ?_
    have hnext := hscan f (pre ++ [chr '*']) c post out x hc (by simp [hf]) (by simpa using h)
    simpa using hnext

/-- A flag that is one pass of its own and takes no argument. -/
theorem scansFlags_cons {d₁ : Flags} (hstar : b ≠ chr '*') (hd₁ : d₁.lflag = d.lflag + longs [b])
    (hpass : ∀ f (i : ℕ) n ap out, f[i]? = some b → pass f n ⟨i, ap, out, .reswitch d⟩ =
      .ok (.inl ⟨(i + 1 : ℕ), ap, out, .reswitch d₁⟩))
    (h : ScansFlags rest ap d₁ d') : ScansFlags (b :: rest) ap d d' := by
  obtain ⟨hd', hscan⟩ := h
  have hargs : starArgs (b :: rest) = starArgs rest := by simp [starArgs, hstar]
  refine ⟨by rw [hd', hd₁, longs_cons b rest, BitVec.add_assoc], ?_⟩
  rw [hargs]
  intro f pre c post out x hc hf h
  have hget : f[pre.length]? = some b := by simp [hf]
  refine .next ((Settles.const _).congr fun n => hpass f _ n ap out hget) ?_
  have hnext := hscan f (pre ++ [b]) c post out x hc (by simp [hf]) (by simpa using h)
  simpa using hnext

/-- The scanner gets past any flags. -/
theorem flags_scan (hflags : ∀ b ∈ flags, isFlag b) (hfit : Fits (starArgs flags) ap)
    (d : Flags) : ∃ d', ScansFlags flags ap d d' := by
  induction hlen : flags.length using Nat.strongRecOn generalizing flags ap d with
  | ind n ih =>
  subst n
  cases flags with
  | nil => exact ⟨d, scansFlags_nil ap d⟩
  | cons b rest =>
    have hrest : ∀ a ∈ rest, isFlag a := fun a ha => hflags a (by simp [ha])
    by_cases hnum : chr '1' ≤ b ∧ b ≤ chr '9'
    · obtain ⟨ds, u, rfl, hds, hu⟩ := exists_takeWhile_append isDigit rest
      rw [(starArgs_width hnum hds).1] at hfit
      have hlen : u.length < (b :: (ds ++ u)).length := by
        rw [List.length_cons, List.length_append]
        omega
      obtain ⟨d', hscan⟩ := ih u.length hlen (fun a ha => hrest a (by simp [ha])) hfit _ rfl
      exact ⟨d', scansFlags_width hnum hds hu hscan⟩
    · by_cases hstar : b = chr '*'
      · subst hstar
        rw [← List.singleton_append, starArgs_append] at hfit
        obtain ⟨v, ap, rfl⟩ : ∃ v ap', ap = .int v :: ap' := by
          match ap, hfit with
          | .int v :: ap, _ => exact ⟨v, ap, rfl⟩
        obtain ⟨d', hscan⟩ := ih rest.length (by simp) hrest hfit.2 _ rfl
        exact ⟨d', scansFlags_star hscan⟩
      · have hplain : b = chr '-' ∨ b = chr '0' ∨ b = chr '.' ∨ b = chr '#' ∨ b = chr 'l' := by
          have := isFlag_iff.mp (hflags b (by simp))
          tauto
        obtain ⟨d₁, hd₁, hpass⟩ := plain_flag hplain d
        have hargs : starArgs (b :: rest) = starArgs rest := by simp [starArgs, hstar]
        rw [hargs] at hfit
        obtain ⟨d', hscan⟩ := ih rest.length (by simp) hrest hfit d₁ rfl
        exact ⟨d', scansFlags_cons hstar hd₁ hpass hscan⟩

/-! ### Whole directives -/

theorem ne_percent_of_isFlag (h : isFlag c) : c ≠ chr '%' ∧ c ≠ 0 := by
  constructor
  · rintro rfl
    exact absurd h (by decide)
  · rintro rfl
    exact absurd h (by decide)

theorem not_isFlag_of_isConversion (h : isConversion c) : ¬ isFlag c := by
  rcases isConversion_iff.mp h with rfl | rfl | rfl | rfl | rfl | rfl | rfl | rfl | rfl
  all_goals decide

/-- The way back to the `%` passes flags only. -/
theorem back_settles (hflags : ∀ b ∈ flags, isFlag b)
    (hf : f = pre ++ chr '%' :: flags ++ post) :
    Settles (fun n => loop (backBody f) n ((pre ++ chr '%' :: flags).length : Int))
      (.ok ((pre ++ [chr '%']).length : Int)) := by
  induction hlen : flags.length generalizing flags post with
  | zero =>
    obtain rfl := List.length_eq_zero_iff.mp hlen
    have hget : f[pre.length]? = some (chr '%') := by simp [hf]
    apply Settles.loop_exit
    have hpos : ((pre ++ [chr '%']).length : Int) - 1 = pre.length := by simp
    simp only [backBody, hpos, peek_of_getElem? hget, ok_bind, if_true, pure_eq_ok]
  | succ n ih =>
    have hne : flags ≠ [] := by
      rintro rfl
      simp at hlen
    obtain ⟨u, b, rfl⟩ : ∃ u b, flags = u ++ [b] :=
      ⟨_, _, (List.dropLast_concat_getLast hne).symm⟩
    have hb : b ≠ chr '%' := (ne_percent_of_isFlag (hflags b (by simp))).1
    have hget : f[(pre ++ chr '%' :: u).length]? = some b := by simp [hf]
    have hpos : ((pre ++ chr '%' :: (u ++ [b])).length : Int) - 1 =
        (pre ++ chr '%' :: u).length := by
      simp only [List.length_append, List.length_cons, List.length_nil]
      omega
    have hf' : f = pre ++ chr '%' :: u ++ (b :: post) := by simp [hf]
    have hrec := ih (fun a ha => hflags a (by simp [ha])) hf' (by simpa using hlen)
    refine Settles.loop_next ?_ hrec
    simp only [backBody, hpos, peek_of_getElem? hget, ok_bind, if_neg hb, pure_eq_ok]

/-- The default of the `switch`: print the `%` and start again after it. -/
theorem unrecognized_settles (hc : ¬ isFlag c) (hc' : ¬ isConversion c)
    (hflags : ∀ b ∈ flags, isFlag b) (hf : f = pre ++ chr '%' :: flags ++ c :: post) :
    Settles (fun n => pass f n ⟨((pre ++ chr '%' :: flags).length : ℕ), ap, out, .reswitch d⟩)
      (.ok (.inl ⟨((pre ++ [chr '%']).length : ℕ), ap, out ++ chars [chr '%'], .text⟩)) := by
  have hget : f[(pre ++ chr '%' :: flags).length]? = some c := by simp [hf]
  simp only [isConversion_iff, not_or] at hc'
  obtain ⟨h1, h2, h3, h4, h5, h6, h7, h8, h9⟩ := hc'
  have hback := (back_settles hflags hf).view fun fmt => (Sum.inl
    ⟨fmt, ap, out ++ chars [chr '%'], .text⟩ : Scan (List (BitVec 32)) ⊕ List (BitVec 32))
  refine hback.congr fun n => ?_
  have hpos : (((pre ++ chr '%' :: flags).length + 1 : ℕ) : Int) - 1 =
      (pre ++ chr '%' :: flags).length := by omega
  rw [pass_convert hget hc]
  simp only [convert, if_neg h1, if_neg h2, if_neg h3, if_neg h4, if_neg h5, if_neg h6,
    if_neg h7, if_neg h8, if_neg h9, hpos]
  exact bind_assoc_ok ..

/-- A directive prints the same wherever it stands. -/
theorem directive_settles (hflags : ∀ b ∈ flags, isFlag b) (hc : isConversion c)
    (hfit : Fits (Segment.directive flags c).args ap) (herr : c = chr 'e' → ErrorsPrinted) :
    ∃ o, ∀ f pre post out x, f = pre ++ chr '%' :: flags ++ c :: post →
      LoopSettles (pass f) ⟨(pre ++ chr '%' :: flags ++ [c]).length,
        ap.drop (Segment.directive flags c).args.length, out ++ o, .text⟩ x →
      LoopSettles (pass f) ⟨pre.length, ap, out, .text⟩ x := by
  obtain ⟨hstar, hconv⟩ := fits_append.mp hfit
  obtain ⟨d, hd, hscan⟩ := flags_scan hflags hstar {}
  have hlflag : d.lflag = longs flags := by simp [hd]
  rw [← hlflag] at hconv
  obtain ⟨o, ho⟩ := convert_settles hc hconv herr
  refine ⟨o, fun f pre post out x hf h => ?_⟩
  have hflag := not_isFlag_of_isConversion hc
  have hpercent : f[pre.length]? = some (chr '%') := by simp [hf]
  have hget : f[(pre ++ chr '%' :: flags).length]? = some c := by simp [hf]
  refine .next ((Settles.const _).congr fun n => pass_percent hpercent) ?_
  have hend : LoopSettles (pass f) ⟨((pre ++ chr '%' :: flags).length : ℕ),
      ap.drop (starArgs flags).length, out, .reswitch d⟩ x := by
    refine .next (((ho f _ out _).view Sum.inl).congr fun n => pass_convert hget hflag) ?_
    rw [List.length_append, List.length_singleton] at h
    simpa only [Segment.args, List.length_append, hlflag, List.drop_drop] using h
  have hfrom := hscan f (pre ++ [chr '%']) c post out x hflag (by simp [hf]) (by simpa using hend)
  simpa using hfrom

theorem directive_prints (hflags : ∀ b ∈ flags, isFlag b) (hc : isConversion c)
    (hfit : Fits (Segment.directive flags c).args ap) (herr : c = chr 'e' → ErrorsPrinted) :
    ∃ o, (Segment.directive flags c).Prints ap o ∧
      ∀ f pre post out x, f = pre ++ chr '%' :: flags ++ c :: post →
        LoopSettles (pass f) ⟨(pre ++ chr '%' :: flags ++ [c]).length,
          ap.drop (Segment.directive flags c).args.length, out ++ o, .text⟩ x →
        LoopSettles (pass f) ⟨pre.length, ap, out, .text⟩ x := by
  obtain ⟨o, ho⟩ := directive_settles hflags hc hfit herr
  refine ⟨o, ?_, ho⟩
  let f := cstr (Segment.directive flags c).source
  have hnul : f[([] ++ chr '%' :: flags ++ [c]).length]? = some 0 := by
    simp [f, cstr, Segment.source]
  have hrun := ho f [] [0] [] (.ok o) (by simp [f, cstr, Segment.source])
    (.exit ((Settles.const _).congr fun n => pass_nul hnul))
  exact hrun.settles.succ fun n => rfl

/-! ### Whole formats -/

theorem starArgs_unrecognized (hc : ¬ isFlag c) : starArgs (flags ++ [c]) = starArgs flags := by
  have hne : c ≠ chr '*' := by
    rintro rfl
    exact hc (by decide)
  simp [starArgs, List.count_append, hne]

def Segment.isError : Segment → Bool
  | .directive _ c => c = chr 'e'
  | _ => false

/-- What is not recognized is printed literally: first the `%`, and the rest as text. -/
theorem literal_settles {u : List Byte} (hflags : ∀ b ∈ flags, isFlag b) (hc : ¬ isFlag c)
    (hc' : ¬ isConversion c) (hfit : Fits (starArgs flags) ap)
    (hf : f = pre ++ chr '%' :: flags ++ c :: post) (hu : ∀ b ∈ u, b ≠ chr '%' ∧ b ≠ 0)
    (hsplit : flags ++ c :: post = u ++ post')
    (h : LoopSettles (pass f) ⟨(pre ++ chr '%' :: u).length, ap.drop (starArgs flags).length,
      out ++ chars (chr '%' :: u), .text⟩ x) :
    LoopSettles (pass f) ⟨pre.length, ap, out, .text⟩ x := by
  obtain ⟨d, -, hscan⟩ := flags_scan hflags hfit {}
  have hpercent : f[pre.length]? = some (chr '%') := by simp [hf]
  refine .next ((Settles.const _).congr fun n => pass_percent hpercent) ?_
  have hback : LoopSettles (pass f) ⟨((pre ++ chr '%' :: flags).length : ℕ),
      ap.drop (starArgs flags).length, out, .reswitch d⟩ x := by
    refine .next (unrecognized_settles hc hc' hflags hf) ?_
    have hf' : f = (pre ++ [chr '%']) ++ u ++ post' := by
      rw [hf, List.append_assoc, List.cons_append, hsplit]
      simp
    refine text_run hu hf' ?_
    simpa [chars] using h
  have hfrom := hscan f (pre ++ [chr '%']) c post out x hc (by simp [hf]) (by simpa using hback)
  simpa using hfrom

/-- From the start of `rest`, wherever it stands, the scanner prints its segments and ends. -/
def Scans (rest : List Byte) (ap : VaList) (o : List (BitVec 32)) : Prop :=
  Renders (segments rest) ap o ∧ ∀ pre out,
    LoopSettles (pass (cstr (pre ++ rest))) ⟨pre.length, ap, out, .text⟩ (.ok (out ++ o))

variable {o : List (BitVec 32)}

theorem scans_nil (ap : VaList) : Scans [] ap [] := by
  refine ⟨.nil, fun pre out => .exit ((Settles.const _).congr fun n => ?_)⟩
  rw [List.append_nil, List.append_nil]
  exact pass_nul (by simp [cstr])

theorem scans_text (hc : c ≠ chr '%') (hc0 : c ≠ 0) (h : Scans rest ap o) :
    Scans (c :: rest) ap (chars [c] ++ o) := by
  obtain ⟨hrenders, ho⟩ := h
  rw [Scans, segments_text hc]
  refine ⟨.cons rfl hrenders, ?_⟩
  intro pre out
  have hnext := ho (pre ++ [c]) (out ++ chars [c])
  have hget : (cstr (pre ++ c :: rest))[pre.length]? = some c := by simp [cstr]
  refine .next ((Settles.const _).congr fun n => pass_text hget hc hc0) ?_
  simpa using hnext

/-- The string ends inside the directive. -/
theorem scans_cut (hflags : ∀ b ∈ flags, isFlag b) (hfit : Fits (starArgs flags) ap) :
    Scans (chr '%' :: flags) ap (chars (chr '%' :: flags) ++ []) := by
  rw [Scans, segments_flags hflags]
  refine ⟨.cons rfl .nil, ?_⟩
  intro pre out
  have hf : cstr (pre ++ chr '%' :: flags) = pre ++ chr '%' :: flags ++ 0 :: [] := rfl
  have hsplit : flags ++ 0 :: [] = flags ++ [0] := rfl
  refine literal_settles hflags (by decide) (by decide) hfit hf
    (fun b hb => ne_percent_of_isFlag (hflags b hb)) hsplit ?_
  refine .exit ((Settles.const _).congr fun n => ?_)
  rw [List.append_nil]
  exact pass_nul (by simp [cstr])

theorem scans_directive (hflags : ∀ b ∈ flags, isFlag b) (hc : isConversion c)
    (hfit : Fits (Segment.directive flags c).args ap) (herr : c = chr 'e' → ErrorsPrinted)
    (h : Scans u (ap.drop (Segment.directive flags c).args.length) o) :
    ∃ o', Scans (chr '%' :: (flags ++ c :: u)) ap o' := by
  obtain ⟨hrenders, ho⟩ := h
  obtain ⟨o₁, hprints, ho₁⟩ := directive_prints hflags hc hfit herr
  refine ⟨o₁ ++ o, ?_⟩
  rw [Scans, segments_directive hflags (not_isFlag_of_isConversion hc) hc]
  refine ⟨.cons hprints hrenders, ?_⟩
  intro pre out
  have hnext := ho (pre ++ chr '%' :: flags ++ [c]) (out ++ o₁)
  refine ho₁ _ pre (u ++ [0]) out _ (by simp [cstr]) ?_
  simpa using hnext

theorem scans_unrecognized (hflags : ∀ b ∈ flags, isFlag b) (hc : ¬ isFlag c)
    (hc' : ¬ isConversion c) (hc0 : c ≠ 0) (hfit : Fits (starArgs flags) ap)
    (h : Scans u (ap.drop (starArgs flags).length) o) :
    Scans (chr '%' :: (flags ++ c :: u)) ap (chars (chr '%' :: (flags ++ [c])) ++ o) := by
  obtain ⟨hrenders, ho⟩ := h
  rw [Scans, segments_unrecognized hflags hc hc']
  constructor
  · refine .cons rfl ?_
    rw [Segment.args, starArgs_unrecognized hc]
    exact hrenders
  · intro pre out
    have hnext := ho (pre ++ chr '%' :: (flags ++ [c])) (out ++ chars (chr '%' :: (flags ++ [c])))
    have hf : cstr (pre ++ chr '%' :: (flags ++ c :: u)) =
        pre ++ chr '%' :: flags ++ c :: (u ++ [0]) := by simp [cstr]
    have hsplit : flags ++ c :: (u ++ [0]) = (flags ++ [c]) ++ (u ++ [0]) := by simp
    refine literal_settles hflags hc hc' hfit hf ?_ hsplit ?_
    · intro b hb
      rcases List.mem_append.mp hb with hb | hb
      · exact ne_percent_of_isFlag (hflags b hb)
      · obtain rfl := List.mem_singleton.mp hb
        refine ⟨?_, hc0⟩
        rintro rfl
        exact hc' (by decide)
    · simpa using hnext

/-- From the start of any segment the scanner prints the segments that follow and ends. -/
theorem scan_settles (h0 : 0 ∉ rest) (hfit : Fits ((segments rest).flatMap Segment.args) ap)
    (herr : (∃ g ∈ segments rest, g.isError) → ErrorsPrinted) : ∃ o, Scans rest ap o := by
  induction hlen : rest.length using Nat.strongRecOn generalizing rest ap with
  | ind n ih =>
  subst n
  cases rest with
  | nil => exact ⟨[], scans_nil ap⟩
  | cons a rest =>
    by_cases ha : a = chr '%'
    · subst ha
      obtain ⟨flags, u, rfl, hflags, hu⟩ := exists_takeWhile_append isFlag rest
      cases u with
      | nil =>
        rw [List.append_nil, segments_flags hflags] at *
        exact ⟨_, scans_cut hflags (by simpa [Segment.args] using hfit)⟩
      | cons c u =>
        have hc : ¬ isFlag c := hu c rfl
        have hc0 : c ≠ 0 := by
          rintro rfl
          exact h0 (by simp)
        have hlen : u.length < (chr '%' :: (flags ++ c :: u)).length := by
          simp only [List.length_cons, List.length_append]
          omega
        have hu0 : 0 ∉ u := fun h => h0 (List.mem_cons_of_mem _
          (List.mem_append_right _ (List.mem_cons_of_mem _ h)))
        by_cases hconv : isConversion c
        · rw [segments_directive hflags hc hconv] at hfit herr
          obtain ⟨hargs, hrest⟩ := fits_append.mp hfit
          obtain ⟨o, ho⟩ := ih u.length hlen hu0 hrest
            (fun ⟨g, hg, he⟩ => herr ⟨g, List.mem_cons_of_mem _ hg, he⟩) rfl
          exact scans_directive hflags hconv hargs
            (fun he => herr ⟨.directive flags c, by simp, by simp [Segment.isError, he]⟩) ho
        · rw [segments_unrecognized hflags hc hconv] at hfit herr
          obtain ⟨hargs, hrest⟩ := fits_append.mp hfit
          rw [Segment.args, starArgs_unrecognized hc] at hargs hrest
          obtain ⟨o, ho⟩ := ih u.length hlen hu0 hrest
            (fun ⟨g, hg, he⟩ => herr ⟨g, List.mem_cons_of_mem _ hg, he⟩) rfl
          exact ⟨_, scans_unrecognized hflags hc hconv hc0 hargs ho⟩
    · have ha0 : a ≠ 0 := by
        rintro rfl
        exact h0 (by simp)
      rw [segments_text ha] at hfit herr
      obtain ⟨o, ho⟩ := ih rest.length (by simp) (fun h => h0 (List.mem_cons_of_mem _ h)) hfit
        (fun ⟨g, hg, he⟩ => herr ⟨g, List.mem_cons_of_mem _ hg, he⟩) rfl
      exact ⟨_, scans_text ha ha0 ho⟩

/-- A run over the whole format. -/
theorem vprintfmt_collects {fmt : List Byte} (h0 : 0 ∉ fmt) (hfit : Fits (formatArgs fmt) ap)
    (herr : (∃ g ∈ segments fmt, g.isError) → ErrorsPrinted) :
    ∃ o, Renders (segments fmt) ap o ∧
      Settles (fun n => vprintfmt collect n (cstr fmt) ap []) (.ok o) := by
  obtain ⟨o, hrenders, ho⟩ := scan_settles h0 hfit herr
  exact ⟨o, hrenders, (ho [] []).settles.succ fun n => rfl⟩

/-! ### `%e` -/

/-- The index is below `maxError`, but for the most negative code: it is its own negative, and
four times it wraps to the first entry. -/
theorem errorIndex_lt {err : BitVec 32} (h : err.toNat < 7 ∨ err.toNat = 2 ^ 31) :
    (4 * err).toNat / 4 < errorString.length := by
  change _ < 7
  rcases h with h | h
  · bv_omega
  · bv_omega

theorem errorEntry_ok {err : BitVec 32} (h : err.toNat < 7 ∨ err.toNat = 2 ^ 31) :
    ∃ p, errorEntry err = .ok p :=
  ⟨_, by rw [errorEntry, List.getElem?_eq_getElem (errorIndex_lt h)]⟩

theorem toNat_abs {err v : BitVec 32} (hv : (if err.slt 0 then -err else err) = v)
    (h : ¬ maxError.sle v) : v.toNat < 7 ∨ v.toNat = 2 ^ 31 := by
  have hseven : maxError.toInt = 7 := rfl
  rw [BitVec.sle_iff_toInt_le, hseven, BitVec.toInt_eq_toNat_cond] at h
  by_cases hneg : err.slt 0
  · rw [if_pos hneg] at hv
    rw [slt_iff_toNat] at hneg
    subst hv
    bv_omega
  · rw [if_neg hneg] at hv
    rw [slt_iff_toNat] at hneg
    subst hv
    bv_omega

theorem errorsPrinted : ErrorsPrinted := by
  intro err
  have hnum : ∀ v, ∃ o, Settles (fun n =>
      vprintfmt collect n (cstr (lit "error %d")) [.int v] []) (.ok o) := by
    intro v
    have hfit : Fits (formatArgs (lit "error %d")) [.int v] := ⟨trivial, trivial⟩
    obtain ⟨o, -, ho⟩ := vprintfmt_collects (by decide) hfit fun h => absurd h (by decide)
    exact ⟨o, ho⟩
  have hstr : ∀ p, ∃ o, Settles (fun n =>
      vprintfmt collect n (cstr (lit "%s")) [.str (cstr p)] []) (.ok o) := by
    intro p
    have hfit : Fits (formatArgs (lit "%s")) [.str (cstr p)] := by
      refine ⟨fun a ha => ?_, trivial⟩
      obtain rfl := Option.some.inj ha
      simp [cstr]
    obtain ⟨o, -, ho⟩ := vprintfmt_collects (by decide) hfit fun h => absurd h (by decide)
    exact ⟨o, ho⟩
  simp only [errorMessage]
  generalize hv : (if err.slt 0 then -err else err) = v
  by_cases h : maxError.sle v
  · simp only [if_pos h]
    exact hnum v
  · obtain ⟨p, hp⟩ := errorEntry_ok (toNat_abs hv h)
    simp only [if_neg h, hp, ok_bind]
    cases p with
    | none => exact hnum _
    | some p => exact hstr p

/-- Every format ends, inside its bounds: text and what is not recognized come out literally, and
each directive prints what it prints alone. -/
theorem vprintfmt_renders {fmt : List Byte} (h0 : 0 ∉ fmt) (hfit : Fits (formatArgs fmt) ap) :
    ∃ o, Renders (segments fmt) ap o ∧ ∀ (σ : Type) (putch : BitVec 32 → σ → σ) (s : σ),
      Settles (fun n => vprintfmt putch n (cstr fmt) ap s) (.ok (emit putch o s)) := by
  obtain ⟨o, hrenders, ho⟩ := vprintfmt_collects h0 hfit fun _ => errorsPrinted
  refine ⟨o, hrenders, fun σ putch s => ?_⟩
  exact (ho.view fun out => emit putch out s).congr fun n => vprintfmt_eq_emit putch n _ ap s

/-- A directive that is not recognized, one that is, and one that the string ends inside. -/
theorem vprintfmt_renders_mixed :
    ∃ o, Renders (segments (lit "a%*5q%d %-l")) [.int 3, .int 7] o ∧
      ∀ (σ : Type) (putch : BitVec 32 → σ → σ) (s : σ),
        Settles (fun n => vprintfmt putch n (cstr (lit "a%*5q%d %-l")) [.int 3, .int 7] s)
          (.ok (emit putch o s)) :=
  vprintfmt_renders (by decide) ⟨trivial, trivial, trivial⟩

end Jos
