import Jos.Lib.ErrorCodes

/-!
A format that is put together from parts prints what the parts print, each with its
own arguments.
-/
namespace Jos

open Prog

variable {σ : Type} {putch : BitVec 32 → σ → σ} {f g u flags : List Byte} {ap bp : VaList}
  {o o' : List (BitVec 32)} {gs gs' : List Segment} {ks : List ArgKind}
  {printfmt : List Byte → VaList → σ → Res σ} {b : ℕ}

/-! ### Arguments that are not reached -/

/-- More arguments behind those that are there. -/
def Scan.extend (bp : VaList) (k : Scan σ) : Scan σ := { k with ap := k.ap ++ bp }

/-- More arguments behind those that are left. -/
def leave {α : Type} (bp : VaList) (r : α × VaList) : α × VaList := (r.1, r.2 ++ bp)

theorem vaInt_extend (bp : VaList) : Within (view (leave bp) (vaInt ap)) (vaInt (ap ++ bp)) := by
  cases ap with
  | nil => exact .of_error _ _
  | cons a ap => cases a with
    | int v => exact .refl _
    | llong v => exact .of_error _ _
    | ptr v => exact .of_error _ _
    | str p => exact .of_error _ _

theorem vaLlong_extend (bp : VaList) :
    Within (view (leave bp) (vaLlong ap)) (vaLlong (ap ++ bp)) := by
  cases ap with
  | nil => exact .of_error _ _
  | cons a ap => cases a with
    | llong v => exact .refl _
    | int v => exact .of_error _ _
    | ptr v => exact .of_error _ _
    | str p => exact .of_error _ _

theorem vaPtr_extend (bp : VaList) : Within (view (leave bp) (vaPtr ap)) (vaPtr (ap ++ bp)) := by
  cases ap with
  | nil => exact .of_error _ _
  | cons a ap => cases a with
    | ptr v => exact .refl _
    | int v => exact .of_error _ _
    | llong v => exact .of_error _ _
    | str p => exact .of_error _ _

theorem vaStr_extend (bp : VaList) : Within (view (leave bp) (vaStr ap)) (vaStr (ap ++ bp)) := by
  cases ap with
  | nil => exact .of_error _ _
  | cons a ap => cases a with
    | str p => exact .refl _
    | int v => exact .of_error _ _
    | llong v => exact .of_error _ _
    | ptr v => exact .of_error _ _

theorem getuint_extend (bp : VaList) (lflag : BitVec 32) :
    Within (view (leave bp) (getuint ap lflag)) (getuint (ap ++ bp) lflag) :=
  Within.ite (vaLlong_extend bp) (Within.bind (vaInt_extend bp) fun _ => .refl _)

theorem getint_extend (bp : VaList) (lflag : BitVec 32) :
    Within (view (leave bp) (getint ap lflag)) (getint (ap ++ bp) lflag) :=
  Within.ite (vaLlong_extend bp) (Within.bind (vaInt_extend bp) fun _ => .refl _)

/-- What a conversion does with its argument does not depend on those behind it. -/
theorem convert_extend (bp : VaList) (fuel : ℕ) (d : Flags) (ch : Byte) (k : Scan σ) :
    Within (view (Scan.extend bp) (convert putch printfmt fuel f d ch k))
      (convert putch printfmt fuel f d ch (k.extend bp)) := by
  have hout : ∀ (x : Res σ) (ap : VaList),
      Within (view (Scan.extend bp) (x >>= fun s =>
          pure { k with ap := ap, out := s, label := .text }))
        (x >>= fun s => pure { k.extend bp with ap := ap ++ bp, out := s, label := .text }) :=
    fun x ap => Within.after x fun _ => .refl _
  unfold convert
  refine Within.ite (Within.bind (vaInt_extend bp) fun _ => .refl _) ?_
  refine Within.ite (Within.bind (vaInt_extend bp) fun _ => hout _ _) ?_
  refine Within.ite (Within.bind (vaStr_extend bp) fun _ => hout _ _) ?_
  refine Within.ite (Within.bind (getint_extend bp d.lflag) fun _ => hout _ _) ?_
  refine Within.ite (Within.bind (getuint_extend bp d.lflag) fun _ => hout _ _) ?_
  refine Within.ite (Within.bind (getuint_extend bp d.lflag) fun _ => hout _ _) ?_
  refine Within.ite (Within.bind (vaPtr_extend bp) fun _ => hout _ _) ?_
  refine Within.ite (Within.bind (getuint_extend bp d.lflag) fun _ => hout _ _) ?_
  exact Within.ite (.refl _) (Within.after _ fun _ => .refl _)

theorem reswitch_extend (bp : VaList) (fuel : ℕ) (d : Flags) (k : Scan σ) :
    Within (view (Scan.extend bp) (reswitch putch printfmt fuel f d k))
      (reswitch putch printfmt fuel f d (k.extend bp)) := by
  unfold reswitch
  refine Within.after (peek f k.fmt) fun ch => ?_
  refine Within.ite (.refl _) (Within.ite (.refl _) (Within.ite ?_ ?_))
  · exact Within.after _ fun _ => .refl _
  · refine Within.ite (Within.bind (vaInt_extend bp) fun _ => .refl _) ?_
    refine Within.ite (.refl _) (Within.ite (.refl _) (Within.ite (.refl _) ?_))
    exact convert_extend bp fuel d ch { k with fmt := k.fmt + 1 }

theorem vprintfmtBody_extend (bp : VaList) (fuel : ℕ) (k : Scan σ) :
    Within (view (Sum.map (Scan.extend bp) id) (vprintfmtBody putch printfmt fuel f k))
      (vprintfmtBody putch printfmt fuel f (k.extend bp)) := by
  obtain ⟨fmt, ap, out, label⟩ := k
  cases label with
  | text =>
    refine Within.after (peek f fmt) fun ch => ?_
    exact Within.ite (.refl _) (Within.ite (.refl _) (.refl _))
  | reswitch d => exact Within.bind (reswitch_extend bp fuel d _) fun _ => .refl _

/-- A call that ends ends alike when it is given more arguments. -/
theorem vprintfmt_extend (bp : VaList) (n : ℕ) (f : List Byte) (ap : VaList) (s : σ) :
    Within (vprintfmt putch n f ap s) (vprintfmt putch n f (ap ++ bp) s) := by
  cases n with
  | zero => exact .of_error _ _
  | succ n =>
    have hbody (k : Scan σ) :
        Within _ (vprintfmtBody putch (vprintfmt putch n) n f (k.extend bp)) :=
      vprintfmtBody_extend bp n k
    have hloop := Within.loop hbody n ⟨0, ap, s, .text⟩
    rwa [view_id] at hloop

/-! ### Segments -/

/-- The flags of the directive that is open after one more character. -/
def pendingStep : Option (List Byte) → Byte → Option (List Byte)
  | none, c => if c = chr '%' then some [] else none
  | some flags, c => if isFlag c then some (flags ++ [c]) else none

/-- No directive is open at the end. -/
def Whole (f : List Byte) : Prop := f.foldl pendingStep none = none

instance (f : List Byte) : Decidable (Whole f) := inferInstanceAs (Decidable (_ = _))

theorem Whole.append (hf : Whole f) (hg : Whole g) : Whole (f ++ g) := by
  rw [Whole, List.foldl_append, hf]
  exact hg

theorem segmentsFrom_append {p : Option (List Byte)} (h : f.foldl pendingStep p = none) :
    segmentsFrom p (f ++ g) = segmentsFrom p f ++ segments g := by
  induction f generalizing p with
  | nil =>
    obtain rfl : p = none := h
    rfl
  | cons c f ih =>
    rw [List.foldl_cons] at h
    cases p with
    | none =>
      by_cases hc : c = chr '%'
      · rw [pendingStep, if_pos hc] at h
        simp only [List.cons_append, segmentsFrom, if_pos hc, ih h]
      · rw [pendingStep, if_neg hc] at h
        simp only [List.cons_append, segmentsFrom, if_neg hc, ih h]
    | some flags =>
      by_cases hflag : isFlag c
      · rw [pendingStep, if_pos hflag] at h
        simp only [List.cons_append, segmentsFrom, if_pos hflag, ih h]
      · rw [pendingStep, if_neg hflag] at h
        by_cases hconv : isConversion c
        · simp only [List.cons_append, segmentsFrom, if_neg hflag, if_pos hconv, ih h]
        · simp only [List.cons_append, segmentsFrom, if_neg hflag, if_neg hconv, ih h]

theorem segments_append (hf : Whole f) : segments (f ++ g) = segments f ++ segments g :=
  segmentsFrom_append hf

theorem formatArgs_append (hf : Whole f) : formatArgs (f ++ g) = formatArgs f ++ formatArgs g := by
  rw [formatArgs, segments_append hf, List.flatMap_append]
  rfl

theorem Fits.extend (h : Fits ks ap) (bp : VaList) : Fits ks (ap ++ bp) := by
  induction ks generalizing ap with
  | nil => trivial
  | cons k ks ih => cases ap with
    | nil => exact h.elim
    | cons a ap => exact ⟨h.1, ih h.2⟩

theorem Renders.append (h : Renders gs ap o)
    (h' : Renders gs' (ap.drop (gs.flatMap Segment.args).length) o') :
    Renders (gs ++ gs') ap (o ++ o') := by
  induction h with
  | nil => exact h'
  | cons hprints _ ih =>
    rw [List.flatMap_cons, List.length_append, ← List.drop_drop] at h'
    rw [List.append_assoc]
    exact .cons hprints (ih h')

theorem Segment.Prints.unique {s : Segment} (h : s.Prints ap o) (h' : s.Prints ap o') : o = o' := by
  cases s with
  | text c => exact h.trans h'.symm
  | unrecognized s => exact h.trans h'.symm
  | directive flags c => exact Except.ok.inj (Settles.unique h h')

theorem Renders.unique (h : Renders gs ap o) (h' : Renders gs ap o') : o = o' := by
  induction h generalizing o' with
  | nil =>
    cases h'
    rfl
  | cons hprints _ ih =>
    cases h' with
    | cons hprints' hrest' => rw [hprints.unique hprints', ih hrest']

/-! ### What a format prints -/

/-- The characters that a call prints. -/
def Emits (fmt : List Byte) (ap : VaList) (o : List (BitVec 32)) : Prop :=
  Settles (fun n => vprintfmt collect n (cstr fmt) ap []) (.ok o)

theorem Emits.extend (h : Emits f ap o) (bp : VaList) : Emits f (ap ++ bp) o :=
  Within.settles (fun n => vprintfmt_extend bp n _ ap []) h

theorem emits_iff (h0 : 0 ∉ f) (hfit : Fits (formatArgs f) ap) :
    Emits f ap o ↔ Renders (segments f) ap o := by
  obtain ⟨p, hrenders, hp⟩ := vprintfmt_collects h0 hfit fun _ => errorsPrinted
  constructor
  · intro h
    rwa [← Except.ok.inj (Settles.unique hp h)]
  · intro h
    rwa [← hrenders.unique h]

/-- A format that takes exactly the arguments it is given, leaves no directive open, and prints
`o`. -/
structure Part (f : List Byte) (ap : VaList) (o : List (BitVec 32)) : Prop where
  nonzero : 0 ∉ f
  whole : Whole f
  fits : Fits (formatArgs f) ap
  length : ap.length = (formatArgs f).length
  emits : Emits f ap o

theorem Fits.parts (hf : Whole f) (hap : Fits (formatArgs f) ap)
    (hlen : ap.length = (formatArgs f).length) (hbp : Fits (formatArgs g) bp) :
    Fits (formatArgs (f ++ g)) (ap ++ bp) := by
  rw [formatArgs_append hf]
  refine fits_append.mpr ⟨hap.extend bp, ?_⟩
  rw [← hlen, List.drop_left]
  exact hbp

/-- What is put behind a part is printed after it, from its own arguments. -/
theorem Part.before (h : Part f ap o) (hg : 0 ∉ g) (hbp : Fits (formatArgs g) bp)
    (h' : Emits g bp o') : Emits (f ++ g) (ap ++ bp) (o ++ o') := by
  have hdrop : (ap ++ bp).drop ((segments f).flatMap Segment.args).length = bp := by
    change (ap ++ bp).drop (formatArgs f).length = bp
    rw [← h.length, List.drop_left]
  have h0 : 0 ∉ f ++ g := fun hmem => (List.mem_append.mp hmem).elim h.nonzero hg
  have hleft := (emits_iff h.nonzero (h.fits.extend bp)).mp (h.emits.extend bp)
  have hright := (emits_iff hg hbp).mp h'
  rw [emits_iff h0 (h.fits.parts h.whole h.length hbp), segments_append h.whole]
  refine hleft.append ?_
  rwa [hdrop]

theorem Part.append (h : Part f ap o) (h' : Part g bp o') : Part (f ++ g) (ap ++ bp) (o ++ o') where
  nonzero hmem := (List.mem_append.mp hmem).elim h.nonzero h'.nonzero
  whole := h.whole.append h'.whole
  fits := h.fits.parts h.whole h.length h'.fits
  length := by
    rw [formatArgs_append h.whole, List.length_append, List.length_append, h.length, h'.length]
  emits := h.before h'.nonzero h'.fits h'.emits

/-! ### Parts of one kind -/

theorem segments_texts (hu : ∀ c ∈ u, c ≠ chr '%') : segments u = u.map .text := by
  induction u with
  | nil => rfl
  | cons c u ih =>
    rw [segments_text (hu c List.mem_cons_self), ih fun a ha => hu a (List.mem_cons_of_mem c ha)]
    rfl

theorem renders_text (u : List Byte) : Renders (u.map .text) ap (chars u) := by
  induction u with
  | nil => exact .nil
  | cons c u ih =>
    have hc : (Segment.text c).Prints ap (chars [c]) := rfl
    exact .cons hc ih

theorem whole_text (hu : ∀ c ∈ u, c ≠ chr '%') : Whole u := by
  induction u with
  | nil => rfl
  | cons c u ih =>
    rw [Whole, List.foldl_cons, pendingStep, if_neg (hu c List.mem_cons_self)]
    exact ih fun a ha => hu a (List.mem_cons_of_mem c ha)

theorem Part.text (h0 : 0 ∉ u) (hu : ∀ c ∈ u, c ≠ chr '%') : Part u [] (chars u) := by
  have hsegments := segments_texts hu
  have hargs : formatArgs u = [] := by
    rw [formatArgs, hsegments, List.flatMap_map]
    exact List.flatMap_eq_nil_iff.mpr fun _ _ => rfl
  have hfit : Fits (formatArgs u) [] := by
    rw [hargs]
    trivial
  refine ⟨h0, whole_text hu, hfit, by rw [hargs]; rfl, (emits_iff h0 hfit).mpr ?_⟩
  rw [hsegments]
  exact renders_text u

/-- A string argument is printed up to its NUL, as signed characters. -/
theorem Part.string (hu : 0 ∉ u) (hlen : u.length < 2 ^ 31) (post : List Byte) :
    Part (lit "%s") [.str (some (u ++ 0 :: post))] (u.map (BitVec.signExtend 32)) where
  nonzero := by decide
  whole := by decide
  fits := by
    refine ⟨fun q hq => ?_, trivial⟩
    obtain rfl := Option.some.inj hq
    exact List.mem_append_right u List.mem_cons_self
  length := rfl
  emits := vprintfmt_array hu hlen post

theorem Part.signed (v : BitVec 32) :
    Part (lit "%d") [.int v] (signedText (v.signExtend 64) {}) where
  nonzero := by decide
  whole := by decide
  fits := ⟨trivial, trivial⟩
  length := rfl
  emits := vprintfmt_signed ⟨false, none⟩ v

theorem numberText_word (hb : 2 ≤ b) (v : BitVec 32) (padc : BitVec 32) :
    numberText b v.toNat (-1) padc = chars (numeral b v.toNat) := by
  have hword : (v.setWidth 64).toNat = v.toNat := BitVec.toNat_setWidth_of_le (by decide)
  rw [← hword]
  exact numberText_default hb padc

/-- A number in the base of `c`, without a field. -/
theorem Part.unsigned {c : Byte} {base : BitVec 32} (hbase : UnsignedBase c base) (v : BitVec 32) :
    Part [chr '%', c] [.int v] (chars (numeral base.toNat v.toNat)) := by
  have hemits := vprintfmt_unsigned ⟨false, none⟩ v hbase
  have hbase' : 2 ≤ base.toNat := by
    rcases hbase with ⟨-, rfl⟩ | ⟨-, rfl⟩ | ⟨-, rfl⟩ <;> decide
  rw [← numberText_word hbase' v (chr ' ')]
  rcases hbase with ⟨rfl, rfl⟩ | ⟨rfl, rfl⟩ | ⟨rfl, rfl⟩
  · exact ⟨by decide, by decide, ⟨trivial, trivial⟩, rfl, hemits⟩
  · exact ⟨by decide, by decide, ⟨trivial, trivial⟩, rfl, hemits⟩
  · exact ⟨by decide, by decide, ⟨trivial, trivial⟩, rfl, hemits⟩

/-- The eight digits of a word. -/
def hexText (v : BitVec 32) : List Byte :=
  List.replicate (8 - (numeral 16 v.toNat).length) (chr '0') ++ numeral 16 v.toNat

theorem padding_sub {k w : ℕ} (hk : k ≤ w) (hw : w < 2 ^ 31) (c : BitVec 32) :
    padding c (BitVec.ofNat 32 w - BitVec.ofNat 32 k) = List.replicate (w - k) c := by
  have hnat : (BitVec.ofNat 32 w - BitVec.ofNat 32 k).toNat = w - k := by bv_omega
  unfold padding
  split
  · rw [hnat]
  · rename_i hle
    rw [BitVec.slt_iff_toInt_lt, BitVec.toInt_zero, BitVec.toInt_eq_toNat_cond, hnat] at hle
    have hzero : w - k = 0 := by omega
    rw [hzero]
    rfl

theorem numberText_hex (v : BitVec 32) :
    numberText 16 v.toNat 8 (chr '0') = chars (hexText v) := by
  have hlen : (numeral 16 v.toNat).length ≤ 8 := by
    rw [numeral, List.length_map, Nat.length_toDigits_le_iff (by decide) (by decide)]
    exact v.isLt
  have hpad := padding_sub hlen (by decide) (chr '0')
  have hchars : chars (hexText v) = List.replicate (8 - (numeral 16 v.toNat).length) (chr '0') ++
      chars (numeral 16 v.toNat) := by
    rw [chars, hexText, List.map_append, List.map_replicate]
    rfl
  rw [hchars, ← hpad]
  rfl

/-- A word as eight digits. -/
theorem Part.hex (v : BitVec 32) : Part (lit "%08x") [.int v] (chars (hexText v)) := by
  have hemits := vprintfmt_unsigned ⟨true, some (.numeral 8 (by decide))⟩ v (.inr (.inr ⟨rfl, rfl⟩))
  rw [← numberText_hex]
  exact ⟨by decide, by decide, ⟨trivial, trivial⟩, rfl, hemits⟩

/-! ### Printing in one call or in two -/

/-- The console after a format is what its characters make of it. -/
theorem Emits.settles (h : Emits f ap o) (putch : BitVec 32 → σ → σ) (s : σ) :
    Settles (fun n => vprintfmt putch n (cstr f) ap s) (.ok (emit putch o s)) :=
  (h.view fun out => emit putch out s).congr fun n => vprintfmt_eq_emit putch n _ ap s

/-- Where no directive is left open, one call with two formats put together does what two calls
do, each with its own arguments. -/
theorem vprintfmt_append (putch : BitVec 32 → σ → σ) (h0 : 0 ∉ f) (hf : Whole f)
    (hap : Fits (formatArgs f) ap) (hlen : ap.length = (formatArgs f).length) (hg : 0 ∉ g)
    (hbp : Fits (formatArgs g) bp) (s : σ) :
    ∃ t u, Settles (fun n => vprintfmt putch n (cstr f) ap s) (.ok t) ∧
      Settles (fun n => vprintfmt putch n (cstr g) bp t) (.ok u) ∧
      Settles (fun n => vprintfmt putch n (cstr (f ++ g)) (ap ++ bp) s) (.ok u) := by
  obtain ⟨o, -, ho⟩ := vprintfmt_collects h0 hap fun _ => errorsPrinted
  obtain ⟨o', -, ho'⟩ := vprintfmt_collects hg hbp fun _ => errorsPrinted
  have hpart : Part f ap o := ⟨h0, hf, hap, hlen, ho⟩
  have hboth := (hpart.before hg hbp ho').settles putch s
  rw [emit_append] at hboth
  exact ⟨_, _, Emits.settles ho putch s, Emits.settles ho' putch _, hboth⟩

/-- The number and the character are printed by one call or by two. -/
theorem vprintfmt_append_ok :
    ∃ t u, Settles (fun n => vprintfmt collect n (cstr (lit "a%d")) [.int 7] []) (.ok t) ∧
      Settles (fun n => vprintfmt collect n (cstr (lit "%c%")) [.int 66] t) (.ok u) ∧
      Settles (fun n => vprintfmt collect n (cstr (lit "a%d" ++ lit "%c%"))
        ([.int 7] ++ [.int 66]) []) (.ok u) :=
  vprintfmt_append collect (by decide) (by decide)
    (show Fits (formatArgs (lit "a%d")) [.int 7] from ⟨trivial, trivial⟩) rfl (by decide)
    (show Fits (formatArgs (lit "%c%")) [.int 66] from ⟨trivial, trivial⟩) []

end Jos
