import Jos.Lib.Printfmt

/-!
The characters that `vprintfmt` emits do not depend on where they go: a run with any
`putch` is the run that collects them, seen through a fold of `putch`.
-/
namespace Jos

open Prog

variable {σ τ : Type} {putch : BitVec 32 → σ → σ} {putch' : BitVec 32 → τ → τ} {h : σ → τ}
  {printfmt : List Byte → VaList → σ → Res σ} {printfmt' : List Byte → VaList → τ → Res τ}

/-- Append a character to those emitted so far. -/
def collect (c : BitVec 32) (out : List (BitVec 32)) : List (BitVec 32) := out ++ [c]

/-- Give the characters of `out` to `putch`, in order. -/
def emit (putch : BitVec 32 → σ → σ) (out : List (BitVec 32)) (s : σ) : σ :=
  out.foldl (fun s c => putch c s) s

theorem emit_collect (c : BitVec 32) (out : List (BitVec 32)) (s : σ) :
    emit putch (collect c out) s = putch c (emit putch out s) := by
  simp [emit, collect]

/-! ### Runs seen through a map of what `putdat` points to -/

def Scan.map (h : σ → τ) (k : Scan σ) : Scan τ := ⟨k.fmt, k.ap, h k.out, k.label⟩

def Text.map (h : σ → τ) (t : Text σ) : Text τ := ⟨t.pos, t.precision, t.width, h t.out⟩

section

variable (hput : ∀ c s, putch' c (h s) = h (putch c s))
include hput

theorem foldl_map (cs : List (BitVec 32)) (s : σ) :
    cs.foldl (fun s c => putch' c s) (h s) = h (cs.foldl (fun s c => putch c s) s) := by
  induction cs generalizing s with
  | nil => rfl
  | cons c cs ih => rw [List.foldl_cons, List.foldl_cons, hput, ih]

theorem padLoop_map (c width : BitVec 32) (s : σ) :
    padLoop putch' c width (h s) =
      ((padLoop putch c width s).1, h (padLoop putch c width s).2) := by
  unfold padLoop
  split
  · rw [foldl_map hput]
  · rfl

theorem printnum_map (fuel : ℕ) (num : BitVec 64) (base width padc : BitVec 32) (s : σ) :
    printnum putch' fuel num base width padc (h s) =
      view h (printnum putch fuel num base width padc s) := by
  induction fuel generalizing num width with
  | zero => rfl
  | succ fuel ih =>
    have hpad : (pure (padLoop putch' padc (width - 1) (h s)).2 : Res τ) =
        view h (pure (padLoop putch padc (width - 1) s).2) := by
      rw [padLoop_map hput]
      rfl
    simp only [printnum, ih, hpad, ← view_ite]
    refine view_bind_eq_view fun s => bind_eq_view fun digit => ?_
    rw [hput]
    rfl

theorem number_map (fuel : ℕ) (d : Flags) (num : BitVec 64) (base : BitVec 32) (s : σ) :
    number putch' fuel d num base (h s) = view h (number putch fuel d num base s) :=
  printnum_map hput ..

theorem textBody_map (p : List Byte) (altflag : Bool) (t : Text σ) :
    textBody putch' p altflag (t.map h) =
      view (Sum.map (Text.map h) (Text.map h)) (textBody putch p altflag t) := by
  unfold textBody
  refine bind_eq_view fun b => ?_
  simp only [Text.map, hput, view_ite]
  rfl

theorem stringPad_map (fuel : ℕ) (d : Flags) (p : List Byte) (s : σ) :
    stringPad putch' fuel d p (h s) = view (Prod.map id h) (stringPad putch fuel d p s) := by
  unfold stringPad
  rw [view_ite]
  congr 1
  refine bind_eq_view fun n => ?_
  rw [padLoop_map hput]
  rfl

theorem string_map (fuel : ℕ) (d : Flags) (p : List Byte) (s : σ) :
    string putch' fuel d p (h s) = view h (string putch fuel d p s) := by
  unfold string
  rw [stringPad_map hput]
  refine view_bind_eq_view fun ⟨width, s⟩ => ?_
  have hloop := loop_view (textBody_map hput p d.altflag) fuel ⟨0, d.precision, width, s⟩
  refine (congrArg (· >>= _) hloop).trans (view_bind_eq_view fun t => ?_)
  simp only [Text.map, padLoop_map hput]
  rfl

variable (hprintfmt : ∀ f ap s, printfmt' f ap (h s) = view h (printfmt f ap s))
include hprintfmt

omit hput in
theorem errorMessage_map (err : BitVec 32) (s : σ) :
    errorMessage printfmt' err (h s) = view h (errorMessage printfmt err s) := by
  simp only [errorMessage, hprintfmt, view_ite]
  congr 1
  refine bind_eq_view fun p => ?_
  cases p <;> rfl

theorem convert_map (fuel : ℕ) (f : List Byte) (d : Flags) (ch : Byte) (k : Scan σ) :
    convert putch' printfmt' fuel f d ch (k.map h) =
      view (Scan.map h) (convert putch printfmt fuel f d ch k) := by
  have hnum : ∀ num base (s : σ) ap, (number putch' fuel d num base (h s) >>= fun s =>
      pure { k.map h with ap := ap, out := s, label := .text }) =
      view (Scan.map h) (number putch fuel d num base s >>= fun s =>
        pure { k with ap := ap, out := s, label := .text }) := by
    intro num base s ap
    rw [number_map hput]
    exact view_bind_eq_view fun s => rfl
  unfold convert
  refine ite_eq_view (bind_eq_view fun ⟨c, ap⟩ => ?_) ?_
  · simp only [Scan.map, hput]
    rfl
  refine ite_eq_view (bind_eq_view fun ⟨err, ap⟩ => ?_) ?_
  · simp only [Scan.map, errorMessage_map hprintfmt]
    exact view_bind_eq_view fun s => rfl
  refine ite_eq_view (bind_eq_view fun ⟨p, ap⟩ => ?_) ?_
  · simp only [Scan.map, string_map hput]
    exact view_bind_eq_view fun s => rfl
  refine ite_eq_view (bind_eq_view fun ⟨num, ap⟩ => ?_) ?_
  · simp only [Scan.map, hput, number_map hput, ← view_ite]
    exact view_bind_eq_view fun s => rfl
  refine ite_eq_view (bind_eq_view fun ⟨num, ap⟩ => hnum ..) ?_
  refine ite_eq_view (bind_eq_view fun ⟨num, ap⟩ => hnum ..) ?_
  refine ite_eq_view (bind_eq_view fun ⟨v, ap⟩ => ?_) ?_
  · simp only [Scan.map, hput, number_map hput]
    exact view_bind_eq_view fun s => rfl
  refine ite_eq_view (bind_eq_view fun ⟨num, ap⟩ => hnum ..) ?_
  refine ite_eq_view ?_ (bind_eq_view fun fmt => ?_)
  · simp only [Scan.map, hput]
    rfl
  · simp only [Scan.map, hput]
    rfl

theorem reswitch_map (fuel : ℕ) (f : List Byte) (d : Flags) (k : Scan σ) :
    reswitch putch' printfmt' fuel f d (k.map h) =
      view (Scan.map h) (reswitch putch printfmt fuel f d k) := by
  unfold reswitch
  refine bind_eq_view fun ch => ?_
  refine ite_eq_view rfl (ite_eq_view rfl (ite_eq_view (bind_eq_view fun ⟨_, _⟩ => rfl) ?_))
  refine ite_eq_view (bind_eq_view fun ⟨_, _⟩ => rfl) (ite_eq_view rfl (ite_eq_view rfl ?_))
  exact ite_eq_view rfl (convert_map hput hprintfmt fuel f d ch { k with fmt := k.fmt + 1 })

theorem vprintfmtBody_map (fuel : ℕ) (f : List Byte) (k : Scan σ) :
    vprintfmtBody putch' printfmt' fuel f (k.map h) =
      view (Sum.map (Scan.map h) h) (vprintfmtBody putch printfmt fuel f k) := by
  unfold vprintfmtBody
  obtain ⟨fmt, ap, out, label⟩ := k
  cases label with
  | text =>
    refine bind_eq_view fun ch => ?_
    refine ite_eq_view rfl (ite_eq_view rfl ?_)
    simp only [Scan.map, hput]
    rfl
  | reswitch d =>
    refine (congrArg (· >>= _) (reswitch_map hput hprintfmt ..)).trans ?_
    exact view_bind_eq_view fun k => rfl

omit hprintfmt in
/-- `vprintfmt` does the same to two states that are related by a map. -/
theorem vprintfmt_map (fuel : ℕ) (f : List Byte) (ap : VaList) (s : σ) :
    vprintfmt putch' fuel f ap (h s) = view h (vprintfmt putch fuel f ap s) := by
  induction fuel generalizing f ap s with
  | zero => rfl
  | succ fuel ih => exact loop_view (vprintfmtBody_map hput ih fuel f) fuel ⟨0, ap, s, .text⟩

end

/-- Every run is the run that collects the characters, followed by their emission. -/
theorem vprintfmt_eq_emit (putch : BitVec 32 → σ → σ) (fuel : ℕ) (f : List Byte) (ap : VaList)
    (s : σ) : vprintfmt putch fuel f ap s =
      view (fun out => emit putch out s) (vprintfmt collect fuel f ap []) :=
  vprintfmt_map (h := fun out => emit putch out s) (fun c out => (emit_collect c out s).symm)
    fuel f ap []

end Jos
