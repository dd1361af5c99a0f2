import Jos.Lib.Emission

/-!
How a format string divides into literal text, directives and what is no directive,
told without the scanner that finds them.
-/
namespace Jos

open Prog

/-- The characters that may stand between a `%` and its conversion. -/
def isFlag (c : Byte) : Bool := (lit "-0123456789*.#l").contains c

def isConversion (c : Byte) : Bool := (lit "cesduopx%").contains c

inductive Segment where
  | text (c : Byte)
  | directive (flags : List Byte) (c : Byte)
  /-- A `%` and what follows it up to a character that is neither flag nor conversion,
  or up to the end of the string. -/
  | unrecognized (s : List Byte)
deriving DecidableEq, Repr

/-- The part of the format that a segment stands for. -/
def Segment.source : Segment → List Byte
  | .text c => [c]
  | .directive flags c => chr '%' :: flags ++ [c]
  | .unrecognized s => chr '%' :: s

/-- The segments of `s`, when a directive with these flags may have been begun. -/
def segmentsFrom : Option (List Byte) → List Byte → List Segment
  | none, [] => []
  | some flags, [] => [.unrecognized flags]
  | none, c :: s =>
    if c = chr '%' then segmentsFrom (some []) s else .text c :: segmentsFrom none s
  | some flags, c :: s =>
    if isFlag c then segmentsFrom (some (flags ++ [c])) s
    else if isConversion c then .directive flags c :: segmentsFrom none s
    else .unrecognized (flags ++ [c]) :: segmentsFrom none s

def segments (s : List Byte) : List Segment := segmentsFrom none s

/-- The kinds of variadic arguments. -/
inductive ArgKind where
  | int | llong | ptr | str
deriving DecidableEq, Repr

/-- `NULL` or an array that has a NUL is what a string argument must be. -/
def VaArg.Fits : ArgKind → VaArg → Prop
  | .int, .int _ => True
  | .llong, .llong _ => True
  | .ptr, .ptr _ => True
  | .str, .str p => ∀ a ∈ p, 0 ∈ a
  | _, _ => False

/-- The first arguments are of these kinds. -/
def Fits : List ArgKind → VaList → Prop
  | [], _ => True
  | k :: ks, a :: ap => a.Fits k ∧ Fits ks ap
  | _ :: _, [] => False

/-- How many `l` flags there are, as the `int` that counts them. -/
def longs (flags : List Byte) : BitVec 32 := BitVec.ofNat 32 (flags.count (chr 'l'))

/-- What a conversion takes when `lflag` has this value. -/
def conversionArgs (lflag : BitVec 32) (c : Byte) : List ArgKind :=
  if c = chr '%' then []
  else if c = chr 'c' ∨ c = chr 'e' then [.int]
  else if c = chr 's' then [.str]
  else if c = chr 'p' then [.ptr]
  else if (2#32).sle lflag then [.llong] else [.int]

/-- What the `*` flags take. -/
def starArgs (flags : List Byte) : List ArgKind := List.replicate (flags.count (chr '*')) .int

/-- The arguments that a segment asks for. -/
def Segment.args : Segment → List ArgKind
  | .text _ => []
  | .directive flags c => starArgs flags ++ conversionArgs (longs flags) c
  | .unrecognized s => starArgs s

/-- The arguments that a format asks for. -/
def formatArgs (s : List Byte) : List ArgKind := (segments s).flatMap Segment.args

/-- Characters as they are given to `putch`. -/
def chars (s : List Byte) : List (BitVec 32) := s.map (BitVec.setWidth 32)

/-- What a segment prints: text and what is not recognized literally, a directive what it
prints when it is the whole format. -/
def Segment.Prints : Segment → VaList → List (BitVec 32) → Prop
  | .directive flags c, ap, out =>
    Settles (fun n => vprintfmt collect n (cstr (Segment.directive flags c).source) ap [])
      (.ok out)
  | g, _, out => out = chars g.source

/-- What the segments print one after the other, each from where the one before left the
arguments. -/
inductive Renders : List Segment → VaList → List (BitVec 32) → Prop
  | nil {ap} : Renders [] ap []
  | cons {g gs ap out rest} : g.Prints ap out → Renders gs (ap.drop g.args.length) rest →
    Renders (g :: gs) ap (out ++ rest)

variable {s t flags u : List Byte} {ap : VaList} {ks js : List ArgKind} {c : Byte}

/-! ### Dividing a format -/

theorem segmentsFrom_append_flags (h : ∀ b ∈ u, isFlag b) :
    segmentsFrom (some flags) (u ++ s) = segmentsFrom (some (flags ++ u)) s := by
  induction u generalizing flags with
  | nil => simp
  | cons b u ih =>
    have hb : isFlag b := h b (by simp)
    rw [List.cons_append, segmentsFrom, if_pos hb, ih fun a ha => h a (by simp [ha])]
    simp

theorem segments_text (hc : c ≠ chr '%') : segments (c :: s) = .text c :: segments s := by
  simp only [segments, segmentsFrom, if_neg hc]

theorem segments_percent (h : ∀ b ∈ u, isFlag b) :
    segments (chr '%' :: (u ++ s)) = segmentsFrom (some u) s := by
  simp only [segments, segmentsFrom, if_true]
  exact segmentsFrom_append_flags h

theorem segments_directive (h : ∀ b ∈ u, isFlag b) (hf : ¬ isFlag c) (hc : isConversion c) :
    segments (chr '%' :: (u ++ c :: s)) = .directive u c :: segments s := by
  rw [segments_percent h]
  simp only [segmentsFrom, if_neg hf, if_pos hc]
  rfl

theorem segments_unrecognized (h : ∀ b ∈ u, isFlag b) (hf : ¬ isFlag c) (hc : ¬ isConversion c) :
    segments (chr '%' :: (u ++ c :: s)) = .unrecognized (u ++ [c]) :: segments s := by
  rw [segments_percent h]
  simp only [segmentsFrom, if_neg hf, if_neg hc]
  rfl

theorem segments_flags (h : ∀ b ∈ u, isFlag b) :
    segments (chr '%' :: u) = [.unrecognized u] := by
  have := segments_percent (s := []) h
  rwa [List.append_nil] at this

/-- The segments are the format, nothing left out and nothing twice. -/
theorem segments_source : (segments s).flatMap Segment.source = s := by
  suffices h : ∀ o, (segmentsFrom o s).flatMap Segment.source =
      (o.map (chr '%' :: ·)).getD [] ++ s from h none
  induction s with
  | nil =>
    intro o
    cases o <;> simp [segmentsFrom, Segment.source]
  | cons c s ih =>
    intro o
    cases o with
    | none =>
      by_cases hc : c = chr '%'
      · subst hc
        simp [segmentsFrom, ih]
      · simp [segmentsFrom, hc, ih, Segment.source]
    | some flags =>
      by_cases hf : isFlag c
      · simp [segmentsFrom, hf, ih]
      · by_cases hc : isConversion c
        · simp [segmentsFrom, hf, hc, ih, Segment.source]
        · simp [segmentsFrom, hf, hc, ih, Segment.source]

/-! ### Arguments -/

theorem fits_append : Fits (ks ++ js) ap ↔ Fits ks ap ∧ Fits js (ap.drop ks.length) := by
  induction ks generalizing ap with
  | nil => simp [Fits]
  | cons k ks ih =>
    cases ap with
    | nil => simp [Fits]
    | cons a ap => simp [Fits, ih, and_assoc]

theorem Fits.vaInt (h : Fits [.int] ap) : ∃ v, vaInt ap = .ok (v, ap.drop 1) := by
  match ap, h with
  | .int v :: ap, _ => exact ⟨v, rfl⟩

theorem Fits.vaLlong (h : Fits [.llong] ap) : ∃ v, vaLlong ap = .ok (v, ap.drop 1) := by
  match ap, h with
  | .llong v :: ap, _ => exact ⟨v, rfl⟩

theorem Fits.vaPtr (h : Fits [.ptr] ap) : ∃ v, vaPtr ap = .ok (v, ap.drop 1) := by
  match ap, h with
  | .ptr v :: ap, _ => exact ⟨v, rfl⟩

theorem Fits.vaStr (h : Fits [.str] ap) :
    ∃ p, vaStr ap = .ok (p, ap.drop 1) ∧ ∀ a ∈ p, 0 ∈ a := by
  match ap, h with
  | .str p :: ap, h => exact ⟨p, rfl, h.1⟩

theorem Fits.getuint {lflag : BitVec 32}
    (h : Fits (if (2#32).sle lflag then [.llong] else [.int]) ap) :
    ∃ v, getuint ap lflag = .ok (v, ap.drop 1) := by
  unfold Jos.getuint
  split at h
  · rename_i hl
    rw [if_pos hl]
    exact h.vaLlong
  · rename_i hl
    obtain ⟨v, hv⟩ := h.vaInt
    exact ⟨v.setWidth 64, by rw [if_neg hl, hv]; rfl⟩

theorem Fits.getint {lflag : BitVec 32}
    (h : Fits (if (2#32).sle lflag then [.llong] else [.int]) ap) :
    ∃ v, getint ap lflag = .ok (v, ap.drop 1) := by
  unfold Jos.getint
  split at h
  · rename_i hl
    rw [if_pos hl]
    exact h.vaLlong
  · rename_i hl
    obtain ⟨v, hv⟩ := h.vaInt
    exact ⟨v.signExtend 64, by rw [if_neg hl, hv]; rfl⟩

end Jos
