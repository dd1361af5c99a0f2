import Jos.Lib.RoundTrip
import Mathlib.Data.List.TakeWhile

/-! `strtol`: the parts of a number, and where it ends. -/
namespace Jos

open Prog

variable {p pre post s t u v ds : List Byte} {a b c : Byte} {base val : BitVec 32} {k : ℕ}

instance : Decidable (IsDigitOf base c) :=
  match h : digitValue c with
  | none => isFalse (not_isDigitOf_of_none h)
  | some dig =>
    if hle : base.sle dig then
      isFalse fun ⟨_, hdig, hlt⟩ => hlt (Option.some.inj (h.symm.trans hdig) ▸ hle)
    else isTrue ⟨dig, h, hle⟩

def isDigitIn (base : BitVec 32) (c : Byte) : Bool := IsDigitOf base c

/-- A sign at the beginning of `t`. -/
def signOf (t : List Byte) : List Byte :=
  if t.head? = some (chr '+') ∨ t.head? = some (chr '-') then t.take 1 else []

/-- The prefix `0x`, where the base allows it. -/
def prefixOf (base : BitVec 32) (u : List Byte) : List Byte :=
  if (base = 0 ∨ base = 16) ∧ u.take 2 = lit "0x" then u.take 2 else []

/-- Base 0 leaves it to the number: a leading 0, which is a digit of it, makes it octal. -/
def effectiveBase (base : BitVec 32) (u : List Byte) : BitVec 32 :=
  if prefixOf base u ≠ [] then 16
  else if base ≠ 0 then base
  else if u.head? = some (chr '0') then 8 else 10

/-- The parts of the number at the beginning of a string. -/
structure Number where
  blanks : List Byte
  sign : List Byte
  pfx : List Byte
  base : BitVec 32
  digits : List Byte
deriving DecidableEq, Repr

/-- As many blanks as there are, a sign, a prefix, and as many digits as there are. -/
def numberOf (base : BitVec 32) (s : List Byte) : Number :=
  let t := s.dropWhile isBlank
  let u := t.drop (signOf t).length
  let v := u.drop (prefixOf base u).length
  { blanks := s.takeWhile isBlank
    sign := signOf t
    pfx := prefixOf base u
    base := effectiveBase base u
    digits := v.takeWhile (isDigitIn (effectiveBase base u)) }

def Number.lead (n : Number) : List Byte := n.blanks ++ n.sign ++ n.pfx

def Number.value (n : Number) : Int :=
  let v := n.digits.foldl (fun v c => v * n.base.toNat + ((digitValue c).getD 0).toNat) 0
  if n.sign = [chr '-'] then -(v : Int) else v

/-- How many characters take part in the number: none when it has no digits. -/
def Number.length (n : Number) : ℕ := if n.digits = [] then 0 else (n.lead ++ n.digits).length

/-! ### The parts make up the string -/

theorem isDigitIn_iff : isDigitIn base c ↔ IsDigitOf base c := decide_eq_true_iff

theorem signOf_append (t : List Byte) : signOf t ++ t.drop (signOf t).length = t := by
  unfold signOf
  split
  · cases t with
    | nil => rfl
    | cons a t => rfl
  · rfl

theorem prefixOf_append (base : BitVec 32) (u : List Byte) :
    prefixOf base u ++ u.drop (prefixOf base u).length = u := by
  unfold prefixOf
  split
  · rename_i h
    have hlen : (u.take 2).length = 2 := by
      rw [h.2]
      rfl
    rw [hlen, List.take_append_drop]
  · rfl

/-- Where a run of `q` ends there is a character that is not in it, the NUL at the latest. -/
theorem exists_after_run {q : Byte → Bool} (hq : ¬ q 0) (s post : List Byte) :
    ∃ c post', ¬ q c ∧ s ++ 0 :: post = s.takeWhile q ++ c :: post' := by
  induction s with
  | nil => exact ⟨0, post, hq, rfl⟩
  | cons a s ih =>
    by_cases ha : q a
    · obtain ⟨c, post', hc, heq⟩ := ih
      refine ⟨c, post', hc, ?_⟩
      rw [List.takeWhile_cons_of_pos ha, List.cons_append, heq]
      rfl
    · refine ⟨a, s ++ 0 :: post, ha, ?_⟩
      rw [List.takeWhile_cons_of_neg ha]
      rfl

/-! ### The stages of the run -/

theorem blanks_run (hp : p = s ++ 0 :: post) :
    Settles (fun n => loop (blankBody p) n 0) (.ok (s.takeWhile isBlank).length) := by
  obtain ⟨c, post', hc, heq⟩ := exists_after_run (q := isBlank) (by decide) s post
  have hall : ∀ b ∈ s.takeWhile isBlank, isBlank b := fun b hb => List.mem_takeWhile_imp hb
  have hp' : p = [] ++ s.takeWhile isBlank ++ c :: post' := hp.trans heq
  exact blanks_settle hall hc hp'

theorem sign_run (hp : p = pre ++ t ++ 0 :: post) :
    strtolSign p pre.length =
      .ok (decide (signOf t = [chr '-']), pre.length + (signOf t).length) := by
  cases t with
  | nil =>
    have hget : p[pre.length]? = some 0 := by simp [hp]
    rw [strtolSign, peek_of_getElem? hget]
    rfl
  | cons a t =>
    have hget : p[pre.length]? = some a := by simp [hp]
    rw [strtolSign, peek_of_getElem? hget, ok_bind, signOf, List.head?_cons]
    by_cases hplus : a = chr '+'
    · subst hplus
      rfl
    · by_cases hminus : a = chr '-'
      · subst hminus
        rfl
      · rw [if_neg hplus, if_neg hminus, if_neg (by simp [hplus, hminus])]
        rfl

theorem hexPrefix_run (hp : p = pre ++ u ++ 0 :: post) :
    hexPrefix p pre.length = .ok (decide (u.take 2 = lit "0x")) := by
  have hlit : lit "0x" = [chr '0', chr 'x'] := by decide
  rw [hlit]
  cases u with
  | nil =>
    have hget : p[pre.length]? = some 0 := by simp [hp]
    rw [hexPrefix, peek_of_getElem? hget]
    rfl
  | cons a u =>
    have hget : p[pre.length]? = some a := by simp [hp]
    rw [hexPrefix, peek_of_getElem? hget, ok_bind]
    by_cases ha : a = chr '0'
    · subst ha
      rw [if_pos rfl]
      cases u with
      | nil =>
        have hnext : p[pre.length + 1]? = some 0 := by simp [hp]
        rw [peek_of_getElem? hnext]
        rfl
      | cons b u =>
        have hnext : p[pre.length + 1]? = some b := by simp [hp]
        rw [peek_of_getElem? hnext, ok_bind]
        simp
    · rw [if_neg ha]
      simp [ha]

/-- A leading 0 that the code takes for the prefix of an octal number. -/
def Octal (base : BitVec 32) (u : List Byte) : Prop :=
  prefixOf base u = [] ∧ base = 0 ∧ u.head? = some (chr '0')

instance : Decidable (Octal base u) := inferInstanceAs (Decidable (_ ∧ _ ∧ _))

theorem prefixOf_ne_nil : prefixOf base u ≠ [] ↔ (base = 0 ∨ base = 16) ∧ u.take 2 = lit "0x" := by
  unfold prefixOf
  split
  · rename_i h
    refine iff_of_true ?_ h
    rw [h.2]
    decide
  · rename_i h
    exact iff_of_false (not_not_intro rfl) h

theorem length_prefixOf (h : prefixOf base u ≠ []) : (prefixOf base u).length = 2 := by
  have hcond := prefixOf_ne_nil.mp h
  rw [prefixOf, if_pos hcond, hcond.2]
  rfl

theorem prefix_run (base : BitVec 32) (hp : p = pre ++ u ++ 0 :: post) :
    strtolPrefix p base pre.length = .ok (effectiveBase base u,
      pre.length + (if Octal base u then 1 else (prefixOf base u).length)) := by
  have hhex : (if base = 0 ∨ base = 16 then hexPrefix p pre.length else pure false) =
      .ok (decide (prefixOf base u ≠ [])) := by
    by_cases hbase : base = 0 ∨ base = 16
    · rw [if_pos hbase, hexPrefix_run hp]
      exact congrArg Except.ok (decide_eq_decide.mpr (by rw [prefixOf_ne_nil, and_iff_right hbase]))
    · rw [if_neg hbase, decide_eq_false (fun h => hbase (prefixOf_ne_nil.mp h).1)]
      rfl
  rw [strtolPrefix, hhex, ok_bind]
  by_cases hpfx : prefixOf base u = []
  · rw [if_neg (by simpa using hpfx), effectiveBase, if_neg (not_not_intro hpfx)]
    by_cases hbase : base = 0
    · -- the base is told by the first character
      rw [if_pos hbase, if_neg (not_not_intro hbase)]
      obtain ⟨b, hget, hb⟩ : ∃ b, p[pre.length]? = some b ∧
          (u.head? = some (chr '0') ↔ b = chr '0') := by
        cases u with
        | nil => exact ⟨0, by simp [hp], by decide⟩
        | cons b u => exact ⟨b, by simp [hp], by simp⟩
      rw [peek_of_getElem? hget, ok_bind]
      by_cases hzero : b = chr '0'
      · rw [if_pos hzero, if_pos (hb.mpr hzero), if_pos ⟨hpfx, hbase, hb.mpr hzero⟩]
        rfl
      · rw [if_neg hzero, if_neg (mt hb.mp hzero), if_neg fun h => hzero (hb.mp h.2.2), hpfx]
        rfl
    · rw [if_neg hbase, if_pos hbase, if_neg fun h => hbase h.2.1, hpfx]
      rfl
  · rw [if_pos (by simpa using hpfx), effectiveBase, if_pos hpfx, if_neg fun h => hpfx h.1,
      length_prefixOf hpfx]
    rfl

theorem digits_run (base val : BitVec 32) (hp : p = pre ++ v ++ 0 :: post) :
    Settles (fun n => loop (strtolBody p base) n (val, pre.length))
      (.ok (readDigits base val (v.takeWhile (isDigitIn base)),
        (pre ++ v.takeWhile (isDigitIn base)).length)) := by
  have hnul : ¬ isDigitIn base 0 := mt isDigitIn_iff.mp (not_isDigitOf_of_none (by decide))
  obtain ⟨c, post', hc, heq⟩ := exists_after_run hnul v post
  have hall : ∀ a ∈ v.takeWhile (isDigitIn base), IsDigitOf base a :=
    fun a ha => isDigitIn_iff.mp (List.mem_takeWhile_imp ha)
  have hp' : p = pre ++ v.takeWhile (isDigitIn base) ++ c :: post' := by
    rw [hp, List.append_assoc, heq, List.append_assoc]
  exact digits_read val hall (mt isDigitIn_iff.mpr hc) hp'

/-! ### The whole run -/

theorem digitValue_zero : digitValue (chr '0') = some 0 := by decide

/-- The digits behind a leading 0 have the same value without it. -/
theorem octal_digits (h : Octal base u) :
    ∃ v, u = chr '0' :: v ∧ effectiveBase base u = 8 ∧
      u.takeWhile (isDigitIn 8) = chr '0' :: v.takeWhile (isDigitIn 8) ∧
      readDigits 8 0 (u.takeWhile (isDigitIn 8)) = readDigits 8 0 (v.takeWhile (isDigitIn 8)) := by
  obtain ⟨hpfx, hbase, hhead⟩ := h
  obtain ⟨v, rfl⟩ := List.head?_eq_some_iff.mp hhead
  have hdigit : isDigitIn 8 (chr '0') := by decide
  refine ⟨v, rfl, ?_, List.takeWhile_cons_of_pos hdigit, ?_⟩
  · rw [effectiveBase, if_neg (not_not_intro hpfx), if_neg (not_not_intro hbase), if_pos hhead]
  · rw [List.takeWhile_cons_of_pos hdigit, readDigits, List.foldl_cons, digitValue_zero]
    rfl

theorem digits_settle (base : BitVec 32) (hp : p = pre ++ u ++ 0 :: post) :
    Settles (fun n => loop (strtolBody p (effectiveBase base u)) n
        (0, pre.length + if Octal base u then 1 else (prefixOf base u).length))
      (.ok (readDigits (effectiveBase base u) 0 ((u.drop (prefixOf base u).length).takeWhile
          (isDigitIn (effectiveBase base u))),
        (pre ++ prefixOf base u ++ (u.drop (prefixOf base u).length).takeWhile
          (isDigitIn (effectiveBase base u))).length)) := by
  by_cases hoct : Octal base u
  · have hpfx := hoct.1
    obtain ⟨v, hu, hbase, hdigits, hval⟩ := octal_digits hoct
    have hp' : p = (pre ++ [chr '0']) ++ v ++ 0 :: post := by simp [hp, hu]
    have hrun := digits_run 8 0 hp'
    rw [List.length_append, List.length_singleton] at hrun
    rw [if_pos hoct, hbase, hpfx, List.append_nil, List.length_nil, List.drop_zero, hval, hdigits]
    simpa using hrun
  · have hp' : p = (pre ++ prefixOf base u) ++ u.drop (prefixOf base u).length ++ 0 :: post := by
      rw [List.append_assoc pre, prefixOf_append]
      exact hp
    rw [if_neg hoct, ← List.length_append]
    exact digits_run _ 0 hp'

/-- The number is read to its end. Without digits the end is that of the blanks, the sign and the
prefix. -/
theorem strtol_run (base : BitVec 32) (s post : List Byte) :
    Settles (fun n => strtol n (s ++ 0 :: post) base)
      (.ok (if (numberOf base s).sign = [chr '-'] then
          -readDigits (numberOf base s).base 0 (numberOf base s).digits
        else readDigits (numberOf base s).base 0 (numberOf base s).digits,
        ((numberOf base s).lead ++ (numberOf base s).digits).length)) := by
  let t := s.dropWhile isBlank
  let u := t.drop (signOf t).length
  have ht : s ++ 0 :: post = s.takeWhile isBlank ++ t ++ 0 :: post := by
    rw [List.takeWhile_append_dropWhile]
  have hu : s ++ 0 :: post = (s.takeWhile isBlank ++ signOf t) ++ u ++ 0 :: post := by
    rw [List.append_assoc (s.takeWhile isBlank), signOf_append, ht]
  have hsign := sign_run ht
  have hpfx := prefix_run base hu
  rw [← List.length_append] at hsign
  have hdigits := digits_settle base hu
  unfold strtol
  refine (blanks_run rfl).bind ?_
  simp only [hsign, hpfx, ok_bind, decide_eq_true_eq]
  exact hdigits.bind (Settles.const _)

/-! ### When the end pointer is right -/

theorem readDigits_ofNat (base : BitVec 32) (v : ℕ) (ds : List Byte) :
    readDigits base (BitVec.ofNat 32 v) ds = BitVec.ofNat 32
      (ds.foldl (fun v c => v * base.toNat + ((digitValue c).getD 0).toNat) v) := by
  induction ds generalizing v with
  | nil => rfl
  | cons c ds ih =>
    have hstep : BitVec.ofNat 32 v * base + (digitValue c).getD 0 =
        BitVec.ofNat 32 (v * base.toNat + ((digitValue c).getD 0).toNat) := by
      rw [BitVec.ofNat_add, BitVec.ofNat_mul, BitVec.ofNat_toNat, BitVec.ofNat_toNat,
        BitVec.setWidth_eq, BitVec.setWidth_eq]
    rw [List.foldl_cons, ← ih, ← hstep]
    rfl

/-- The value is read modulo 2^32. -/
theorem value_eq (n : Number) :
    (if n.sign = [chr '-'] then -readDigits n.base 0 n.digits
      else readDigits n.base 0 n.digits) = BitVec.ofInt 32 n.value := by
  have hread := readDigits_ofNat n.base 0 n.digits
  have hzero : BitVec.ofNat 32 0 = 0 := rfl
  rw [hzero] at hread
  rw [hread, Number.value]
  split
  · rw [BitVec.ofInt_neg, BitVec.ofInt_natCast]
  · rw [BitVec.ofInt_natCast]

theorem numberOf_append (base : BitVec 32) (s : List Byte) :
    ∃ rest, (numberOf base s).lead ++ (numberOf base s).digits ++ rest = s := by
  let t := s.dropWhile isBlank
  let u := t.drop (signOf t).length
  let v := u.drop (prefixOf base u).length
  refine ⟨v.dropWhile (isDigitIn (effectiveBase base u)), ?_⟩
  have hv : v.takeWhile (isDigitIn (effectiveBase base u)) ++
      v.dropWhile (isDigitIn (effectiveBase base u)) = v := List.takeWhile_append_dropWhile
  have hu : prefixOf base u ++ v = u := prefixOf_append base u
  have ht : signOf t ++ u = t := signOf_append t
  have hs : s.takeWhile isBlank ++ t = s := List.takeWhile_append_dropWhile
  change s.takeWhile isBlank ++ signOf t ++ prefixOf base u ++
    v.takeWhile (isDigitIn (effectiveBase base u)) ++
      v.dropWhile (isDigitIn (effectiveBase base u)) = s
  rw [List.append_assoc, hv, List.append_assoc, hu, List.append_assoc, ht, hs]

/-- `strtol` gives this number of the string, and the place where it ends. -/
def ReadsNumber (base : BitVec 32) (s post : List Byte) : Prop :=
  Settles (fun n => strtol n (s ++ 0 :: post) base)
    (.ok (BitVec.ofInt 32 (numberOf base s).value, (numberOf base s).length)) ∧
  (numberOf base s).length ≤ s.length

/-- The end is the right one exactly when there are digits, or nothing stands where they are
looked for: blanks, a sign and a prefix are not given back. -/
theorem strtol_end_iff (base : BitVec 32) (s post : List Byte) :
    ReadsNumber base s post ↔ (numberOf base s).digits ≠ [] ∨ (numberOf base s).lead = [] := by
  have hrun := strtol_run base s post
  rw [value_eq] at hrun
  obtain ⟨rest, hrest⟩ := numberOf_append base s
  have hlen := congrArg List.length hrest
  rw [List.length_append] at hlen
  constructor
  · rintro ⟨hgood, -⟩
    by_cases hdigits : (numberOf base s).digits = []
    · have hend := (Prod.mk.inj (Except.ok.inj (hgood.unique hrun))).2
      rw [Number.length, if_pos hdigits, hdigits, List.append_nil] at hend
      exact .inr (List.length_eq_zero_iff.mp hend.symm)
    · exact .inl hdigits
  · intro h
    have hend : (numberOf base s).length =
        ((numberOf base s).lead ++ (numberOf base s).digits).length := by
      rw [Number.length]
      split
      · rename_i hdigits
        rw [hdigits, h.resolve_left (not_not_intro hdigits)]
        rfl
      · rfl
    rw [ReadsNumber, hend]
    exact ⟨hrun, by omega⟩

/-- A sign alone is skipped. -/
theorem strtol_end_after_sign : ¬ ∀ base s post,
    base = 0 ∨ base = 8 ∨ base = 10 ∨ base = 16 → 0 ∉ s → ReadsNumber base s post := by
  intro h
  obtain ⟨hgood, -⟩ := h 10 (lit "+") [] (by decide) (by decide)
  have hrun := strtol_run 10 (lit "+") []
  have hparts : numberOf 10 (lit "+") = ⟨[], lit "+", [], 10, []⟩ := by decide
  rw [hparts] at hgood hrun
  have hend := (Prod.mk.inj (Except.ok.inj (hgood.unique hrun))).2
  exact absurd hend (by decide)

end Jos
