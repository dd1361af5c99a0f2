import Jos.Inc.Types
import Jos.Prog.Bisection
import Jos.Prog.Bytes

/-! `kern/kdebug.c`: the search in the table of debugging symbols. -/
namespace Jos

open Prog

abbrev N_FUN : BitVec 32 := 0x24
abbrev N_SLINE : BitVec 32 := 0x44
abbrev N_SO : BitVec 32 := 0x64
abbrev N_SOL : BitVec 32 := 0x84
abbrev N_PSYM : BitVec 32 := 0xA0

structure Stab where
  nStrx : BitVec 32
  nType : Byte
  nOther : Byte
  nDesc : BitVec 16
  nValue : BitVec 32
deriving DecidableEq, Repr

/-- `stabs[k]`, which must lie inside the table. -/
def stabAt (stabs : List Stab) (k : Int) : Res Stab :=
  if 0 ≤ k then
    match stabs[k.toNat]? with
    | some e => .ok e
    | none => .error .fault
  else .error .fault

/-- The locals of `stab_binsearch` and what its two pointers point to. -/
structure StabSearch where
  l : Int
  r : Int
  anyMatches : Bool
  regionLeft : Int
  regionRight : Int
  addr : BitVec 32

section

variable (read : Int → Res Stab)

/-- `while (m >= l && stabs[m].n_type != type) m--`, where `read k` reads `stabs[k]`. -/
def slideBodyBy (type : BitVec 32) (l : Int) (m : Int) : Res (Int ⊕ Int) :=
  if l ≤ m then do
    let e ← read m
    if e.nType.setWidth 32 ≠ type then pure (.inl (m - 1)) else pure (.inr m)
  else pure (.inr m)

def binsearchBodyBy (type : BitVec 32) (fuel : ℕ) (s : StabSearch) :
    Res (StabSearch ⊕ StabSearch) :=
  if s.l ≤ s.r then do
    let trueM := (s.l + s.r).tdiv 2
    let m ← loop (slideBodyBy read type s.l) fuel trueM
    if m < s.l then pure (.inl { s with l := trueM + 1 })
    else do
      let e ← read m
      let s := { s with anyMatches := true }
      if e.nValue < s.addr then pure (.inl { s with regionLeft := m, l := trueM + 1 })
      else if s.addr < e.nValue then pure (.inl { s with regionRight := m - 1, r := m - 1 })
      else pure (.inl { s with regionLeft := m, l := m, addr := s.addr + 1 })
  else pure (.inr s)

/-- `for (l = *region_right; l > *region_left && stabs[l].n_type != type; l--)`. -/
def edgeBodyBy (type : BitVec 32) (regionLeft : Int) (l : Int) : Res (Int ⊕ Int) :=
  if regionLeft < l then do
    let e ← read l
    if e.nType.setWidth 32 ≠ type then pure (.inl (l - 1)) else pure (.inr l)
  else pure (.inr l)

/-- What `*region_left` and `*region_right` are in the end. -/
def stabBinsearchBy (fuel : ℕ) (regionLeft regionRight : Int) (type addr : BitVec 32) :
    Res (Int × Int) := do
  let s ← loop (binsearchBodyBy read type fuel) fuel
    ⟨regionLeft, regionRight, false, regionLeft, regionRight, addr⟩
  if ¬ s.anyMatches then pure (s.regionLeft, s.regionLeft - 1)
  else do
    let l ← loop (edgeBodyBy read type s.regionLeft) fuel s.regionRight
    pure (l, s.regionRight)

end

abbrev slideBody (stabs : List Stab) := slideBodyBy (stabAt stabs)

abbrev binsearchBody (stabs : List Stab) := binsearchBodyBy (stabAt stabs)

abbrev edgeBody (stabs : List Stab) := edgeBodyBy (stabAt stabs)

/-- The search in the table `stabs`. -/
def stabBinsearch (fuel : ℕ) (stabs : List Stab) (regionLeft regionRight : Int)
    (type addr : BitVec 32) : Res (Int × Int) :=
  stabBinsearchBy (stabAt stabs) fuel regionLeft regionRight type addr

variable {stabs : List Stab} {type addr : BitVec 32} {l m k : Int} {e : Stab}

/-! ### The marked places -/

/-- The entry at `k` has the type that is looked for. -/
def OfType (stabs : List Stab) (type : BitVec 32) (k : Int) : Prop :=
  ∃ e, stabAt stabs k = .ok e ∧ e.nType.setWidth 32 = type

/-- The value of the entry at `k`. -/
def valueAt (stabs : List Stab) (k : Int) : ℕ :=
  match stabAt stabs k with
  | .ok e => e.nValue.toNat
  | .error _ => 0

/-- `addr++`. -/
def bump (a : ℕ) : ℕ := (a + 1) % 2 ^ 32

theorem stabAt_of_lt (stabs : List Stab) (h0 : 0 ≤ k) (hk : k < stabs.length) :
    ∃ e, stabAt stabs k = .ok e := by
  have hlt : k.toNat < stabs.length := by omega
  refine ⟨stabs[k.toNat], ?_⟩
  rw [stabAt, if_pos h0, List.getElem?_eq_getElem hlt]

theorem getElem?_of_stabAt (h : stabAt stabs k = .ok e) : 0 ≤ k ∧ stabs[k.toNat]? = some e := by
  unfold stabAt at h
  split at h
  · rename_i hk
    refine ⟨hk, ?_⟩
    cases hget : stabs[k.toNat]? with
    | none =>
      rw [hget] at h
      cases h
    | some e' =>
      rw [hget] at h
      exact congrArg some (Except.ok.inj h)
  · cases h

theorem mem_of_stabAt (h : stabAt stabs k = .ok e) : e ∈ stabs :=
  List.mem_of_getElem? (getElem?_of_stabAt h).2

theorem ofType_iff (h : stabAt stabs k = .ok e) :
    OfType stabs type k ↔ e.nType.setWidth 32 = type := by
  constructor
  · rintro ⟨e', he, htype⟩
    rwa [Except.ok.inj (h.symm.trans he)]
  · intro htype
    exact ⟨e, h, htype⟩

theorem valueAt_eq (h : stabAt stabs k = .ok e) : valueAt stabs k = e.nValue.toNat := by
  rw [valueAt, h]

/-! ### The loops -/

/-- The loop slides down to the nearest entry of the type, or below `l`. -/
theorem slide_settles (type : BitVec 32) (h0 : 0 ≤ l) (hlm : l ≤ m + 1) (hm : m < stabs.length) :
    ∃ x, Settles (fun n => loop (slideBody stabs type l) n m) (.ok x) ∧ l - 1 ≤ x ∧ x ≤ m ∧
      (l ≤ x → OfType stabs type x) ∧ ∀ k, x < k → k ≤ m → ¬ OfType stabs type k := by
  obtain ⟨n, hn⟩ : ∃ n : ℕ, m - l + 1 = n := ⟨(m - l + 1).toNat, by omega⟩
  induction n generalizing m with
  | zero =>
    refine ⟨m, .loop_exit (if_neg (by omega)), by omega, Int.le_refl m, ?_, ?_⟩
    · omega
    · intro k hk hk'
      omega
  | succ n ih =>
    have hle : l ≤ m := by omega
    obtain ⟨e, he⟩ := stabAt_of_lt stabs (k := m) (by omega) hm
    have hbody : slideBody stabs type l m =
        if e.nType.setWidth 32 ≠ type then .ok (.inl (m - 1)) else .ok (.inr m) := by
      rw [slideBody, slideBodyBy, if_pos hle, he]
      rfl
    by_cases htype : e.nType.setWidth 32 = type
    · rw [if_neg (not_not_intro htype)] at hbody
      refine ⟨m, .loop_exit hbody, by omega, Int.le_refl m, ?_, ?_⟩
      · intro _
        exact (ofType_iff he).mpr htype
      · intro k hk hk'
        omega
    · rw [if_pos htype] at hbody
      obtain ⟨x, hx, hge, hle', hT, hno⟩ := ih (m := m - 1) (by omega) (by omega) (by omega)
      refine ⟨x, .loop_next hbody hx, hge, by omega, hT, ?_⟩
      intro k hk hk'
      rcases Int.lt_or_eq_of_le hk' with hlt | rfl
      · exact hno k hk (by omega)
      · exact mt (ofType_iff he).mp htype

/-- The bounds, the bracket and the target that the locals stand for. -/
def StabSearch.bisection (s : StabSearch) : Bisection :=
  ⟨s.l, s.r, s.regionLeft, s.regionRight, s.anyMatches, s.addr.toNat⟩

variable {s t : StabSearch} {L R : Int}

/-- One pass of the outer loop. -/
theorem binsearchBody_settles (h0 : 0 ≤ s.l) (hle : s.l ≤ s.r) (hr : s.r < stabs.length) :
    ∃ t, Settles (fun n => binsearchBody stabs type n s) (.ok (.inl t)) ∧
      Pass (OfType stabs type) (valueAt stabs) bump s.bisection t.bisection := by
  have hmid : (s.l + s.r).tdiv 2 = (s.l + s.r) / 2 := Int.tdiv_eq_ediv_of_nonneg (by omega)
  obtain ⟨m, hslide, hge, hmle, hT, hno⟩ :=
    slide_settles type h0 (by omega : s.l ≤ (s.l + s.r) / 2 + 1)
      (by omega : (s.l + s.r) / 2 < stabs.length)
  have hbody : ∀ n, binsearchBody stabs type n s =
      loop (slideBody stabs type s.l) n ((s.l + s.r) / 2) >>= fun m =>
        if m < s.l then .ok (.inl { s with l := (s.l + s.r) / 2 + 1 })
        else stabAt stabs m >>= fun e =>
          let s := { s with anyMatches := true }
          if e.nValue < s.addr then .ok (.inl { s with regionLeft := m, l := (s.l + s.r) / 2 + 1 })
          else if s.addr < e.nValue then .ok (.inl { s with regionRight := m - 1, r := m - 1 })
          else .ok (.inl { s with regionLeft := m, l := m, addr := s.addr + 1 }) := by
    intro n
    rw [binsearchBody, binsearchBodyBy, if_pos hle, hmid]
    rfl
  rcases Int.lt_or_le m s.l with hmiss | hin
  · refine ⟨_, (hslide.bind ((Settles.const _).congr fun n => if_pos hmiss)).congr hbody, ?_⟩
    refine .skip hle fun k hk hkm => hno k (by change s.l ≤ k at hk; omega) hkm
  · obtain ⟨e, he⟩ := stabAt_of_lt stabs (k := m) (by omega) (by omega)
    have hprobe : Probe (OfType stabs type) s.l s.r m := ⟨hle, hin, hmle, hT hin, hno⟩
    have hval := valueAt_eq he
    have hrest : ∀ z, (let s := { s with anyMatches := true }
          if e.nValue < s.addr then
            (.ok (.inl { s with regionLeft := m, l := (s.l + s.r) / 2 + 1 }) : Res _)
          else if s.addr < e.nValue then .ok (.inl { s with regionRight := m - 1, r := m - 1 })
          else .ok (.inl { s with regionLeft := m, l := m, addr := s.addr + 1 })) = z →
        Settles (fun n => binsearchBody stabs type n s) z := by
      rintro z rfl
      refine (hslide.bind ((Settles.const _).congr fun n => ?_)).congr hbody
      rw [if_neg (Int.not_lt.mpr hin), he]
      rfl
    rcases Nat.lt_trichotomy e.nValue.toNat s.addr.toNat with hlt | heq | hgt
    · exact ⟨_, hrest _ (if_pos hlt), .below hprobe (by rwa [hval])⟩
    · have hlt : ¬ e.nValue < s.addr := by bv_omega
      have hgt : ¬ s.addr < e.nValue := by bv_omega
      have htarget : (s.addr + 1).toNat = bump s.addr.toNat := by simp [bump]
      refine ⟨_, hrest _ ((if_neg hlt).trans (if_neg hgt)), ?_⟩
      have hhit : Pass (OfType stabs type) (valueAt stabs) bump s.bisection
          ⟨m, s.r, m, s.regionRight, true, bump s.addr.toNat⟩ := .hit hprobe (hval.trans heq)
      change Pass (OfType stabs type) (valueAt stabs) bump s.bisection
        ⟨m, s.r, m, s.regionRight, true, (s.addr + 1).toNat⟩
      rwa [htarget]
    · have hlt : ¬ e.nValue < s.addr := by bv_omega
      exact ⟨_, hrest _ ((if_neg hlt).trans (if_pos hgt)), .above hprobe (by rwa [hval])⟩

theorem bump_ne (a : ℕ) : bump a ≠ a := by
  unfold bump
  omega

/-- The outer loop makes passes until its range is empty. -/
theorem binsearch_settles (h0 : 0 ≤ s.l) (hr : s.r < stabs.length) :
    ∃ t, LoopSettles (binsearchBody stabs type) s (.ok t) ∧
      Passes (OfType stabs type) (valueAt stabs) bump s.bisection t.bisection := by
  obtain ⟨n, hn⟩ := exists_fits (OfType stabs type) (valueAt stabs) s.bisection
  induction n generalizing s with
  | zero =>
    have hend : s.r < s.l := hn.done
    exact ⟨s, .exit ((Settles.const _).congr fun n => if_neg (by omega)), .refl, hend⟩
  | succ n ih =>
    rcases Int.lt_or_le s.r s.l with hend | hle
    · exact ⟨s, .exit ((Settles.const _).congr fun n => if_neg (by omega)), .refl, hend⟩
    · obtain ⟨u, hu, hpass⟩ := binsearchBody_settles h0 hle hr
      have hwithin : s.l ≤ u.l ∧ u.r ≤ s.r := hpass.within
      obtain ⟨t, ht, hrun, hend⟩ := ih (by omega) (by omega) (hpass.fits bump_ne hn)
      exact ⟨t, .next hu ht, .head hpass hrun, hend⟩

/-- The last loop, when the bracket lies in the table. -/
theorem edge_settles {left right : Int} (type : BitVec 32) (h0 : -1 ≤ left)
    (hr : right < stabs.length) :
    ∃ x, Settles (fun n => loop (edgeBody stabs type left) n right) (.ok x) ∧
      Edge (OfType stabs type) left right x := by
  obtain ⟨n, hn⟩ : ∃ n : ℕ, (right - left).toNat = n := ⟨_, rfl⟩
  induction n generalizing right with
  | zero =>
    have hstop : ¬ left < right := by omega
    refine ⟨right, .loop_exit (if_neg hstop), by omega, Int.le_refl _, .inl (by omega), ?_⟩
    intro k hk hk'
    omega
  | succ n ih =>
    have hlt : left < right := by omega
    obtain ⟨e, he⟩ := stabAt_of_lt stabs (k := right) (by omega) hr
    have hbody : edgeBody stabs type left right =
        if e.nType.setWidth 32 ≠ type then .ok (.inl (right - 1)) else .ok (.inr right) := by
      rw [edgeBody, edgeBodyBy, if_pos hlt, he]
      rfl
    by_cases htype : e.nType.setWidth 32 = type
    · rw [if_neg (not_not_intro htype)] at hbody
      refine ⟨right, .loop_exit hbody, by omega, Int.le_refl _,
        .inr ((ofType_iff he).mpr htype), ?_⟩
      intro k hk hk'
      omega
    · rw [if_pos htype] at hbody
      have hr' : right - 1 < stabs.length := by omega
      obtain ⟨x, hx, hge, hle, hmark, hlast⟩ := ih hr' (by omega)
      refine ⟨x, .loop_next hbody hx, by omega, by omega, ?_, ?_⟩
      · rcases hmark with hmin | hT
        · exact .inl (by omega)
        · exact .inr hT
      · intro k hk hk'
        rcases Int.lt_or_eq_of_le hk' with hk'' | rfl
        · exact hlast k hk (by omega)
        · exact mt (ofType_iff he).mp htype

/-- The whole function, seen as a search among the entries of the type. -/
theorem stabBinsearch_settles (h0 : 0 ≤ L) (hR : R < stabs.length) (type addr : BitVec 32) :
    ∃ x y s, Settles (fun n => stabBinsearch n stabs L R type addr) (.ok (x, y)) ∧
      Passes (OfType stabs type) (valueAt stabs) bump (.start L R addr.toNat) s ∧
      Outcome (OfType stabs type) s x y := by
  obtain ⟨t, hrun, hpasses⟩ := binsearch_settles (s := ⟨L, R, false, L, R, addr⟩) h0 hR
  cases hf : t.anyMatches with
  | false =>
    refine ⟨t.regionLeft, t.regionLeft - 1, t.bisection, ?_, hpasses, .missed hf⟩
    refine hrun.settles.bind ((Settles.const _).congr fun n => ?_)
    rw [hf]
    rfl
  | true =>
    have hstart : t.bisection.found = true := hf
    obtain ⟨k, hk, hkR, -⟩ := (Passes.explored hpasses.1 explored_start).found hstart
    have hb := Passes.bounds hpasses.1 (bounds_start (by omega))
    have hleft : L ≤ t.regionLeft := hb.left_ge
    have hright : t.regionRight = t.r := hb.right_eq
    have hr : t.r ≤ R := hb.r_le
    obtain ⟨x, hx, hedge⟩ := edge_settles type (by omega : -1 ≤ t.regionLeft)
      (by omega : t.regionRight < stabs.length)
    refine ⟨x, t.regionRight, t.bisection, ?_, hpasses, .bracket hf hedge⟩
    refine hrun.settles.bind ((hx.view fun l => (l, t.regionRight)).congr fun n => ?_)
    rw [hf]
    rfl

/-- More fuel changes nothing once the search has ended. -/
theorem stabBinsearch_approx {n m : ℕ} (hnm : n ≤ m) (stabs : List Stab) (L R : Int)
    (type addr : BitVec 32) :
    Approx (stabBinsearch n stabs L R type addr) (stabBinsearch m stabs L R type addr) := by
  have hslide : ∀ l i, Approx (loop (slideBody stabs type l) n i)
      (loop (slideBody stabs type l) m i) :=
    fun l i => loop_approx (fun _ => .refl _) hnm i
  have hbody : ∀ s, Approx (binsearchBody stabs type n s) (binsearchBody stabs type m s) := by
    intro s
    unfold binsearchBody binsearchBodyBy
    split
    · exact (hslide _ _).bind fun _ => .refl _
    · exact .refl _
  refine (loop_approx hbody hnm _).bind fun s => ?_
  split
  · exact .refl _
  · exact (loop_approx (fun _ => .refl _) hnm _).bind fun _ => .refl _

theorem stabBinsearch_of_eq {n : ℕ} {p : Int × Int}
    (h : stabBinsearch n stabs L R type addr = .ok p) :
    Settles (fun n => stabBinsearch n stabs L R type addr) (.ok p) := by
  refine ⟨n, fun m hnm => ?_⟩
  exact ((stabBinsearch_approx hnm stabs L R type addr).eq_of_ne (by simp [h])).trans h

end Jos
