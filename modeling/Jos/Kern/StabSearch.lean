import Jos.Kern.Kdebug
import Mathlib.Data.Set.Basic
import Mathlib.Order.Bounds.Basic

/-! What `stab_binsearch` finds in a table that is sorted by address. -/
namespace Jos

open Prog Relation

/-- The entries of a type in a range. -/
def entries (stabs : List Stab) (type : BitVec 32) (L R : Int) : Set Int :=
  {k | L ≤ k ∧ k ≤ R ∧ OfType stabs type k}

/-- `y` comes just before the first element of `S`, or is `R` when there is none. -/
def EndsBefore (S : Set Int) (R y : Int) : Prop := IsLeast S (y + 1) ∨ S = ∅ ∧ y = R

/-- The result of the search, whatever the table holds. -/
def Finds (stabs : List Stab) (L R : Int) (type addr : BitVec 32) (x y : Int) : Prop :=
  Settles (fun n => stabBinsearch n stabs L R type addr) (.ok (x, y))

variable {stabs : List Stab} {type addr : BitVec 32} {L R x y : Int}

theorem endsBefore {S : Set Int} (hS : ∀ k ∈ S, y < k ∧ k ≤ R) (hnext : y = R ∨ y + 1 ∈ S) :
    EndsBefore S R y := by
  rcases hnext with rfl | hmem
  · right
    refine ⟨Set.eq_empty_of_forall_notMem ?_, rfl⟩
    intro k hk
    have := hS k hk
    omega
  · left
    refine ⟨hmem, ?_⟩
    intro k hk
    exact (hS k hk).1

/-- An address inside a region: the search returns the region. -/
theorem stabBinsearch_inside (stabs : List Stab) (L R : Int) (type addr : BitVec 32) (h0 : 0 ≤ L)
    (hR : R < stabs.length) (hasc : Ascending (OfType stabs type) (valueAt stabs) L R)
    (hne : ∀ k ∈ entries stabs type L R, valueAt stabs k ≠ addr.toNat)
    (hex : ∃ k ∈ entries stabs type L R, valueAt stabs k < addr.toNat) :
    ∃ x y, Finds stabs L R type addr x y ∧
      IsGreatest {k ∈ entries stabs type L R | valueAt stabs k < addr.toNat} x ∧
      EndsBefore {k ∈ entries stabs type L R | addr.toNat < valueAt stabs k} R y := by
  obtain ⟨x, y, s, hrun, hpasses, hout⟩ := stabBinsearch_settles h0 hR type addr
  obtain ⟨k₀, ⟨hk₀, hk₀R, hT₀⟩, hlt₀⟩ := hex
  have hmiss : ∀ k, L ≤ k → k ≤ R → OfType stabs type k → valueAt stabs k ≠ addr.toNat :=
    fun k hk hkR hT => hne k ⟨hk, hkR, hT⟩
  obtain ⟨hb, hbr, htarget⟩ := Passes.brackets hpasses.1 bump_ne (bounds_start (by omega))
    brackets_start hasc hmiss
  have htarget : s.target = addr.toNat := htarget
  have hresult := hbr.outcome hb hpasses.2 ⟨k₀, hk₀, hk₀R, hT₀, by rwa [htarget]⟩ hout
  rw [htarget] at hresult
  obtain ⟨⟨hLx, hxy, hTx, hltx, hnone⟩, hnext, hyR, habove⟩ := hresult
  refine ⟨x, y, hrun, ⟨⟨⟨hLx, by omega, hTx⟩, hltx⟩, ?_⟩, ?_⟩
  · rintro k ⟨⟨hk, hkR, hT⟩, hlt⟩
    by_contra hgt
    rcases Int.lt_or_le y k with hyk | hky
    · have := habove k hyk hkR hT
      omega
    · exact hnone k (by omega) hky hT
  · have hS : ∀ k ∈ {k ∈ entries stabs type L R | addr.toNat < valueAt stabs k}, y < k ∧ k ≤ R := by
      rintro k ⟨⟨hk, hkR, hT⟩, hgt⟩
      refine ⟨?_, hkR⟩
      by_contra hky
      rcases Int.lt_or_le x k with hxk | hkx
      · exact hnone k hxk (by omega) hT
      · have := hasc k x hk hkx (by omega) hT hTx
        omega
    rcases Int.lt_or_eq_of_le hyR with hlt | heq
    · have hT : OfType stabs type (y + 1) := hnext.resolve_left (by omega)
      have hgt := habove (y + 1) (by omega) (by omega) hT
      exact endsBefore hS (.inr ⟨⟨by omega, by omega, hT⟩, hgt⟩)
    · exact endsBefore hS (.inl heq)

/-- An entry that has only a type and a value. -/
def stab (type value : BitVec 32) : Stab := ⟨0, type.setWidth 8, 0, 0, value⟩

theorem ascending_pair {a b : BitVec 32} (h : a < b) :
    StrictlyAscending (OfType [stab N_FUN a, stab N_FUN b] N_FUN)
      (valueAt [stab N_FUN a, stab N_FUN b]) 0 1 := by
  intro i j hi hij hj _ _
  obtain rfl : i = 0 := by omega
  obtain rfl : j = 1 := by omega
  exact h

/-- The address 15 lies between two functions. -/
theorem stabBinsearch_inside_pair :
    ∃ x y, Finds [stab N_FUN 10, stab N_FUN 20] 0 1 N_FUN 15 x y ∧
      IsGreatest {k ∈ entries [stab N_FUN 10, stab N_FUN 20] N_FUN 0 1 |
        valueAt [stab N_FUN 10, stab N_FUN 20] k < 15} x ∧
      EndsBefore {k ∈ entries [stab N_FUN 10, stab N_FUN 20] N_FUN 0 1 |
        15 < valueAt [stab N_FUN 10, stab N_FUN 20] k} 1 y := by
  refine stabBinsearch_inside [stab N_FUN 10, stab N_FUN 20] 0 1 N_FUN 15 (by decide) (by decide)
    (ascending_pair (by decide)).ascending ?_ ⟨0, ⟨by decide, by decide, _, rfl, rfl⟩, by decide⟩
  rintro k ⟨hk, hk1, -⟩
  obtain rfl | rfl : k = 0 ∨ k = 1 := by omega
  · decide
  · decide

/-! ### Nothing found -/

theorem entries_eq_empty : entries stabs type L R = ∅ ↔
    ∀ k, L ≤ k → k ≤ R → ¬ OfType stabs type k := by
  rw [Set.eq_empty_iff_forall_notMem]
  constructor
  · intro h k hk hkR hT
    exact h k ⟨hk, hkR, hT⟩
  · rintro h k ⟨hk, hkR, hT⟩
    exact h k hk hkR hT

theorem Finds.empty_iff (h : Finds stabs L R type addr x y) (h0 : 0 ≤ L) (hR : R < stabs.length) :
    y < x ↔ entries stabs type L R = ∅ := by
  obtain ⟨x', y', s, hrun, hpasses, hout⟩ := stabBinsearch_settles h0 hR type addr
  obtain ⟨rfl, rfl⟩ := Prod.mk.inj (Except.ok.inj (h.unique hrun))
  rw [entries_eq_empty]
  exact hout.empty_iff (Passes.explored hpasses.1 explored_start) hpasses.2

/-- The search reports that nothing was found exactly when the range has no entry of the type. -/
theorem stabBinsearch_empty_iff (stabs : List Stab) (L R : Int) (type addr : BitVec 32)
    (h0 : 0 ≤ L) (hR : R < stabs.length) :
    (∃ x y, Finds stabs L R type addr x y ∧ y < x) ↔ entries stabs type L R = ∅ := by
  constructor
  · rintro ⟨x, y, hfinds, hlt⟩
    exact (hfinds.empty_iff h0 hR).mp hlt
  · intro hempty
    obtain ⟨x, y, s, hrun, -, -⟩ := stabBinsearch_settles h0 hR type addr
    have hfinds : Finds stabs L R type addr x y := hrun
    exact ⟨x, y, hrun, (hfinds.empty_iff h0 hR).mpr hempty⟩

/-- No function in the table. -/
theorem stabBinsearch_empty_iff_other :
    (∃ x y, Finds [stab N_SO 0] 0 0 N_FUN 5 x y ∧ y < x) ↔ entries [stab N_SO 0] N_FUN 0 0 = ∅ :=
  stabBinsearch_empty_iff [stab N_SO 0] 0 0 N_FUN 5 (by decide) (by decide)

/-- The only function lies above the address, and the entry of the file is returned. -/
theorem stabBinsearch_accepts_below : ¬ ∀ stabs (L R : Int) type addr, 0 ≤ L → R < stabs.length →
    Ascending (OfType stabs type) (valueAt stabs) L R →
    (∀ k ∈ entries stabs type L R, addr.toNat < valueAt stabs k) →
    ∃ x y, Finds stabs L R type addr x y ∧ y < x := by
  intro h
  have hfun : ∀ k, 0 ≤ k → k ≤ 1 → OfType [stab N_SO 0, stab N_FUN 10] N_FUN k → k = 1 := by
    intro k hk hk1 hT
    obtain rfl | rfl : k = 0 ∨ k = 1 := by omega
    · exact absurd ((ofType_iff rfl).mp hT) (by decide)
    · rfl
  have hasc : Ascending (OfType [stab N_SO 0, stab N_FUN 10] N_FUN)
      (valueAt [stab N_SO 0, stab N_FUN 10]) 0 1 := by
    intro i j hi hij hj hTi hTj
    obtain rfl := hfun i hi (by omega) hTi
    obtain rfl := hfun j (by omega) hj hTj
    exact Nat.le_refl _
  have habove : ∀ k ∈ entries [stab N_SO 0, stab N_FUN 10] N_FUN 0 1,
      (5 : BitVec 32).toNat < valueAt [stab N_SO 0, stab N_FUN 10] k := by
    rintro k ⟨hk, hk1, hT⟩
    obtain rfl := hfun k hk hk1 hT
    decide
  have hrun : Finds [stab N_SO 0, stab N_FUN 10] 0 1 N_FUN 5 0 0 :=
    stabBinsearch_of_eq (n := 5) (by decide)
  obtain ⟨x, y, hfinds, hlt⟩ := h _ 0 1 N_FUN 5 (by decide) (by decide) hasc habove
  obtain ⟨rfl, rfl⟩ := Prod.mk.inj (Except.ok.inj (hfinds.unique hrun))
  omega

/-! ### An exact hit -/

section

variable {T : Int → Prop} {v : Int → ℕ} {s u : Bisection} {k k₂ : Int}

/-- What the hit at `k` leaves is the region of `k`, unless the next value is the next target. -/
theorem hit_region (hrun : ReflTransGen (Pass T v bump) (u.after bump k) s) (hend : s.r < s.l)
    (hout : Outcome T s x y) (hu : Bounds T L R u) (hbr : Brackets T v L R u)
    (hv : StrictlyAscending T v L R) (hhit : HitAt T v k u) (hmax : u.target < 2 ^ 32 - 1)
    (hmiss : ∀ j, k ≤ j → j ≤ u.r → T j → v j ≠ u.target + 1) :
    x = k ∧ EndsBefore {j | k < j ∧ j ≤ R ∧ T j} R y := by
  have hbump : (u.after bump k).target = u.target + 1 := Nat.mod_eq_of_lt (by omega)
  have hl := hu.l_ge
  have hr := hu.r_le
  obtain ⟨⟨hle, hge, hmid, hTk, -⟩, hval⟩ := id hhit
  have hv' : StrictlyAscending T v k u.r := fun i j hi hij hj => hv i j (by omega) hij (by omega)
  obtain ⟨hb, hs, htarget⟩ := Passes.brackets hrun bump_ne (hhit.bounds hu) brackets_after
    hv'.ascending (by rwa [hbump])
  rw [hbump] at htarget
  obtain ⟨⟨hkx, hxy, hTx, hltx, hnone⟩, hnext, hyr, -⟩ :=
    hs.outcome hb hend ⟨k, Int.le_refl k, by omega, hTk, by omega⟩ hout
  have hx : x = k := by
    by_contra hne
    have := hv' k x (Int.le_refl k) (by omega) (by omega) hTk hTx
    omega
  refine ⟨hx, endsBefore ?_ ?_⟩
  · rintro j ⟨hj, hjR, hTj⟩
    refine ⟨?_, hjR⟩
    by_contra hjy
    exact hnone j (by omega) (by omega) hTj
  · rcases Int.lt_or_eq_of_le hyr with hlt | rfl
    · exact .inr ⟨by omega, by omega, hnext.resolve_left (by omega)⟩
    · rcases hbr.right_next with hR | hT
      · exact .inl hR
      · rcases Int.lt_or_eq_of_le hr with hlt | heq
        · exact .inr ⟨by omega, by omega, hT⟩
        · exact .inl heq

/-- The target has wrapped to 0 at the last entry: the search steps back from it. -/
theorem wrapped_region (hrun : ReflTransGen (Pass T v bump) u s) (hend : s.r < s.l)
    (hl : u.l = k) (hr : k ≤ u.r) (hT : T k) (hpos : u.target < v k)
    (hlast : ∀ j, k < j → j ≤ u.r → ¬ T j) :
    s.left = u.left ∧ s.right = k - 1 := by
  rcases ReflTransGen.cases_head hrun with rfl | ⟨w, hpass, hrest⟩
  · omega
  have honly : ∀ m, Probe T u.l u.r m → m = k := by
    rintro m ⟨hle, hge, hmid, hTm, -⟩
    by_contra hne
    exact hlast m (by omega) (by omega) hTm
  cases hpass with
  | skip hle hno => exact absurd hT (hno k (by omega) (by omega))
  | below hm hlt =>
    obtain rfl := honly _ hm
    omega
  | above hm _ =>
    obtain rfl := honly _ hm
    obtain rfl := Passes.eq_of_lt hrest (by dsimp only; omega)
    exact ⟨rfl, rfl⟩
  | hit hm heq =>
    obtain rfl := honly _ hm
    omega

/-- The next entry has the next value and is hit as well. -/
theorem hit_again (hrun : ReflTransGen (Pass T v bump) (u.after bump k) s) (hend : s.r < s.l)
    (hu : Bounds T L R u) (hv : StrictlyAscending T v L R) (hhit : HitAt T v k u)
    (hmax : u.target < 2 ^ 32 - 1) (hnext : Next T k k₂) (hr : k₂ ≤ u.r)
    (hval : v k₂ = u.target + 1) :
    ∃ w, HitAt T v k₂ w ∧ w.target = u.target + 1 ∧ w.r ≤ u.r ∧ w.right = w.r ∧
      ReflTransGen (Pass T v bump) (w.after bump k₂) s := by
  have hbump : (u.after bump k).target = u.target + 1 := Nat.mod_eq_of_lt (by omega)
  have hl := hu.l_ge
  have hrR := hu.r_le
  have hge := hhit.probe.ge
  have hv' : StrictlyAscending T v k u.r := fun i j hi hij hj => hv i j (by omega) hij (by omega)
  obtain ⟨w, hbw, -, htarget, hhit', hrun', -⟩ :=
    Passes.reaches_hit hrun hend bump_ne (hhit.bounds hu) brackets_after hv'
      (Int.le_of_lt hnext.lt) hr hnext.marked (hval.trans hbump.symm)
  exact ⟨w, hhit', htarget.trans hbump, hbw.r_le, hbw.right_eq, hrun'⟩

/-- At the top of the addresses the target wraps, and the search steps back from the next entry. -/
theorem hit_wraps (hrun : ReflTransGen (Pass T v bump) (u.after bump k) s) (hend : s.r < s.l)
    (hedge : Edge T s.left s.right x) (hv : StrictlyAscending T v L R) (hL : L ≤ k) (hR : u.r ≤ R)
    (hbound : ∀ j, v j < 2 ^ 32) (hhit : HitAt T v k u) (htop : u.target = 2 ^ 32 - 1) :
    x = k - 1 ∧ s.right = k - 1 := by
  have hval := hhit.value
  have hT := hhit.probe.marked
  have hkr : k ≤ u.r := by
    have := hhit.probe.le
    have := hhit.probe.le_right
    omega
  have htarget : (u.after bump k).target = 0 := by
    change bump u.target = 0
    rw [htop]
    rfl
  have hlast : ∀ j, k < j → j ≤ u.r → ¬ T j := by
    intro j hj hjr hTj
    have hlt := hv k j hL hj (by omega) hT hTj
    have := hbound j
    omega
  have hl : (u.after bump k).l = k := rfl
  obtain ⟨hleft, hright⟩ := wrapped_region hrun hend hl hkr hT (by omega) hlast
  have hleft' : s.left = k := hleft
  have hx := hedge.eq_of_lt (by omega)
  exact ⟨by omega, hright⟩

/-- Elsewhere the bracket does not get in front of the next entry again. -/
theorem hit_beyond (hrun : ReflTransGen (Pass T v bump) (u.after bump k) s)
    (hedge : Edge T s.left s.right x) (hright : u.right = u.r) (hhit : HitAt T v k u)
    (hmax : u.target < 2 ^ 32 - 1) : k ≤ x := by
  have htarget : (u.after bump k).target = u.target + 1 := Nat.mod_eq_of_lt (by omega)
  have hval := hhit.value
  have hkr : k ≤ u.r := by
    have := hhit.probe.le
    have := hhit.probe.le_right
    omega
  have hbeyond : Beyond v k (u.after bump k) :=
    ⟨Int.le_refl k, Int.le_refl k, hkr, hright, .inl (by omega)⟩
  exact hedge.ge_of_beyond (Passes.beyond hrun hbeyond)

/-- Then the bracket leaves the entry that was looked for, except at the top of the addresses. -/
theorem hit_lost (hrun : ReflTransGen (Pass T v bump) (u.after bump k) s) (hend : s.r < s.l)
    (hout : Outcome T s x y) (hu : Bounds T L R u) (hv : StrictlyAscending T v L R)
    (hbound : ∀ j, v j < 2 ^ 32) (hhit : HitAt T v k u) (hmax : u.target < 2 ^ 32 - 1)
    (hnext : Next T k k₂) (hr : k₂ ≤ u.r) (hval : v k₂ = u.target + 1) :
    (x = k ↔ u.target + 1 = 2 ^ 32 - 1 ∧ k₂ = k + 1) ∧ (x = k → y + 1 = k₂) := by
  obtain ⟨w, hhit₂, htw, hwr, hwright, hrun₂⟩ :=
    hit_again hrun hend hu hv hhit hmax hnext hr hval
  have hfound : s.found = true := Passes.found hrun₂ rfl
  have hl := hu.l_ge
  have hrR := hu.r_le
  have hge := hhit.probe.ge
  have hkk := hnext.lt
  cases hout with
  | missed hf => exact absurd (hfound.symm.trans hf) (by decide)
  | bracket _ hedge =>
    by_cases htop : u.target + 1 = 2 ^ 32 - 1
    · obtain ⟨hx, hright⟩ := hit_wraps hrun₂ hend hedge hv (by omega) (by omega) hbound hhit₂
        (htw.trans htop)
      omega
    · have hxge := hit_beyond hrun₂ hedge hwright hhit₂ (by omega)
      omega

end

theorem valueAt_lt (stabs : List Stab) (k : Int) : valueAt stabs k < 2 ^ 32 := by
  unfold valueAt
  split
  · exact BitVec.isLt _
  · decide

theorem next_of_isLeast {k k₂ : Int} (hk : k ∈ entries stabs type L R)
    (h : IsLeast {j ∈ entries stabs type L R | k < j} k₂) : Next (OfType stabs type) k k₂ := by
  obtain ⟨⟨⟨hL, hR, hT⟩, hlt⟩, hleast⟩ := h
  refine ⟨hlt, hT, ?_⟩
  intro j hj hj₂ hTj
  have := hleast ⟨⟨by have := hk.1; omega, by omega, hTj⟩, hj⟩
  omega

/-- The values increase, so that nothing comes between a value and the next. -/
theorem isLeast_of_value {k j : Int}
    (hv : StrictlyAscending (OfType stabs type) (valueAt stabs) L R)
    (hk : k ∈ entries stabs type L R) (hj : j ∈ entries stabs type L R)
    (hval : valueAt stabs j = valueAt stabs k + 1) :
    IsLeast {i ∈ entries stabs type L R | k < i} j := by
  obtain ⟨hk₀, hkR, hTk⟩ := hk
  refine ⟨⟨hj, hv.lt_of_lt hj.1 hkR hTk hj.2.2 (by omega)⟩, ?_⟩
  rintro i ⟨⟨hi, hiR, hTi⟩, hki⟩
  by_contra hij
  have hlow := hv k i hk₀ hki hiR hTk hTi
  have hhigh := hv i j hi (by omega) hj.2.1 hTi hj.2.2
  omega

theorem entries_after {k : Int} (hk : L ≤ k) :
    {j ∈ entries stabs type L R | k < j} = {j | k < j ∧ j ≤ R ∧ OfType stabs type j} := by
  ext j
  constructor
  · rintro ⟨⟨_, hjR, hTj⟩, hlt⟩
    exact ⟨hlt, hjR, hTj⟩
  · rintro ⟨hlt, hjR, hTj⟩
    exact ⟨⟨by omega, hjR, hTj⟩, hlt⟩

theorem Finds.exists_iff {P : Int → Prop} {k : Int} (h : Finds stabs L R type addr x y) :
    (∃ y', Finds stabs L R type addr k y' ∧ P y') ↔ x = k ∧ P y := by
  constructor
  · rintro ⟨y', hrun, hP⟩
    obtain ⟨rfl, rfl⟩ := Prod.mk.inj (Except.ok.inj (h.unique hrun))
    exact ⟨rfl, hP⟩
  · rintro ⟨rfl, hP⟩
    exact ⟨y, h, hP⟩

/-- An address at which a region begins: the search returns the region exactly when it does not
take the next region for it. -/
theorem stabBinsearch_hit_iff (stabs : List Stab) (L R : Int) (type addr : BitVec 32) (k : Int)
    (h0 : 0 ≤ L) (hR : R < stabs.length)
    (hv : StrictlyAscending (OfType stabs type) (valueAt stabs) L R)
    (hk : k ∈ entries stabs type L R) (hval : valueAt stabs k = addr.toNat)
    (hmax : addr.toNat < 2 ^ 32 - 1) :
    (∃ y, Finds stabs L R type addr k y ∧
      EndsBefore {j ∈ entries stabs type L R | k < j} R y) ↔
    ∀ k₂, IsLeast {j ∈ entries stabs type L R | k < j} k₂ →
      valueAt stabs k₂ ≠ addr.toNat + 1 ∨ MeetsNext (OfType stabs type) k k₂ L R ∨
        addr.toNat + 1 = 2 ^ 32 - 1 ∧ k₂ = k + 1 := by
  obtain ⟨x, y, s, hrun, hpasses, hout⟩ := stabBinsearch_settles h0 hR type addr
  have hfinds : Finds stabs L R type addr x y := hrun
  obtain ⟨hLk, hkR, hT⟩ := id hk
  obtain ⟨u, hu, hbr, htarget, hhit, hrest, hmeets⟩ :=
    Passes.reaches_hit hpasses.1 hpasses.2 bump_ne (bounds_start (by omega)) brackets_start hv
      hLk hkR hT hval
  have htarget : u.target = addr.toNat := htarget
  have huL := hu.l_ge
  have huR := hu.r_le
  rw [hfinds.exists_iff]
  by_cases hclash : ∃ k₂, IsLeast {j ∈ entries stabs type L R | k < j} k₂ ∧
      valueAt stabs k₂ = addr.toNat + 1 ∧ k₂ ≤ u.r
  · -- the next entry is hit after `k`
    obtain ⟨k₂, hleast, hval₂, hr⟩ := hclash
    have hnext := next_of_isLeast hk hleast
    obtain ⟨hlost, hy⟩ := hit_lost hrest hpasses.2 hout hu hv (valueAt_lt stabs) hhit
      (by rwa [htarget]) hnext hr (by rw [htarget, hval₂])
    rw [htarget] at hlost
    have hnot : ¬ MeetsNext (OfType stabs type) k k₂ L R := by
      intro h
      have := (hmeets k₂ hnext).mpr (.inr h)
      omega
    constructor
    · rintro ⟨hx, -⟩ k₂' hleast'
      obtain rfl := hleast'.unique hleast
      exact .inr (.inr (hlost.mp hx))
    · intro h
      have hx := hlost.mpr ((h k₂ hleast).resolve_left (not_not_intro hval₂)
        |>.resolve_left hnot)
      have hy := hy hx
      rw [← hy] at hleast
      exact ⟨hx, .inl hleast⟩
  · -- nothing is hit after `k`
    have hmiss : ∀ j, k ≤ j → j ≤ u.r → OfType stabs type j →
        valueAt stabs j ≠ u.target + 1 := by
      intro j hj hjr hTj hvj
      rw [htarget] at hvj
      have hleast := isLeast_of_value hv hk ⟨by omega, by omega, hTj⟩ (by rw [hvj, hval])
      exact hclash ⟨j, hleast, hvj, hjr⟩
    have hregion := hit_region hrest hpasses.2 hout hu hbr hv hhit (by rwa [htarget]) hmiss
    refine iff_of_true (by rwa [entries_after hLk]) ?_
    intro k₂ hleast
    by_cases hval₂ : valueAt stabs k₂ = addr.toNat + 1
    · have hnext := next_of_isLeast hk hleast
      have hlt : u.r < k₂ := by
        by_contra hge
        exact hclash ⟨k₂, hleast, hval₂, by omega⟩
      have hk₂R : k₂ ≤ R := hleast.1.1.2.1
      rcases (hmeets k₂ hnext).mp hlt with hR₂ | hmeets₂
      · change R < k₂ at hR₂
        omega
      · exact .inr (.inl hmeets₂)
    · exact .inl hval₂

/-- Two functions that are far apart. -/
theorem stabBinsearch_hit_iff_pair :
    (∃ y, Finds [stab N_FUN 10, stab N_FUN 20] 0 1 N_FUN 10 0 y ∧
      EndsBefore {j ∈ entries [stab N_FUN 10, stab N_FUN 20] N_FUN 0 1 | 0 < j} 1 y) ↔
    ∀ k₂, IsLeast {j ∈ entries [stab N_FUN 10, stab N_FUN 20] N_FUN 0 1 | 0 < j} k₂ →
      valueAt [stab N_FUN 10, stab N_FUN 20] k₂ ≠ (10 : BitVec 32).toNat + 1 ∨
        MeetsNext (OfType [stab N_FUN 10, stab N_FUN 20] N_FUN) 0 k₂ 0 1 ∨
        (10 : BitVec 32).toNat + 1 = 2 ^ 32 - 1 ∧ k₂ = 0 + 1 :=
  stabBinsearch_hit_iff [stab N_FUN 10, stab N_FUN 20] 0 1 N_FUN 10 0 (by decide) (by decide)
    (ascending_pair (by decide)) ⟨by decide, by decide, _, rfl, rfl⟩ (by decide) (by decide)

/-- The next function begins one byte later, and is returned instead. -/
theorem stabBinsearch_returns_next : ¬ ∀ stabs (L R : Int) type addr k, 0 ≤ L → R < stabs.length →
    StrictlyAscending (OfType stabs type) (valueAt stabs) L R →
    k ∈ entries stabs type L R → valueAt stabs k = addr.toNat → addr.toNat < 2 ^ 32 - 1 →
    ∃ y, Finds stabs L R type addr k y ∧
      EndsBefore {j ∈ entries stabs type L R | k < j} R y := by
  intro h
  have hrun : Finds [stab N_FUN 10, stab N_FUN 11] 0 1 N_FUN 10 1 1 :=
    stabBinsearch_of_eq (n := 6) (by decide)
  obtain ⟨y, hfinds, -⟩ := h [stab N_FUN 10, stab N_FUN 11] 0 1 N_FUN 10 0 (by decide) (by decide)
    (ascending_pair (by decide)) ⟨by decide, by decide, _, rfl, rfl⟩ (by decide) (by decide)
  obtain ⟨h01, -⟩ := Prod.mk.inj (Except.ok.inj (hfinds.unique hrun))
  omega

end Jos
