import Mathlib.Algebra.Group.Nat.Defs
import Mathlib.Logic.Relation
import Mathlib.Tactic.Common

/-!
Binary search among the marked places of a range. Places that are not marked have no say:
every probe slides down to the nearest marked place. A hit does not end the search but
raises the target. Nothing here depends on the program that is verified.
-/
namespace Prog

open Relation

/-- The bounds of the search, the bracket found so far, and the target. -/
structure Bisection where
  l : Int
  r : Int
  left : Int
  right : Int
  found : Bool
  target : ℕ

/-- The last marked place of `[l, r]` that is not right of the middle. -/
structure Probe (T : Int → Prop) (l r m : Int) : Prop where
  le_right : l ≤ r
  ge : l ≤ m
  le : m ≤ (l + r) / 2
  marked : T m
  last : ∀ k, m < k → k ≤ (l + r) / 2 → ¬ T k

namespace Bisection

/-- The search in `[l, r]` before the first pass. -/
def start (l r : Int) (a : ℕ) : Bisection := ⟨l, r, l, r, false, a⟩

end Bisection

variable {T : Int → Prop} {v : Int → ℕ} {bump : ℕ → ℕ}

/-- One pass of the search. -/
inductive Pass (T : Int → Prop) (v : Int → ℕ) (bump : ℕ → ℕ) : Bisection → Bisection → Prop
  | skip {s : Bisection} : s.l ≤ s.r → (∀ k, s.l ≤ k → k ≤ (s.l + s.r) / 2 → ¬ T k) →
      Pass T v bump s { s with l := (s.l + s.r) / 2 + 1 }
  | below {s : Bisection} {m : Int} : Probe T s.l s.r m → v m < s.target →
      Pass T v bump s { s with found := true, left := m, l := (s.l + s.r) / 2 + 1 }
  | above {s : Bisection} {m : Int} : Probe T s.l s.r m → s.target < v m →
      Pass T v bump s { s with found := true, right := m - 1, r := m - 1 }
  | hit {s : Bisection} {m : Int} : Probe T s.l s.r m → v m = s.target →
      Pass T v bump s { s with found := true, left := m, l := m, target := bump s.target }

/-- A search that has come to its end. -/
def Passes (T : Int → Prop) (v : Int → ℕ) (bump : ℕ → ℕ) (s t : Bisection) : Prop :=
  ReflTransGen (Pass T v bump) s t ∧ t.r < t.l

/-- The last marked place of `(left, right]`, or the left end when there is none. -/
structure Edge (T : Int → Prop) (left right x : Int) : Prop where
  ge : min left right ≤ x
  le : x ≤ right
  marked : x = min left right ∨ T x
  last : ∀ k, x < k → k ≤ right → ¬ T k

/-- The bracket that is returned. -/
inductive Outcome (T : Int → Prop) (s : Bisection) : Int → Int → Prop
  | missed : s.found = false → Outcome T s s.left (s.left - 1)
  | bracket {x : Int} : s.found = true → Edge T s.left s.right x → Outcome T s x s.right

variable {s t : Bisection} {L R x y m : Int} {a n : ℕ}

theorem Edge.eq_of_lt {left right : Int} (h : Edge T left right x) (hlt : right < left) :
    x = right := by
  have hge := h.ge
  have hle := h.le
  omega

/-! ### The search ends -/

/-- At most `n` passes are left. A hit at the left bound does not shrink the range, but it
cannot be followed by another one. -/
def Fits (T : Int → Prop) (v : Int → ℕ) (n : ℕ) (s : Bisection) : Prop :=
  2 * (s.r - s.l + 1) ≤ n ∧ (T s.l → v s.l = s.target → 2 * (s.r - s.l + 1) < n)

theorem exists_fits (T : Int → Prop) (v : Int → ℕ) (s : Bisection) : ∃ n, Fits T v n s := by
  refine ⟨(2 * (s.r - s.l + 1) + 1).toNat, ?_, ?_⟩
  · omega
  · intro _ _
    omega

theorem Pass.fits (h : Pass T v bump s t) (hbump : ∀ a, bump a ≠ a) (hs : Fits T v (n + 1) s) :
    Fits T v n t := by
  obtain ⟨hn, hhit⟩ := hs
  cases h with
  | skip hle _ => exact ⟨by dsimp only; omega, fun _ _ => by dsimp only; omega⟩
  | below hm _ =>
    have hle := hm.le_right
    exact ⟨by dsimp only; omega, fun _ _ => by dsimp only; omega⟩
  | above hm _ =>
    have hle := hm.le
    have hlr := hm.le_right
    exact ⟨by dsimp only; omega, fun _ _ => by dsimp only; omega⟩
  | @hit m hm heq =>
    have hge := hm.ge
    rcases Int.lt_or_eq_of_le hge with hlt | rfl
    · exact ⟨by dsimp only; omega, fun _ _ => by dsimp only; omega⟩
    · have hfew := hhit hm.marked heq
      refine ⟨by dsimp only; omega, fun _ heq' => ?_⟩
      exact absurd (heq'.symm.trans heq) (hbump _)

theorem Fits.done (h : Fits T v 0 s) : s.r < s.l := by
  have := h.1
  omega

/-! ### Bounds -/

/-- The range only shrinks. -/
theorem Pass.within (h : Pass T v bump s t) : s.l ≤ t.l ∧ t.r ≤ s.r := by
  cases h with
  | skip hle _ => exact ⟨by dsimp only; omega, Int.le_refl _⟩
  | below hm _ =>
    obtain ⟨hle, hge, hmid, -, -⟩ := hm
    exact ⟨by dsimp only; omega, Int.le_refl _⟩
  | above hm _ =>
    obtain ⟨hle, hge, hmid, -, -⟩ := hm
    exact ⟨Int.le_refl _, by dsimp only; omega⟩
  | hit hm _ => exact ⟨hm.ge, Int.le_refl _⟩

/-- What is known about the range while nothing has been found, and after that. -/
structure Explored (T : Int → Prop) (L R : Int) (s : Bisection) : Prop where
  l_ge : L ≤ s.l
  r_le : s.r ≤ R
  missed : s.found = false → s.left = L ∧ s.r = R ∧ ∀ k, L ≤ k → k < s.l → ¬ T k
  found : s.found = true → ∃ k, L ≤ k ∧ k ≤ R ∧ T k

theorem explored_start : Explored T L R (.start L R a) where
  l_ge := Int.le_refl _
  r_le := Int.le_refl _
  missed _ := ⟨rfl, rfl, fun _ hk hlt _ => absurd hlt (Int.not_lt.mpr hk)⟩
  found h := nomatch h

theorem Pass.explored (h : Pass T v bump s t) (hs : Explored T L R s) : Explored T L R t := by
  obtain ⟨hl, hr, hmissed, hfound⟩ := hs
  have hin : ∀ m, Probe T s.l s.r m → ∃ k, L ≤ k ∧ k ≤ R ∧ T k := by
    rintro m ⟨hle, hge, hmid, hT, -⟩
    exact ⟨m, by omega, by omega, hT⟩
  have hwithin := h.within
  refine ⟨by omega, by omega, ?_, ?_⟩
  · intro hf
    cases h with
    | skip hle hno =>
      obtain ⟨hleft, hR, hnone⟩ := hmissed hf
      refine ⟨hleft, hR, ?_⟩
      intro k hk hlt
      rcases Int.lt_or_le k s.l with hkl | hkl
      · exact hnone k hk hkl
      · exact hno k hkl (by dsimp only at hlt; omega)
    | below _ _ => cases hf
    | above _ _ => cases hf
    | hit _ _ => cases hf
  · intro hf
    cases h with
    | skip _ _ => exact hfound hf
    | below hm _ => exact hin _ hm
    | above hm _ => exact hin _ hm
    | hit hm _ => exact hin _ hm

theorem Passes.explored (h : ReflTransGen (Pass T v bump) s t) (hs : Explored T L R s) :
    Explored T L R t := by
  induction h with
  | refl => exact hs
  | tail _ hpass ih => exact hpass.explored ih

/-- The bracket is empty exactly when no place of the range is marked. -/
theorem Outcome.empty_iff (hout : Outcome T s x y) (hs : Explored T L R s) (hend : s.r < s.l) :
    y < x ↔ ∀ k, L ≤ k → k ≤ R → ¬ T k := by
  cases hout with
  | missed hf =>
    obtain ⟨-, hR, hnone⟩ := hs.missed hf
    refine iff_of_true (by omega) ?_
    intro k hk hkR
    exact hnone k hk (by omega)
  | bracket hf hx =>
    obtain ⟨k, hk, hkR, hT⟩ := hs.found hf
    have hle := hx.le
    refine iff_of_false (by omega) ?_
    intro hnone
    exact hnone k hk hkR hT

/-- What holds of the bounds at every pass. -/
structure Bounds (T : Int → Prop) (L R : Int) (s : Bisection) : Prop where
  l_ge : L ≤ s.l
  r_le : s.r ≤ R
  left_ge : L ≤ s.left
  left_le : s.left ≤ s.l
  l_le : s.l ≤ s.r + 1
  right_eq : s.right = s.r

theorem bounds_start (h : L ≤ R + 1) : Bounds T L R (.start L R a) :=
  ⟨Int.le_refl _, Int.le_refl _, Int.le_refl _, Int.le_refl _, h, rfl⟩

theorem Pass.bounds (h : Pass T v bump s t) (hs : Bounds T L R s) : Bounds T L R t := by
  obtain ⟨hl, hr, hleft, hleft', hlr, hright⟩ := hs
  cases h with
  | skip hle _ =>
    exact ⟨by dsimp only; omega, hr, hleft, by dsimp only; omega, by dsimp only; omega, hright⟩
  | below hm _ =>
    obtain ⟨hle, hge, hmid, -, -⟩ := hm
    exact ⟨by dsimp only; omega, hr, by dsimp only; omega, by dsimp only; omega,
      by dsimp only; omega, hright⟩
  | above hm _ =>
    obtain ⟨hle, hge, hmid, -, -⟩ := hm
    exact ⟨hl, by dsimp only; omega, hleft, hleft', by dsimp only; omega, rfl⟩
  | hit hm _ =>
    obtain ⟨hle, hge, hmid, -, -⟩ := hm
    exact ⟨by dsimp only; omega, hr, by dsimp only; omega, Int.le_refl _, by dsimp only; omega,
      hright⟩

theorem Passes.bounds (h : ReflTransGen (Pass T v bump) s t) (hs : Bounds T L R s) :
    Bounds T L R t := by
  induction h with
  | refl => exact hs
  | tail _ hpass ih => exact hpass.bounds ih

/-! ### What the bounds say about marked places with increasing values -/

/-- Between hits, the bounds separate the smaller values from the larger ones, and the bracket
is made of the nearest marked places on both sides. -/
structure Brackets (T : Int → Prop) (v : Int → ℕ) (L R : Int) (s : Bisection) : Prop where
  below : ∀ k, L ≤ k → k < s.l → T k → v k < s.target
  above : ∀ k, s.r < k → k ≤ R → T k → s.target < v k
  left_eq : s.left = L ∨ T s.left ∧ s.left < s.l
  last : ∀ k, s.left < k → k < s.l → ¬ T k
  right_next : s.r = R ∨ T (s.r + 1)
  missed : s.found = false → (∀ k, L ≤ k → k < s.l → ¬ T k) ∧ s.r = R

/-- The values of the marked places do not decrease. -/
def Ascending (T : Int → Prop) (v : Int → ℕ) (L R : Int) : Prop :=
  ∀ i j, L ≤ i → i ≤ j → j ≤ R → T i → T j → v i ≤ v j

theorem brackets_start : Brackets T v L R (.start L R a) where
  below _ hk hlt _ := absurd hlt (Int.not_lt.mpr hk)
  above _ hlt hk _ := absurd hlt (Int.not_lt.mpr hk)
  left_eq := .inl rfl
  last _ hlt hlt' _ := absurd hlt (Int.lt_asymm hlt')
  right_next := .inl rfl
  missed _ := ⟨fun _ hk hlt _ => absurd hlt (Int.not_lt.mpr hk), rfl⟩

/-- A pass that is not a hit. -/
theorem Pass.brackets (h : Pass T v bump s t) (hbump : ∀ a, bump a ≠ a) (hb : Bounds T L R s)
    (hs : Brackets T v L R s) (hv : Ascending T v L R) (heq : t.target = s.target) :
    Brackets T v L R t := by
  obtain ⟨hl, hr, hleft, hleft', hlr, hright⟩ := hb
  obtain ⟨hbelow, habove, hleft_eq, hlast, hnext, hmissed⟩ := hs
  cases h with
  | skip hle hno =>
    have hno' : ∀ k, s.l ≤ k → k < (s.l + s.r) / 2 + 1 → ¬ T k := by
      intro k hk hlt
      exact hno k hk (by omega)
    refine ⟨?_, habove, ?_, ?_, hnext, ?_⟩
    · intro k hk hlt hT
      rcases Int.lt_or_le k s.l with hkl | hkl
      · exact hbelow k hk hkl hT
      · exact absurd hT (hno' k hkl hlt)
    · rcases hleft_eq with hL | ⟨hT, hlt⟩
      · exact .inl hL
      · exact .inr ⟨hT, by dsimp only; omega⟩
    · intro k hk hlt
      rcases Int.lt_or_le k s.l with hkl | hkl
      · exact hlast k hk hkl
      · exact hno' k hkl hlt
    · intro hfound
      obtain ⟨hnone, hR⟩ := hmissed hfound
      refine ⟨?_, hR⟩
      intro k hk hlt
      rcases Int.lt_or_le k s.l with hkl | hkl
      · exact hnone k hk hkl
      · exact hno' k hkl hlt
  | @below m hm hlt =>
    obtain ⟨hle, hge, hmid, hT, hno⟩ := hm
    have hno' : ∀ k, m < k → k < (s.l + s.r) / 2 + 1 → ¬ T k := by
      intro k hk hlt
      exact hno k hk (by omega)
    refine ⟨?_, habove, .inr ⟨hT, by dsimp only; omega⟩, hno', hnext, nofun⟩
    intro k hk hkl hTk
    rcases Int.lt_or_le m k with hmk | hmk
    · exact absurd hTk (hno' k hmk hkl)
    · exact Nat.lt_of_le_of_lt (hv k m hk hmk (by omega) hTk hT) hlt
  | @above m hm hlt =>
    obtain ⟨hle, hge, hmid, hT, hno⟩ := hm
    refine ⟨hbelow, ?_, hleft_eq, hlast, .inr ?_, nofun⟩
    · intro k hk hkR hTk
      dsimp only at hk
      exact Nat.lt_of_lt_of_le hlt (hv m k (by omega) (by omega) hkR hT hTk)
    · dsimp only
      rwa [Int.sub_add_cancel]
  | hit hm _ => exact absurd heq (hbump _)

/-- A hit at `k`, from which the search goes on in `[k, r]` with the next target. -/
structure HitAt (T : Int → Prop) (v : Int → ℕ) (k : Int) (s : Bisection) : Prop where
  probe : Probe T s.l s.r k
  value : v k = s.target

def Bisection.after (s : Bisection) (bump : ℕ → ℕ) (k : Int) : Bisection :=
  { s with found := true, left := k, l := k, target := bump s.target }

/-- A pass either keeps the target or is a hit. -/
theorem Pass.target_or_hit (h : Pass T v bump s t) :
    t.target = s.target ∨ ∃ k, HitAt T v k s ∧ t = s.after bump k := by
  cases h with
  | skip _ _ => exact .inl rfl
  | below _ _ => exact .inl rfl
  | above _ _ => exact .inl rfl
  | hit hm heq => exact .inr ⟨_, ⟨hm, heq⟩, rfl⟩

/-- A run in which no marked place has the value that is looked for. -/
theorem Passes.brackets (h : ReflTransGen (Pass T v bump) s t) (hbump : ∀ a, bump a ≠ a)
    (hb : Bounds T L R s) (hs : Brackets T v L R s) (hv : Ascending T v L R)
    (hmiss : ∀ k, L ≤ k → k ≤ R → T k → v k ≠ s.target) :
    Bounds T L R t ∧ Brackets T v L R t ∧ t.target = s.target := by
  induction h with
  | refl => exact ⟨hb, hs, rfl⟩
  | tail _ hpass ih =>
    obtain ⟨hb', hs', heq⟩ := ih
    rcases hpass.target_or_hit with hsame | ⟨k, ⟨hm, hval⟩, -⟩
    · exact ⟨hpass.bounds hb', hpass.brackets hbump hb' hs' hv hsame, hsame.trans heq⟩
    · obtain ⟨hle, hge, hmid, hT, -⟩ := hm
      have hl := hb'.l_ge
      have hr := hb'.r_le
      exact absurd (hval.trans heq) (hmiss k (by omega) (by omega) hT)

/-- The bracket that is returned when some marked value is below the target. -/
theorem Brackets.outcome (hs : Brackets T v L R s) (hb : Bounds T L R s) (hend : s.r < s.l)
    (hex : ∃ k, L ≤ k ∧ k ≤ R ∧ T k ∧ v k < s.target) (hout : Outcome T s x y) :
    (L ≤ x ∧ x ≤ y ∧ T x ∧ v x < s.target ∧ ∀ k, x < k → k ≤ y → ¬ T k) ∧
    (y = R ∨ T (y + 1)) ∧ y ≤ R ∧ ∀ k, y < k → k ≤ R → T k → s.target < v k := by
  obtain ⟨k, hLk, hkR, hTk, hlt⟩ := hex
  obtain ⟨hl, hr, hleft, hleft', hlr, hright⟩ := hb
  have hkl : k < s.l := by
    by_contra hge
    have := hs.above k (by omega) hkR hTk
    omega
  have hfound : s.found ≠ false := fun hf => (hs.missed hf).1 k hLk hkl hTk
  have hleft_lt : T s.left ∧ s.left < s.l := by
    rcases hs.left_eq with hL | hT
    · have hne : ¬ s.left < k := fun h => hs.last k h hkl hTk
      have heq : s.left = k := by omega
      rw [heq]
      exact ⟨hTk, hkl⟩
    · exact hT
  cases hout with
  | missed hf => exact absurd hf hfound
  | bracket _ hx =>
    obtain ⟨hge, hle, hmark, hlast⟩ := hx
    have hxleft : x = s.left := by
      by_contra hne
      have hTx : T x := hmark.resolve_left (by omega)
      exact hs.last x (by omega) (by omega) hTx
    subst hxleft
    rw [hright]
    refine ⟨⟨hleft, by omega, hleft_lt.1, hs.below _ hleft hleft_lt.2 hleft_lt.1, ?_⟩,
      hs.right_next, hr, hs.above⟩
    intro j hj hjr
    exact hs.last j hj (by omega)

/-! ### A hit, and what follows it -/

def StrictlyAscending (T : Int → Prop) (v : Int → ℕ) (L R : Int) : Prop :=
  ∀ i j, L ≤ i → i < j → j ≤ R → T i → T j → v i < v j

/-- `k₂` is the next marked place after `k`. -/
structure Next (T : Int → Prop) (k k₂ : Int) : Prop where
  lt : k < k₂
  marked : T k₂
  none : ∀ j, k < j → j < k₂ → ¬ T j

/-- Halving the range from `[l, r]` on, the search for `k` probes `k₂` before `k`. -/
inductive MeetsNext (T : Int → Prop) (k k₂ : Int) : Int → Int → Prop
  | low {l r : Int} : (l + r) / 2 < k → MeetsNext T k k₂ ((l + r) / 2 + 1) r → MeetsNext T k k₂ l r
  | high {l r m : Int} : Probe T l r m → k₂ < m → MeetsNext T k k₂ l (m - 1) → MeetsNext T k k₂ l r
  | here {l r : Int} : Probe T l r k₂ → MeetsNext T k k₂ l r

variable {k k₂ : Int}

theorem StrictlyAscending.ascending (h : StrictlyAscending T v L R) : Ascending T v L R := by
  intro i j hi hij hj hTi hTj
  rcases Int.lt_or_eq_of_le hij with hlt | rfl
  · exact Nat.le_of_lt (h i j hi hlt hj hTi hTj)
  · exact Nat.le_refl _

/-- Values order the marked places. -/
theorem StrictlyAscending.lt_of_lt (h : StrictlyAscending T v L R) {i j : Int} (hj : L ≤ j)
    (hi : i ≤ R) (hTi : T i) (hTj : T j) (hlt : v i < v j) : i < j := by
  by_contra hge
  rcases Int.lt_or_eq_of_le (Int.not_lt.mp hge) with hji | rfl
  · have := h j i hj hji hi hTj hTi
    omega
  · omega

theorem Probe.unique {l r m' : Int} (h : Probe T l r m) (h' : Probe T l r m') : m = m' := by
  rcases Int.lt_trichotomy m m' with hlt | heq | hgt
  · exact absurd h'.marked (h.last m' hlt h'.le)
  · exact heq
  · exact absurd h.marked (h'.last m hgt h.le)

theorem Pass.le (h : Pass T v bump s t) : s.l ≤ s.r := by
  cases h with
  | skip hle _ => exact hle
  | below hm _ => exact hm.le_right
  | above hm _ => exact hm.le_right
  | hit hm _ => exact hm.le_right

theorem Passes.eq_of_lt (h : ReflTransGen (Pass T v bump) s t) (hlt : s.r < s.l) : t = s := by
  rcases ReflTransGen.cases_head h with heq | ⟨u, hpass, -⟩
  · exact heq.symm
  · have := hpass.le
    omega

/-- A probe below `k` tells nothing about the next place. -/
theorem meetsNext_low {l r : Int} (hlow : (l + r) / 2 < k) (hkk : k < k₂) :
    MeetsNext T k k₂ l r ↔ MeetsNext T k k₂ ((l + r) / 2 + 1) r := by
  constructor
  · intro h
    cases h with
    | low _ h => exact h
    | high hm hlt _ =>
      have := hm.le
      omega
    | here hm =>
      have := hm.le
      omega
  · exact .low hlow

theorem meetsNext_high {l r : Int} (hm : Probe T l r m) (hlt : k₂ < m) (hkk : k < k₂) :
    MeetsNext T k k₂ l r ↔ MeetsNext T k k₂ l (m - 1) := by
  have hle := hm.le
  constructor
  · intro h
    cases h with
    | low _ _ => omega
    | high hm' _ h =>
      obtain rfl := hm.unique hm'
      exact h
    | here hm' =>
      have := hm.unique hm'
      omega
  · exact .high hm hlt

theorem not_meetsNext {l r : Int} (hm : Probe T l r k) (hkk : k < k₂) :
    ¬ MeetsNext T k k₂ l r := by
  have hle := hm.le
  intro h
  cases h with
  | low _ _ => omega
  | high hm' _ _ =>
    have := hm.unique hm'
    omega
  | here hm' =>
    have := hm.unique hm'
    omega

/-- While the value of `k` is looked for, `k` stays in the range. -/
theorem Brackets.mem_range (hs : Brackets T v L R s) (hk : L ≤ k) (hkR : k ≤ R) (hT : T k)
    (hval : v k = s.target) : s.l ≤ k ∧ k ≤ s.r := by
  constructor
  · by_contra hlt
    have := hs.below k hk (by omega) hT
    omega
  · by_contra hlt
    have := hs.above k (by omega) hkR hT
    omega

/-- Before the hit, the next place is left of the range once it has been probed. -/
theorem Pass.meetsNext (h : Pass T v bump s t) (hbump : ∀ a, bump a ≠ a) (hb : Bounds T L R s)
    (hs : Brackets T v L R s) (hv : StrictlyAscending T v L R) (hk : L ≤ k) (hkR : k ≤ R)
    (hT : T k) (hval : v k = s.target) (heq : t.target = s.target) (hnext : Next T k k₂) :
    (t.r < k₂ ∨ MeetsNext T k k₂ t.l t.r) ↔ (s.r < k₂ ∨ MeetsNext T k k₂ s.l s.r) := by
  obtain ⟨hkk, hT₂, hnone⟩ := hnext
  obtain ⟨hlk, hkr⟩ := hs.mem_range hk hkR hT hval
  have hl := hb.l_ge
  have hr := hb.r_le
  cases h with
  | skip hle hno =>
    have hlow : (s.l + s.r) / 2 < k := by
      by_contra hge
      exact hno k hlk (by omega) hT
    rw [meetsNext_low hlow hkk]
  | @below m hm hlt =>
    have hmk : m < k := hv.lt_of_lt hk (by have := hm.le; have := hm.le_right; omega) hm.marked hT
      (by omega)
    have hlow : (s.l + s.r) / 2 < k := by
      by_contra hge
      exact hm.last k hmk (by omega) hT
    rw [meetsNext_low hlow hkk]
  | @above m hm hlt =>
    have hmR : m ≤ s.r := by
      have := hm.le
      have := hm.le_right
      omega
    have hge := hm.ge
    have hkm : k < m := hv.lt_of_lt (by omega) hkR hT hm.marked (by omega)
    have hm₂ : k₂ ≤ m := by
      by_contra hlt₂
      exact hnone m hkm (by omega) hm.marked
    rcases Int.lt_or_eq_of_le hm₂ with hlt₂ | rfl
    · rw [meetsNext_high hm hlt₂ hkk]
      dsimp only
      constructor
      · rintro (h | h)
        · omega
        · exact .inr h
      · rintro (h | h)
        · omega
        · exact .inr h
    · refine iff_of_true (.inl ?_) (.inr (.here hm))
      dsimp only
      omega
  | hit _ _ => exact absurd heq (hbump _)

/-- A search for the value of `k` hits `k`, and goes on from there. -/
theorem Passes.reaches_hit (hrun : ReflTransGen (Pass T v bump) s t) (hend : t.r < t.l)
    (hbump : ∀ a, bump a ≠ a) (hb : Bounds T L R s) (hs : Brackets T v L R s)
    (hv : StrictlyAscending T v L R) (hk : L ≤ k) (hkR : k ≤ R) (hT : T k)
    (hval : v k = s.target) :
    ∃ u, Bounds T L R u ∧ Brackets T v L R u ∧ u.target = s.target ∧ HitAt T v k u ∧
      ReflTransGen (Pass T v bump) (u.after bump k) t ∧
      ∀ k₂, Next T k k₂ → (u.r < k₂ ↔ s.r < k₂ ∨ MeetsNext T k k₂ s.l s.r) := by
  induction hrun using ReflTransGen.head_induction_on with
  | refl =>
    have := hs.mem_range hk hkR hT hval
    omega
  | @head s s' hpass hrest ih =>
    rcases hpass.target_or_hit with hsame | ⟨k', hhit, rfl⟩
    · obtain ⟨u, hbu, hsu, htu, hhit, hrun, hmeets⟩ :=
        ih (hpass.bounds hb) (hpass.brackets hbump hb hs hv.ascending hsame) (hval.trans hsame.symm)
      refine ⟨u, hbu, hsu, htu.trans hsame, hhit, hrun, ?_⟩
      intro k₂ hnext
      rw [hmeets k₂ hnext]
      exact hpass.meetsNext hbump hb hs hv hk hkR hT hval hsame hnext
    · obtain ⟨hm, hval'⟩ := hhit
      have heq : k' = k := by
        have hl := hb.l_ge
        have hr := hb.r_le
        obtain ⟨hle, hge, hmid, hT', -⟩ := hm
        rcases Int.lt_trichotomy k' k with hlt | heq | hgt
        · have := hv k' k (by omega) hlt hkR hT' hT
          omega
        · exact heq
        · have := hv k k' hk hgt (by omega) hT hT'
          omega
      subst heq
      refine ⟨s, hb, hs, rfl, ⟨hm, hval⟩, hrest, ?_⟩
      intro k₂ hnext
      constructor
      · exact .inl
      · rintro (h | h)
        · exact h
        · exact absurd h (not_meetsNext hm hnext.lt)

theorem Passes.found (h : ReflTransGen (Pass T v bump) s t) (hs : s.found = true) :
    t.found = true := by
  induction h with
  | refl => exact hs
  | tail _ hpass ih =>
    cases hpass with
    | skip _ _ => exact ih
    | below _ _ => rfl
    | above _ _ => rfl
    | hit _ _ => rfl

/-- After a hit the rest of the search is one of its own, in the range from the hit on. -/
theorem HitAt.bounds (h : HitAt T v k s) (hs : Bounds T L R s) :
    Bounds T k s.r (s.after bump k) := by
  have hle := h.probe.le
  have hlr := h.probe.le_right
  refine ⟨Int.le_refl k, Int.le_refl s.r, Int.le_refl k, Int.le_refl k, ?_, hs.right_eq⟩
  change k ≤ s.r + 1
  omega

theorem brackets_after : Brackets T v k s.r (s.after bump k) where
  below _ hk hlt _ := absurd hlt (Int.not_lt.mpr hk)
  above _ hlt hk _ := absurd hlt (Int.not_lt.mpr hk)
  left_eq := .inl rfl
  last _ hlt hlt' _ := absurd hlt (Int.lt_asymm hlt')
  right_next := .inl rfl
  missed := nofun

/-- From a hit on, as long as the target is larger or the place has been left behind, the bracket
does not get in front of the place. -/
structure Beyond (v : Int → ℕ) (k : Int) (s : Bisection) : Prop where
  left_ge : k ≤ s.left
  l_ge : k ≤ s.l
  r_ge : k ≤ s.r
  right_eq : s.right = s.r
  ahead : v k < s.target ∨ k < s.l

theorem Pass.beyond (h : Pass T v bump s t) (hs : Beyond v k s) : Beyond v k t := by
  obtain ⟨hleft, hl, hr, hright, hahead⟩ := hs
  cases h with
  | skip hle _ =>
    exact ⟨hleft, by dsimp only; omega, hr, hright, .inr (by dsimp only; omega)⟩
  | below hm _ =>
    obtain ⟨hle, hge, hmid, -, -⟩ := hm
    exact ⟨by dsimp only; omega, by dsimp only; omega, hr, hright, .inr (by dsimp only; omega)⟩
  | @above m hm hlt =>
    obtain ⟨hle, hge, hmid, -, -⟩ := hm
    have hkm : k < m := by
      by_contra hmk
      have heq : m = k := by omega
      subst heq
      omega
    exact ⟨hleft, hl, by dsimp only; omega, rfl, hahead⟩
  | @hit m hm heq =>
    obtain ⟨hle, hge, hmid, -, -⟩ := hm
    have hkm : k < m := by
      by_contra hmk
      have heq : m = k := by omega
      subst heq
      omega
    exact ⟨by dsimp only; omega, by dsimp only; omega, hr, hright, .inr hkm⟩

theorem Passes.beyond (h : ReflTransGen (Pass T v bump) s t) (hs : Beyond v k s) :
    Beyond v k t := by
  induction h with
  | refl => exact hs
  | tail _ hpass ih => exact hpass.beyond ih

theorem Edge.ge_of_beyond (h : Edge T s.left s.right x) (hs : Beyond v k s) : k ≤ x := by
  have hge := h.ge
  have hleft := hs.left_ge
  have hr := hs.r_ge
  have hright := hs.right_eq
  omega

/-! ### A search that leaves its range on the left -/

/-- The places that are probed in `[l, r]` when every probe sends the search to the left. -/
inductive LeftProbe (T : Int → Prop) (l : Int) : Int → Int → Prop
  | first {r p : Int} : Probe T l r p → LeftProbe T l r p
  | next {r p q : Int} : Probe T l r p → LeftProbe T l (p - 1) q → LeftProbe T l r q

/-- All these places lie above the target. At the left end it may also be hit, if the target
then wraps to something smaller. -/
structure FallsOff (T : Int → Prop) (v : Int → ℕ) (bump : ℕ → ℕ) (l r : Int) (a : ℕ) : Prop where
  le : l ≤ r
  marked : T l
  above : ∀ p, LeftProbe T l r p → a < v p ∨ p = l ∧ v p = a ∧ bump a < a

variable {l r p : Int}

theorem LeftProbe.le (h : LeftProbe T l r p) : l ≤ r := by
  cases h with
  | first hm => exact hm.le_right
  | next hm _ => exact hm.le_right

/-- A probe at the left end is the only one. -/
theorem LeftProbe.eq_left (h : LeftProbe T l r p) (hm : Probe T l r l) : p = l := by
  cases h with
  | first hm' => exact hm'.unique hm
  | next hm' h =>
    obtain rfl := hm'.unique hm
    have := h.le
    omega

theorem leftProbe_above (hm : Probe T l r m) (h : LeftProbe T l r p) :
    p = m ∨ LeftProbe T l (m - 1) p := by
  cases h with
  | first hm' => exact .inl (hm'.unique hm)
  | next hm' h =>
    obtain rfl := hm'.unique hm
    exact .inr h

/-- When the left end is marked, the probes come to it. -/
theorem Probe.exists_of_marked (hT : T l) (hle : l ≤ r) : ∃ m, Probe T l r m := by
  obtain ⟨n, hn⟩ : ∃ n : ℕ, (l + r) / 2 = l + n := ⟨((l + r) / 2 - l).toNat, by omega⟩
  have hlast : ∀ n : ℕ, ∃ m, l ≤ m ∧ m ≤ l + n ∧ T m ∧ ∀ k, m < k → k ≤ l + n → ¬ T k := by
    intro n
    induction n with
    | zero => exact ⟨l, Int.le_refl l, by omega, hT, fun k hk hk' => by omega⟩
    | succ n ih =>
      by_cases hTn : T (l + (n + 1 : ℕ))
      · exact ⟨_, by omega, Int.le_refl _, hTn, fun k hk hk' => by omega⟩
      · obtain ⟨m, hge, hmn, hTm, hno⟩ := ih
        refine ⟨m, hge, by omega, hTm, ?_⟩
        intro k hk hk'
        rcases Int.lt_or_eq_of_le hk' with hlt | rfl
        · exact hno k hk (by omega)
        · exact hTn
  obtain ⟨m, hge, hmn, hTm, hno⟩ := hlast n
  rw [← hn] at hmn hno
  exact ⟨m, hle, hge, hmn, hTm, hno⟩

theorem leftProbe_left (hT : T l) (hle : l ≤ r) : LeftProbe T l r l := by
  obtain ⟨n, hn⟩ : ∃ n : ℕ, (r - l).toNat = n := ⟨_, rfl⟩
  induction n using Nat.strongRecOn generalizing r with
  | ind n ih =>
    obtain ⟨m, hm⟩ := Probe.exists_of_marked hT hle
    have hge := hm.ge
    have hmid := hm.le
    rcases Int.lt_or_eq_of_le hge with hlt | rfl
    · exact .next hm (ih (m - 1 - l).toNat (by omega) (by omega) rfl)
    · exact .first hm

/-- In a range of one place. -/
theorem fallsOff_self : FallsOff T v bump l l a ↔ T l ∧ (a < v l ∨ v l = a ∧ bump a < a) := by
  constructor
  · rintro ⟨-, hT, habove⟩
    refine ⟨hT, ?_⟩
    rcases habove l (leftProbe_left hT (Int.le_refl l)) with h | ⟨-, h⟩
    · exact .inl h
    · exact .inr h
  · rintro ⟨hT, hval⟩
    refine ⟨Int.le_refl l, hT, ?_⟩
    intro p hp
    have hm : Probe T l l l :=
      ⟨Int.le_refl l, Int.le_refl l, by omega, hT, fun k hk hk' => by omega⟩
    obtain rfl := hp.eq_left hm
    rcases hval with h | h
    · exact .inl h
    · exact .inr ⟨rfl, h⟩

/-- When the place that is probed is not above the target, the search stays in the range. -/
theorem not_fallsOff (hm : Probe T l r m) (hle : v m ≤ a) (hne : l < m ∨ v m < a) :
    ¬ FallsOff T v bump l r a := by
  intro h
  rcases h.above m (.first hm) with habove | ⟨heq, heq', -⟩
  · omega
  · omega

theorem fallsOff_above (hm : Probe T l r m) (hlt : a < v m) :
    FallsOff T v bump l r a ↔ m - 1 < l ∨ FallsOff T v bump l (m - 1) a := by
  have hge := hm.ge
  constructor
  · intro h
    rcases Int.lt_or_eq_of_le hge with hlm | heq
    · refine .inr ⟨by omega, h.marked, ?_⟩
      intro p hp
      exact h.above p (.next hm hp)
    · left
      omega
  · intro h
    refine ⟨hm.le_right, ?_, ?_⟩
    · rcases h with h | h
      · have heq : m = l := by omega
        rw [← heq]
        exact hm.marked
      · exact h.marked
    · intro p hp
      rcases leftProbe_above hm hp with rfl | hp
      · exact .inl hlt
      · rcases h with h | h
        · have := hp.le
          omega
        · exact h.above p hp

/-- A hit at the left end changes the target only. -/
theorem fallsOff_hit (hm : Probe T l r l) (heq : v l = a) (hbump : ∀ a, bump a ≠ a) :
    FallsOff T v bump l r a ↔ FallsOff T v bump l r (bump a) := by
  have hne := hbump a
  constructor
  · rintro ⟨hle, hT, habove⟩
    refine ⟨hle, hT, ?_⟩
    intro p hp
    obtain rfl := hp.eq_left hm
    rcases habove _ hp with hlt | ⟨-, -, hwrap⟩
    · omega
    · left
      omega
  · rintro ⟨hle, hT, habove⟩
    refine ⟨hle, hT, ?_⟩
    intro p hp
    obtain rfl := hp.eq_left hm
    rcases habove _ hp with hlt | ⟨-, heq', -⟩
    · exact .inr ⟨rfl, heq, by omega⟩
    · omega

/-- The range never ends more than one place in front of its left bound. -/
theorem Pass.ordered (h : Pass T v bump s t) : t.l ≤ t.r + 1 := by
  cases h with
  | skip hle _ =>
    dsimp only
    omega
  | below hm _ =>
    obtain ⟨hle, hge, hmid, -, -⟩ := hm
    dsimp only
    omega
  | above hm _ =>
    obtain ⟨hle, hge, hmid, -, -⟩ := hm
    dsimp only
    omega
  | hit hm _ =>
    obtain ⟨hle, hge, hmid, -, -⟩ := hm
    dsimp only
    omega

theorem Passes.right_ge (h : ReflTransGen (Pass T v bump) s t) (hs : s.l ≤ s.r + 1) :
    s.l ≤ t.r + 1 := by
  have hstay : s.l ≤ t.l ∧ t.l ≤ t.r + 1 := by
    induction h with
    | refl => exact ⟨Int.le_refl _, hs⟩
    | tail _ hpass ih => exact ⟨Int.le_trans ih.1 hpass.within.1, hpass.ordered⟩
  omega

/-- The search ends left of its range exactly when it falls off. -/
theorem Passes.fallsOff (hrun : ReflTransGen (Pass T v bump) s t) (hend : t.r < t.l)
    (hbump : ∀ a, bump a ≠ a) (hs : s.l ≤ s.r + 1) :
    t.r < s.l ↔ s.r < s.l ∨ FallsOff T v bump s.l s.r s.target := by
  induction hrun using ReflTransGen.head_induction_on with
  | refl => exact iff_of_true hend (.inl hend)
  | @head s u hpass hrest ih =>
    have hle := hpass.le
    -- once the left bound has moved, the search stays in the range
    have hstays : s.l < u.l → ¬ t.r < s.l := by
      intro hlt
      have := Passes.right_ge hrest hpass.ordered
      omega
    rw [or_iff_right (by omega : ¬ s.r < s.l)]
    specialize ih hpass.ordered
    cases hpass with
    | skip _ hno =>
      refine iff_of_false (hstays (by dsimp only; omega)) ?_
      intro h
      exact hno s.l (Int.le_refl _) (by omega) h.marked
    | @below m hm hlt =>
      have hge := hm.ge
      have hmid := hm.le
      exact iff_of_false (hstays (by dsimp only; omega))
        (not_fallsOff hm (Nat.le_of_lt hlt) (.inr hlt))
    | above hm hlt => rw [ih, fallsOff_above hm hlt]
    | @hit m hm heq =>
      rcases Int.lt_or_eq_of_le hm.ge with hlt | rfl
      · exact iff_of_false (hstays hlt) (not_fallsOff hm (by omega) (.inl hlt))
      · rw [ih, fallsOff_hit hm heq hbump]
        exact or_iff_right (Int.not_lt.mpr hle)

/-- Where the returned bracket can lie: in the range, empty at its left end, or one place in
front of it. -/
structure Lands (L R x y : Int) : Prop where
  ge : L - 1 ≤ x
  le : y ≤ R
  order : x ≤ y ∨ x = L ∧ y = L - 1
  off : x < L → y = L - 1

theorem Outcome.lands (hout : Outcome T s x y) (hs : Explored T L R s) (hb : Bounds T L R s) :
    Lands L R x y := by
  obtain ⟨hl, hr, hleft, hleft', hlr, hright⟩ := hb
  cases hout with
  | missed hf =>
    obtain ⟨heq, hR, -⟩ := hs.missed hf
    exact ⟨by omega, by omega, .inr ⟨heq, by omega⟩, fun _ => by omega⟩
  | bracket _ hx =>
    obtain ⟨hge, hle, -, -⟩ := hx
    exact ⟨by omega, by omega, .inl hle, fun _ => by omega⟩

/-- The bracket lies in front of the range exactly when the search falls off. -/
theorem Outcome.off_iff (hout : Outcome T s x y) (hrun : Passes T v bump (.start L R a) s)
    (hbump : ∀ a, bump a ≠ a) (hLR : L ≤ R + 1) : x < L ↔ FallsOff T v bump L R a := by
  have hs := Passes.explored hrun.1 explored_start
  obtain ⟨hl, hr, hleft, hleft', hlr, hright⟩ := Passes.bounds hrun.1 (bounds_start hLR)
  have hoff : s.r < L ↔ R < L ∨ FallsOff T v bump L R a :=
    Passes.fallsOff hrun.1 hrun.2 hbump hLR
  cases hout with
  | missed hf =>
    obtain ⟨heq, hR, hnone⟩ := hs.missed hf
    refine iff_of_false (by omega) ?_
    intro h
    have hle := h.le
    have hend := hrun.2
    exact hnone L (Int.le_refl L) (by omega) h.marked
  | bracket hf hx =>
    obtain ⟨k, hk, hkR, -⟩ := hs.found hf
    obtain ⟨hge, hle, -, -⟩ := hx
    constructor
    · intro hlt
      exact (hoff.mp (by omega)).resolve_left (by omega)
    · intro h
      have := hoff.mpr (.inr h)
      omega

/-! ### A search that is left with an empty range inside -/

/-- Halving from `[l, r]` on, `p` is the first place that is probed. -/
inductive FirstProbe (T : Int → Prop) (p : Int) : Int → Int → Prop
  | here {l r : Int} : Probe T l r p → FirstProbe T p l r
  | skip {l r : Int} : l ≤ r → (∀ k, l ≤ k → k ≤ (l + r) / 2 → ¬ T k) →
      FirstProbe T p ((l + r) / 2 + 1) r → FirstProbe T p l r

/-- The first probe is a hit, after which the search falls off to the left. -/
structure Rewinds (T : Int → Prop) (v : Int → ℕ) (bump : ℕ → ℕ) (p l r : Int) (a : ℕ) : Prop where
  first : FirstProbe T p l r
  value : v p = a
  off : FallsOff T v bump p r (bump a)

theorem firstProbe_skip {l r : Int} (hle : l ≤ r)
    (hno : ∀ k, l ≤ k → k ≤ (l + r) / 2 → ¬ T k) :
    FirstProbe T p l r ↔ FirstProbe T p ((l + r) / 2 + 1) r := by
  constructor
  · intro h
    cases h with
    | here hm => exact absurd hm.marked (hno p hm.ge hm.le)
    | skip _ _ h => exact h
  · exact .skip hle hno

theorem FirstProbe.eq {l r : Int} (h : FirstProbe T p l r) (hm : Probe T l r m) : m = p := by
  cases h with
  | here hm' => exact hm.unique hm'
  | skip _ hno _ => exact absurd hm.marked (hno m hm.ge hm.le)

theorem Passes.left_eq (h : ReflTransGen (Pass T v bump) s t) : t.left = s.left ∨ T t.left := by
  induction h with
  | refl => exact .inl rfl
  | tail _ hpass ih =>
    cases hpass with
    | skip _ _ => exact ih
    | below hm _ => exact .inr hm.marked
    | above _ _ => exact ih
    | hit hm _ => exact .inr hm.marked

/-- A bracket that starts at a place that is not marked starts there because the range has become
empty behind it. -/
theorem Outcome.eq_iff (hout : Outcome T s x y) (hrun : Passes T v bump (.start L R a) s)
    (hLR : L ≤ R + 1) (hLp : L < p) (hT : ¬ T p) :
    x = p ↔ s.left = p + 1 ∧ s.r = p := by
  have hs := Passes.explored hrun.1 explored_start
  obtain ⟨hl, hr, hleft, hleft', hlr, hright⟩ := Passes.bounds hrun.1 (bounds_start hLR)
  have hmark : s.left = L ∨ T s.left := Passes.left_eq hrun.1
  have hend := hrun.2
  cases hout with
  | missed hf =>
    obtain ⟨heq, -, -⟩ := hs.missed hf
    exact iff_of_false (by omega) (by omega)
  | bracket hf hx =>
    obtain ⟨hge, hle, hmin, -⟩ := hx
    constructor
    · rintro rfl
      have hx : x = min s.left s.right := hmin.resolve_right hT
      have hne : s.left ≠ x := by
        intro heq
        rcases hmark with hL | hTl
        · omega
        · exact hT (heq ▸ hTl)
      omega
    · omega

/-- No place in front of `p` is probed when none is marked there. -/
theorem Probe.ge_of_none (hm : Probe T l r m) (hnone : ∀ k, l ≤ k → k < p → ¬ T k) : p ≤ m := by
  by_contra hlt
  exact hnone m hm.ge (by omega) hm.marked

theorem Pass.ge_of_lt {u : Bisection} (hpass : Pass T v bump s u)
    (hrest : ReflTransGen (Pass T v bump) u t) (hlt : p < u.l) : p ≤ t.r := by
  have := Passes.right_ge hrest hpass.ordered
  omega

/-- The target wraps in a search that is left with `[p, p - 1]` after a hit at `p`. -/
theorem Passes.wraps (hrun : ReflTransGen (Pass T v bump) s t) (hend : t.r < t.l)
    (hbump : ∀ a, bump a ≠ a) (hl : s.l ≤ p) (hleft : s.left < p)
    (hnone : ∀ k, s.l ≤ k → k < p → ¬ T k) (hp : t.left = p) (hr : t.r = p - 1) :
    bump s.target < s.target := by
  induction hrun using ReflTransGen.head_induction_on with
  | refl => omega
  | @head s u hpass hrest ih =>
    have hlp : u.l ≤ p := by
      by_contra hlt
      have := hpass.ge_of_lt hrest (Int.not_le.mp hlt)
      omega
    cases hpass with
    | skip hle hno =>
      refine ih hlp hleft ?_
      intro k hk hkp
      dsimp only at hk
      exact hnone k (by omega) hkp
    | @below m hm hlt =>
      have hpm := hm.ge_of_none hnone
      have hmid := hm.le
      dsimp only at hlp
      omega
    | above hm hlt => exact ih hl hleft hnone
    | @hit m hm heq =>
      obtain rfl : m = p := Int.le_antisymm hlp (hm.ge_of_none hnone)
      have hmid := hm.le
      have hle := hm.le_right
      have hoff := (Passes.fallsOff hrest hend hbump (by dsimp only; omega)).mp
        (by dsimp only; omega)
      have hfalls := hoff.resolve_left (by dsimp only; omega)
      have hne := hbump s.target
      rcases hfalls.above m (leftProbe_left hm.marked (by dsimp only; omega)) with
        habove | ⟨-, heq', -⟩
      · dsimp only at habove
        omega
      · dsimp only at heq'
        omega

/-- A first probe that is not above the target decides whether the search rewinds. -/
theorem not_rewinds (hm : Probe T l r m) (h : v m < a ∨ m ≠ p) : ¬ Rewinds T v bump p l r a := by
  rintro ⟨hfirst, hval, -⟩
  obtain rfl := hfirst.eq hm
  omega

theorem rewinds_skip (hle : l ≤ r) (hno : ∀ k, l ≤ k → k ≤ (l + r) / 2 → ¬ T k) :
    Rewinds T v bump p l r a ↔ Rewinds T v bump p ((l + r) / 2 + 1) r a := by
  constructor
  · rintro ⟨hfirst, hval, hoff⟩
    exact ⟨(firstProbe_skip hle hno).mp hfirst, hval, hoff⟩
  · rintro ⟨hfirst, hval, hoff⟩
    exact ⟨.skip hle hno hfirst, hval, hoff⟩

/-- After a hit at `p`, the search is left with `[p, p - 1]` exactly when it falls off there. -/
theorem HitAt.rewinds (hhit : HitAt T v p s)
    (hrest : ReflTransGen (Pass T v bump) (s.after bump p) t) (hend : t.r < t.l)
    (hbump : ∀ a, bump a ≠ a) (hb : Bounds T L R s) :
    t.left = p ∧ t.r = p - 1 ↔ Rewinds T v bump p s.l s.r s.target := by
  obtain ⟨-, -, hleft_ge, hleft_le, hlr, -⟩ := Passes.bounds hrest (hhit.bounds hb)
  have hmid := hhit.probe.le
  have hle := hhit.probe.le_right
  have hordered : (s.after bump p).l ≤ (s.after bump p).r + 1 := by
    dsimp only [Bisection.after]
    omega
  have hright := Passes.right_ge hrest hordered
  have hoff := Passes.fallsOff hrest hend hbump hordered
  dsimp only [Bisection.after] at hright hoff
  constructor
  · rintro ⟨-, hr⟩
    exact ⟨.here hhit.probe, hhit.value, (hoff.mp (by omega)).resolve_left (by omega)⟩
  · rintro ⟨-, -, hfalls⟩
    have hr := hoff.mpr (.inr hfalls)
    omega

/-- When no value is above the target, the search is left with `[p, p - 1]` exactly when it
rewinds. -/
theorem Passes.rewinds (hrun : ReflTransGen (Pass T v bump) s t) (hend : t.r < t.l)
    (hbump : ∀ a, bump a ≠ a) (hmax : ∀ k, v k ≤ s.target) (hl : s.l ≤ p) (hb : Bounds T L R s)
    (hleft : s.left < p) (hnone : ∀ k, s.l ≤ k → k < p → ¬ T k) :
    t.left = p ∧ t.r = p - 1 ↔ Rewinds T v bump p s.l s.r s.target := by
  induction hrun using ReflTransGen.head_induction_on with
  | refl =>
    refine iff_of_false (by omega) ?_
    intro h
    have := h.off.le
    omega
  | @head s u hpass hrest ih =>
    have hleaves : p < u.l → ¬ (t.left = p ∧ t.r = p - 1) := by
      rintro hlt ⟨-, hr⟩
      have := hpass.ge_of_lt hrest hlt
      omega
    have hb' := hpass.bounds hb
    cases hpass with
    | skip hle hno =>
      rcases Int.lt_or_le p ((s.l + s.r) / 2 + 1) with hlt | hlp
      · refine iff_of_false (hleaves hlt) ?_
        intro h
        exact hno p hl (by omega) h.off.marked
      · rw [rewinds_skip hle hno]
        refine ih hmax hlp hb' hleft ?_
        intro k hk hkp
        dsimp only at hk
        exact hnone k (by omega) hkp
    | @below m hm hlt =>
      have hpm := hm.ge_of_none hnone
      have hmid := hm.le
      exact iff_of_false (hleaves (by dsimp only; omega)) (not_rewinds hm (.inl hlt))
    | @above m hm hlt =>
      have := hmax m
      omega
    | @hit m hm heq =>
      rcases Int.lt_or_eq_of_le (hm.ge_of_none hnone) with hlt | rfl
      · exact iff_of_false (hleaves hlt) (not_rewinds hm (.inr (by omega)))
      · exact HitAt.rewinds ⟨hm, heq⟩ hrest hend hbump hb

theorem Outcome.right_eq (hout : Outcome T s x y) (hxy : x ≤ y) : y = s.right := by
  cases hout with
  | missed _ => omega
  | bracket _ _ => rfl

/-- A bracket that starts at an unmarked place with only unmarked places before it. -/
theorem Outcome.wraps (hout : Outcome T s x y) (hrun : Passes T v bump (.start L R a) s)
    (hbump : ∀ a, bump a ≠ a) (hLR : L ≤ R + 1) (hLp : L < p)
    (hnone : ∀ k, L ≤ k → k ≤ p → ¬ T k) (hx : x = p) : bump a < a := by
  obtain ⟨hleft, hr⟩ :=
    (hout.eq_iff hrun hLR hLp (hnone p (Int.le_of_lt hLp) (Int.le_refl p))).mp hx
  exact Passes.wraps (p := p + 1) hrun.1 hrun.2 hbump
    (by dsimp only [Bisection.start]; omega) (by dsimp only [Bisection.start]; omega)
    (fun k hk hkp => hnone k hk (by omega)) hleft (by omega)

theorem Outcome.rewinds_iff (hout : Outcome T s x y) (hrun : Passes T v bump (.start L R a) s)
    (hbump : ∀ a, bump a ≠ a) (hLR : L ≤ R + 1) (hLp : L < p)
    (hnone : ∀ k, L ≤ k → k ≤ p → ¬ T k) (hmax : ∀ k, v k ≤ a) :
    x = p ↔ Rewinds T v bump (p + 1) L R a := by
  rw [hout.eq_iff hrun hLR hLp (hnone p (Int.le_of_lt hLp) (Int.le_refl p))]
  have hrewinds := Passes.rewinds (p := p + 1) hrun.1 hrun.2 hbump hmax
    (by dsimp only [Bisection.start]; omega) (bounds_start hLR)
    (by dsimp only [Bisection.start]; omega) (fun k hk hkp => hnone k hk (by omega))
  rw [Int.add_sub_cancel] at hrewinds
  exact hrewinds

end Prog
