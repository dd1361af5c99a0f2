import Jos.Prog.Bisection

/-!
Where a binary search lands when the values come in any order: at the place to which the values of
all the places that are looked at point, unless the target wraps on the way. Nothing here depends
on the program that is verified.
-/
namespace Prog

open Relation

/-- Halving `[l, r]` in the search for a target, the search looks at `m`, and the target is then
`b`. -/
inductive Looks (T : Int → Prop) (v : Int → ℕ) (bump : ℕ → ℕ) (m : Int) (b : ℕ) :
    Int → Int → ℕ → Prop
  | here {l r : Int} : Probe T l r m → Looks T v bump m b l r b
  | skip {l r : Int} {a : ℕ} : l ≤ r → (∀ k, l ≤ k → k ≤ (l + r) / 2 → ¬ T k) →
      Looks T v bump m b ((l + r) / 2 + 1) r a → Looks T v bump m b l r a
  | low {l r p : Int} {a : ℕ} : Probe T l r p → v p < a →
      Looks T v bump m b ((l + r) / 2 + 1) r a → Looks T v bump m b l r a
  | high {l r p : Int} {a : ℕ} : Probe T l r p → a < v p →
      Looks T v bump m b l (p - 1) a → Looks T v bump m b l r a
  | hit {l r p : Int} {a : ℕ} : Probe T l r p → v p = a →
      Looks T v bump m b p r (bump a) → Looks T v bump m b l r a

/-- Every place that is looked at lies on the side of `k` that its value tells. -/
def Led (T : Int → Prop) (v : Int → ℕ) (bump : ℕ → ℕ) (l r : Int) (a : ℕ) (k : Int) : Prop :=
  ∀ m b, Looks T v bump m b l r a → (v m ≤ b ↔ m ≤ k)

/-- The place behind `k` is looked at twice: it is not above the target at first, and above it
when the target has wrapped. -/
def Slips (T : Int → Prop) (v : Int → ℕ) (bump : ℕ → ℕ) (l r : Int) (a : ℕ) (k : Int) : Prop :=
  ∃ b c, Looks T v bump (k + 1) b l r a ∧ v (k + 1) ≤ b ∧
    Looks T v bump (k + 1) c l r a ∧ c < v (k + 1)

variable {T : Int → Prop} {v : Int → ℕ} {bump : ℕ → ℕ} {s t u : Bisection}
  {L R l r x y k m : Int} {a b : ℕ}

/-! ### What is looked at -/

theorem Looks.le (h : Looks T v bump m b l r a) : l ≤ r := by
  cases h with
  | here hm => exact hm.le_right
  | skip hle _ _ => exact hle
  | low hm _ _ => exact hm.le_right
  | high hm _ _ => exact hm.le_right
  | hit hm _ _ => exact hm.le_right

theorem Looks.mem (h : Looks T v bump m b l r a) : l ≤ m ∧ m ≤ r ∧ T m := by
  induction h with
  | here hm =>
    obtain ⟨hle, hge, hmid, hT, -⟩ := hm
    exact ⟨hge, by omega, hT⟩
  | skip hle _ _ ih => exact ⟨by omega, ih.2.1, ih.2.2⟩
  | low hm _ _ ih =>
    have hle := hm.le_right
    exact ⟨by omega, ih.2.1, ih.2.2⟩
  | high hm _ _ ih =>
    have hmid := hm.le
    have hle := hm.le_right
    exact ⟨ih.1, by omega, ih.2.2⟩
  | hit hm _ _ ih =>
    have hge := hm.ge
    exact ⟨by omega, ih.2.1, ih.2.2⟩

theorem Led.not_slips (h : Led T v bump l r a k) : ¬ Slips T v bump l r a k := by
  rintro ⟨b, -, hlook, hle, -⟩
  have := (h _ _ hlook).mp hle
  omega

/-- What is looked at from a state on: the place of the next pass, and what follows. -/
theorem Pass.looks (h : Pass T v bump s u) (hlook : Looks T v bump m b s.l s.r s.target) :
    Probe T s.l s.r m ∧ b = s.target ∨ Looks T v bump m b u.l u.r u.target := by
  generalize ha : s.target = c at hlook
  cases hlook with
  | here hm => exact .inl ⟨hm, rfl⟩
  | skip hle hno hrest =>
    right
    cases h with
    | skip _ _ => exact ha ▸ hrest
    | below hm _ => exact absurd hm.marked (hno _ hm.ge hm.le)
    | above hm _ => exact absurd hm.marked (hno _ hm.ge hm.le)
    | hit hm _ => exact absurd hm.marked (hno _ hm.ge hm.le)
  | low hp hlt hrest =>
    right
    cases h with
    | skip _ hno => exact absurd hp.marked (hno _ hp.ge hp.le)
    | below _ _ => exact ha ▸ hrest
    | above hm hgt =>
      obtain rfl := hm.unique hp
      omega
    | hit hm heq =>
      obtain rfl := hm.unique hp
      omega
  | high hp hgt hrest =>
    right
    cases h with
    | skip _ hno => exact absurd hp.marked (hno _ hp.ge hp.le)
    | below hm hlt =>
      obtain rfl := hm.unique hp
      omega
    | above hm _ =>
      obtain rfl := hm.unique hp
      exact ha ▸ hrest
    | hit hm heq =>
      obtain rfl := hm.unique hp
      omega
  | hit hp heq hrest =>
    right
    cases h with
    | skip _ hno => exact absurd hp.marked (hno _ hp.ge hp.le)
    | below hm hlt =>
      obtain rfl := hm.unique hp
      omega
    | above hm hgt =>
      obtain rfl := hm.unique hp
      omega
    | hit hm _ =>
      obtain rfl := hm.unique hp
      exact ha ▸ hrest

/-- A pass looks at nothing that was not to be looked at before it. -/
theorem Looks.of_pass (h : Pass T v bump s u) (hlook : Looks T v bump m b u.l u.r u.target) :
    Looks T v bump m b s.l s.r s.target := by
  cases h with
  | skip hle hno => exact .skip hle hno hlook
  | below hm hlt => exact .low hm hlt hlook
  | above hm hgt => exact .high hm hgt hlook
  | hit hm heq => exact .hit hm heq hlook

theorem Led.pass (h : Pass T v bump s u) (hled : Led T v bump s.l s.r s.target k) :
    Led T v bump u.l u.r u.target k :=
  fun m b hlook => hled m b (.of_pass h hlook)

/-! ### What it does to the bracket -/

theorem Pass.left_le (h : Pass T v bump s u) (hs : s.left ≤ s.l) : s.left ≤ u.left := by
  cases h with
  | skip _ _ => exact Int.le_refl _
  | below hm _ => exact Int.le_trans hs hm.ge
  | above _ _ => exact Int.le_refl _
  | hit hm _ => exact Int.le_trans hs hm.ge

/-- The bracket only shrinks. -/
theorem Passes.shrinks (h : ReflTransGen (Pass T v bump) s t) (hb : Bounds T L R s) :
    s.left ≤ t.left ∧ t.r ≤ s.r := by
  induction h with
  | refl => exact ⟨Int.le_refl _, Int.le_refl _⟩
  | tail hrun hpass ih =>
    have hleft := hpass.left_le (Passes.bounds hrun hb).left_le
    exact ⟨Int.le_trans ih.1 hleft, Int.le_trans hpass.within.2 ih.2⟩

/-- The bracket does not start in front of a place that was not above the target. -/
theorem Passes.le_left (hrun : ReflTransGen (Pass T v bump) s t) (hend : t.r < t.l)
    (hb : Bounds T L R s) (hlook : Looks T v bump m b s.l s.r s.target) (hle : v m ≤ b) :
    m ≤ t.left := by
  induction hrun using ReflTransGen.head_induction_on with
  | refl =>
    have := hlook.le
    omega
  | @head s u hpass hrest ih =>
    rcases hpass.looks hlook with ⟨hm, rfl⟩ | hlook
    · have hmono := (Passes.shrinks hrest (hpass.bounds hb)).1
      cases hpass with
      | skip _ hno => exact absurd hm.marked (hno _ hm.ge hm.le)
      | below hp _ =>
        obtain rfl := hm.unique hp
        exact hmono
      | above hp hgt =>
        obtain rfl := hm.unique hp
        omega
      | hit hp _ =>
        obtain rfl := hm.unique hp
        exact hmono
    · exact ih (hpass.bounds hb) hlook

/-- The bracket ends in front of a place that was above the target. -/
theorem Passes.right_lt (hrun : ReflTransGen (Pass T v bump) s t) (hend : t.r < t.l)
    (hb : Bounds T L R s) (hlook : Looks T v bump m b s.l s.r s.target) (hlt : b < v m) :
    t.r < m := by
  induction hrun using ReflTransGen.head_induction_on with
  | refl =>
    have := hlook.le
    omega
  | @head s u hpass hrest ih =>
    rcases hpass.looks hlook with ⟨hm, rfl⟩ | hlook
    · have hmono := (Passes.shrinks hrest (hpass.bounds hb)).2
      cases hpass with
      | skip _ hno => exact absurd hm.marked (hno _ hm.ge hm.le)
      | below hp hlt' =>
        obtain rfl := hm.unique hp
        omega
      | above hp _ =>
        obtain rfl := hm.unique hp
        dsimp only at hmono
        omega
      | hit hp heq =>
        obtain rfl := hm.unique hp
        omega
    · exact ih (hpass.bounds hb) hlook

/-- The place to which the search is led stays inside the bracket. -/
theorem Passes.led (hrun : ReflTransGen (Pass T v bump) s t)
    (hled : Led T v bump s.l s.r s.target k) (hk : s.left ≤ k) (hkr : k ≤ s.r) :
    t.left ≤ k ∧ k ≤ t.r := by
  induction hrun using ReflTransGen.head_induction_on with
  | refl => exact ⟨hk, hkr⟩
  | @head s u hpass hrest ih =>
    have hrest := ih (hled.pass hpass)
    cases hpass with
    | skip _ _ => exact hrest hk hkr
    | below hm hlt => exact hrest ((hled _ _ (.here hm)).mp (Nat.le_of_lt hlt)) hkr
    | above hm hgt =>
      have hkm : ¬ _ ≤ k := fun h => absurd ((hled _ _ (.here hm)).mpr h) (Nat.not_le.mpr hgt)
      refine hrest hk ?_
      dsimp only
      omega
    | hit hm heq => exact hrest ((hled _ _ (.here hm)).mp (Nat.le_of_eq heq)) hkr

/-- The bracket is made of the nearest marked places on both sides, or of the ends of the range. -/
structure Nearest (T : Int → Prop) (L R : Int) (s : Bisection) : Prop where
  left_eq : s.left = L ∨ T s.left
  last : ∀ k, s.left < k → k < s.l → ¬ T k
  right_next : s.r = R ∨ T (s.r + 1)

theorem nearest_start : Nearest T L R (.start L R a) where
  left_eq := .inl rfl
  last _ hlt hlt' _ := absurd hlt (Int.lt_asymm hlt')
  right_next := .inl rfl

theorem Pass.nearest (h : Pass T v bump s u) (hs : Nearest T L R s) : Nearest T L R u := by
  obtain ⟨hleft, hlast, hnext⟩ := hs
  cases h with
  | skip hle hno =>
    refine ⟨hleft, ?_, hnext⟩
    intro k hk hlt
    rcases Int.lt_or_le k s.l with hkl | hkl
    · exact hlast k hk hkl
    · exact hno k hkl (by dsimp only at hlt; omega)
  | below hm _ =>
    refine ⟨.inr hm.marked, ?_, hnext⟩
    intro k hk hlt
    exact hm.last k hk (by dsimp only at hlt; omega)
  | above hm _ =>
    refine ⟨hleft, hlast, .inr ?_⟩
    dsimp only
    rw [Int.sub_add_cancel]
    exact hm.marked
  | hit hm _ => exact ⟨.inr hm.marked, fun k hk hlt => absurd hk (Int.lt_asymm hlt), hnext⟩

theorem Passes.nearest (h : ReflTransGen (Pass T v bump) s t) (hs : Nearest T L R s) :
    Nearest T L R t := by
  induction h with
  | refl => exact hs
  | tail _ hpass ih => exact hpass.nearest ih

/-- The left end has been looked at, unless it is that of the range. -/
theorem Passes.left_looked (h : ReflTransGen (Pass T v bump) s t) :
    t.left = s.left ∨ ∃ b, Looks T v bump t.left b s.l s.r s.target ∧ v t.left ≤ b := by
  induction h using ReflTransGen.head_induction_on with
  | refl => exact .inl rfl
  | @head s u hpass _ ih =>
    rcases ih with heq | ⟨b, hlook, hle⟩
    · rw [heq]
      cases hpass with
      | skip _ _ => exact .inl rfl
      | below hm hlt => exact .inr ⟨_, .here hm, Nat.le_of_lt hlt⟩
      | above _ _ => exact .inl rfl
      | hit hm hval => exact .inr ⟨_, .here hm, Nat.le_of_eq hval⟩
    · exact .inr ⟨b, .of_pass hpass hlook, hle⟩

/-- The place behind the right end has been looked at, unless the range ends there. -/
theorem Passes.right_looked (h : ReflTransGen (Pass T v bump) s t) :
    t.r = s.r ∨ ∃ b, Looks T v bump (t.r + 1) b s.l s.r s.target ∧ b < v (t.r + 1) := by
  induction h using ReflTransGen.head_induction_on with
  | refl => exact .inl rfl
  | @head s u hpass _ ih =>
    rcases ih with heq | ⟨b, hlook, hlt⟩
    · rw [heq]
      cases hpass with
      | skip _ _ => exact .inl rfl
      | below _ _ => exact .inl rfl
      | above hm hgt =>
        right
        dsimp only
        rw [Int.sub_add_cancel]
        exact ⟨_, .here hm, hgt⟩
      | hit _ _ => exact .inl rfl
    · exact .inr ⟨b, .of_pass hpass hlook, hlt⟩

/-! ### What is returned -/

/-- The bracket starts at its left end, and has no marked place behind it. -/
theorem Edge.eq_left (h : Edge T s.left s.r x) (hn : Nearest T L R s) (hend : s.r < s.l)
    (hle : s.left ≤ s.r) : x = s.left := by
  obtain ⟨hge, hxr, hmark, -⟩ := h
  by_contra hne
  have hT : T x := hmark.resolve_left (by omega)
  exact hn.last x (by omega) (by omega) hT

theorem Outcome.found (hout : Outcome T s x y) (hxy : x ≤ y) : s.found = true := by
  cases hout with
  | missed _ => omega
  | bracket hf _ => exact hf

/-- A bracket inside the range starts at the place to which the search is led, and ends before the
next marked one; or the search has slipped. -/
theorem Outcome.led_or_slips (hout : Outcome T s x y) (hrun : Passes T v bump (.start L R a) s)
    (hLR : L ≤ R + 1) (hx : L ≤ x) (hxy : x ≤ y) :
    (x = L ∨ T x) ∧ Led T v bump L R a x ∧ (y = R ∨ T (y + 1)) ∧ y ≤ R ∧
        (∀ k, x < k → k ≤ y → ¬ T k) ∨
      y = x ∧ Slips T v bump L R a x := by
  have hb₀ := bounds_start (T := T) (a := a) hLR
  have hn := Passes.nearest hrun.1 nearest_start
  have hend := hrun.2
  obtain ⟨hl, hr, hleft, hleft', hlr, hright⟩ := Passes.bounds hrun.1 hb₀
  cases hout with
  | missed _ => omega
  | bracket hf hedge =>
    rw [hright] at hedge hxy ⊢
    rcases Int.lt_or_le s.r s.left with hlt | hle
    · -- the place at the left end has been looked at from both sides
      right
      have hxr := hedge.eq_of_lt hlt
      have heq : s.left = x + 1 := by omega
      refine ⟨hxr.symm, ?_⟩
      rcases Passes.left_looked hrun.1 with hL | ⟨b, hlow, hlow'⟩
      · change s.left = L at hL
        omega
      rcases Passes.right_looked hrun.1 with hR | ⟨c, hhigh, hhigh'⟩
      · have hmem := hlow.mem
        change L ≤ s.left ∧ s.left ≤ R ∧ T s.left at hmem
        change s.r = R at hR
        omega
      rw [heq] at hlow hlow'
      rw [← hxr] at hhigh hhigh'
      exact ⟨b, c, hlow, hlow', hhigh, hhigh'⟩
    · left
      obtain rfl := hedge.eq_left hn hend hle
      refine ⟨hn.left_eq, fun m b hlook => ⟨?_, ?_⟩, hn.right_next, hr, hedge.last⟩
      · exact Passes.le_left hrun.1 hend hb₀ hlook
      · intro hm
        by_contra hgt
        have := Passes.right_lt hrun.1 hend hb₀ hlook (Nat.not_le.mp hgt)
        omega

/-- The search returns the place to which it is led. -/
theorem Outcome.eq_of_led (hout : Outcome T s x y) (hrun : Passes T v bump (.start L R a) s)
    (hLR : L ≤ R + 1) (hfound : s.found = true) (hk : L ≤ k) (hkR : k ≤ R) (hT : k = L ∨ T k)
    (hled : Led T v bump L R a k) : x = k ∧ k ≤ y := by
  have hn := Passes.nearest hrun.1 nearest_start
  have hb := Passes.bounds hrun.1 (bounds_start hLR)
  have hend := hrun.2
  obtain ⟨hleft, hright⟩ := Passes.led hrun.1 hled hk hkR
  have hge := hb.left_ge
  have heq : s.left = k := by
    by_contra hne
    exact hn.last k (by omega) (by omega) (hT.resolve_left (by omega))
  cases hout with
  | missed hf => exact absurd (hfound.symm.trans hf) (by decide)
  | bracket _ hedge =>
    rw [hb.right_eq] at hedge ⊢
    exact ⟨(hedge.eq_left hn hend (by omega)).trans heq, hright⟩

/-- Something was found when a place of the range is marked. -/
theorem Passes.found_of_marked (hrun : Passes T v bump (.start L R a) s) (hk : L ≤ k) (hkR : k ≤ R)
    (hT : T k) : s.found = true := by
  have hs := Passes.explored hrun.1 explored_start
  have hend := hrun.2
  by_contra hne
  obtain ⟨-, hR, hnone⟩ := hs.missed (eq_false_of_ne_true hne)
  exact hnone k hk (by omega) hT

theorem Outcome.eq_of_slips (hout : Outcome T s x y) (hrun : Passes T v bump (.start L R a) s)
    (hLR : L ≤ R + 1) (hslips : Slips T v bump L R a k) : x = k ∧ y = k := by
  obtain ⟨b, c, hlow, hlow', hhigh, hhigh'⟩ := hslips
  have hb₀ := bounds_start (T := T) (a := a) hLR
  have hb := Passes.bounds hrun.1 hb₀
  obtain ⟨hmem, hmem', hT⟩ := hlow.mem
  have hfound := Passes.found_of_marked hrun hmem hmem' hT
  have hleft := Passes.le_left hrun.1 hrun.2 hb₀ hlow hlow'
  have hright := Passes.right_lt hrun.1 hrun.2 hb₀ hhigh hhigh'
  have hleft' := hb.left_le
  have hlr := hb.l_le
  cases hout with
  | missed hf => exact absurd (hfound.symm.trans hf) (by decide)
  | bracket _ hedge =>
    rw [hb.right_eq] at hedge ⊢
    have := hedge.eq_of_lt (by omega)
    omega

end Prog
