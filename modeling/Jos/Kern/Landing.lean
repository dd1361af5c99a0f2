import Jos.Kern.Eip
import Jos.Prog.Halving

/-! Where `stab_binsearch` lands in a table in any order. -/
namespace Jos

open Prog

variable {stabs : List Stab} {type addr : BitVec 32} {L R x y x' y' k : Int} {S : Set Int}

/-- Every entry of the type that halving `[L, R]` looks at lies on the side of `k` that its value
tells. -/
def LedTo (stabs : List Stab) (type addr : BitVec 32) (L R k : Int) : Prop :=
  Led (OfType stabs type) (valueAt stabs) bump L R addr.toNat k

/-- The entry behind `k` is looked at before and after the target has wrapped. -/
def SlipsTo (stabs : List Stab) (type addr : BitVec 32) (L R k : Int) : Prop :=
  Slips (OfType stabs type) (valueAt stabs) bump L R addr.toNat k

/-- Halving leads to the entry `x` of the type, whose region ends at `y`. -/
structure Meets (stabs : List Stab) (type addr : BitVec 32) (L R x y : Int) : Prop where
  mem : x ∈ entries stabs type L R
  led : LedTo stabs type addr L R x
  ends : EndsBefore {k ∈ entries stabs type L R | x < k} R y

/-- The bracket that is returned, told by the table and by what halving looks at. -/
inductive Landing (stabs : List Stab) (type addr : BitVec 32) (L R : Int) : Int → Int → Prop
  | none : entries stabs type L R = ∅ → Landing stabs type addr L R L (L - 1)
  | found {x y : Int} : Meets stabs type addr L R x y → Landing stabs type addr L R x y
  | before {y : Int} : IsLeast (entries stabs type L R) (y + 1) → L ≤ y →
      LedTo stabs type addr L R L → Landing stabs type addr L R L y
  | slips {x : Int} : SlipsTo stabs type addr L R x → L ≤ x → Landing stabs type addr L R x x
  | off : FallsOff (OfType stabs type) (valueAt stabs) bump L R addr.toNat →
      Landing stabs type addr L R (L - 1) (L - 1)

theorem Finds.unique (h : Finds stabs L R type addr x y) (h' : Finds stabs L R type addr x' y') :
    x = x' ∧ y = y' :=
  Prod.mk.inj (Except.ok.inj (Settles.unique h h'))

/-! ### Ends of regions -/

theorem EndsBefore.lt (h : EndsBefore S R y) (hk : k ∈ S) : y < k := by
  rcases h with hleast | ⟨hempty, -⟩
  · exact hleast.2 hk
  · rw [hempty] at hk
    exact absurd hk (Set.notMem_empty k)

theorem EndsBefore.unique (h : EndsBefore S R y) (h' : EndsBefore S R y') : y = y' := by
  rcases h with hleast | ⟨hempty, rfl⟩
  · rcases h' with hleast' | ⟨hempty', -⟩
    · have := hleast.unique hleast'
      omega
    · exact absurd hleast.1 (hempty' ▸ Set.notMem_empty _)
  · rcases h' with hleast' | ⟨-, rfl⟩
    · exact absurd hleast'.1 (hempty ▸ Set.notMem_empty _)
    · rfl

theorem EndsBefore.le (h : EndsBefore {k ∈ entries stabs type L R | x < k} R y) (hx : x ≤ R) :
    x ≤ y ∧ y ≤ R := by
  rcases h with ⟨⟨⟨-, hyR, -⟩, hlt⟩, -⟩ | ⟨-, rfl⟩
  · omega
  · exact ⟨hx, Int.le_refl y⟩

/-- Regions do not overlap. -/
theorem region_unique (hx : x ∈ entries stabs type L R) (hx' : x' ∈ entries stabs type L R)
    (hy : EndsBefore {k ∈ entries stabs type L R | x < k} R y)
    (hy' : EndsBefore {k ∈ entries stabs type L R | x' < k} R y')
    (hk : x ≤ k) (hky : k ≤ y) (hk' : x' ≤ k) (hky' : k ≤ y') : x = x' ∧ y = y' := by
  rcases Int.lt_trichotomy x x' with hlt | rfl | hgt
  · have := hy.lt ⟨hx', hlt⟩
    omega
  · exact ⟨rfl, hy.unique hy'⟩
  · have := hy'.lt ⟨hx, hgt⟩
    omega

/-! ### What halving looks at -/

theorem SlipsTo.mem (h : SlipsTo stabs type addr L R k) : k + 1 ∈ entries stabs type L R := by
  obtain ⟨b, -, hlook, -⟩ := h
  exact hlook.mem

section

variable (h0 : 0 ≤ L) (hLR : L ≤ R + 1) (hR : R < stabs.length)

include h0 hLR hR

theorem Finds.lands (h : Finds stabs L R type addr x y) : Lands L R x y := by
  obtain ⟨x', y', s, hrun, hlands, -⟩ := stabBinsearch_lands stabs type addr h0 hLR hR
  obtain ⟨rfl, rfl⟩ := h.unique hrun
  exact hlands

/-- The entry to which halving leads is found. -/
theorem finds_of_led (hne : (entries stabs type L R).Nonempty) (hk : L ≤ k) (hkR : k ≤ R)
    (hT : k = L ∨ OfType stabs type k) (hled : LedTo stabs type addr L R k) :
    ∃ y, Finds stabs L R type addr k y ∧ k ≤ y := by
  obtain ⟨x, y, s, hrun, -, -, hpasses, hout⟩ := stabBinsearch_lands stabs type addr h0 hLR hR
  obtain ⟨j, hj, hjR, hTj⟩ := hne
  have hfound := Passes.found_of_marked hpasses hj hjR hTj
  obtain ⟨rfl, hle⟩ := hout.eq_of_led hpasses hLR hfound hk hkR hT hled
  exact ⟨y, hrun, hle⟩

theorem finds_of_slips (hslips : SlipsTo stabs type addr L R k) :
    Finds stabs L R type addr k k := by
  obtain ⟨x, y, s, hrun, -, -, hpasses, hout⟩ := stabBinsearch_lands stabs type addr h0 hLR hR
  obtain ⟨rfl, rfl⟩ := hout.eq_of_slips hpasses hLR hslips
  exact hrun

theorem Finds.landing (h : Finds stabs L R type addr x y) : Landing stabs type addr L R x y := by
  obtain ⟨x', y', s, hrun, ⟨hge, hle, horder, hoff⟩, hfalls, hpasses, hout⟩ :=
    stabBinsearch_lands stabs type addr h0 hLR hR
  obtain ⟨rfl, rfl⟩ := h.unique hrun
  rcases Int.lt_or_le y x with hlt | hxy
  · have hnone := (hout.empty_iff (Passes.explored hpasses.1 explored_start) hpasses.2).mp hlt
    obtain ⟨rfl, rfl⟩ : x = L ∧ y = L - 1 := horder.resolve_left (by omega)
    exact .none (entries_eq_empty.mpr hnone)
  rcases Int.lt_or_le x L with hneg | hpos
  · obtain rfl := hoff hneg
    obtain rfl : x = L - 1 := by omega
    exact .off (hfalls.mp hneg)
  rcases hout.led_or_slips hpasses hLR hpos hxy with ⟨hT, hled, hnext, -, hlast⟩ | ⟨rfl, hslips⟩
  · by_cases hTx : OfType stabs type x
    · refine .found ⟨⟨hpos, by omega, hTx⟩, hled, endsBefore ?_ ?_⟩
      · rintro k ⟨⟨-, hkR, hTk⟩, hxk⟩
        refine ⟨?_, hkR⟩
        by_contra hky
        exact hlast k hxk (by omega) hTk
      · rcases Int.lt_or_eq_of_le hle with hlt | heq
        · exact .inr ⟨⟨by omega, by omega, hnext.resolve_left (by omega)⟩, by omega⟩
        · exact .inl heq
    · obtain rfl := hT.resolve_right hTx
      obtain ⟨k, hk, hkR, hTk⟩ := (Passes.explored hpasses.1 explored_start).found
        (hout.found hxy)
      have hafter : ∀ j, x ≤ j → OfType stabs type j → y < j := by
        intro j hj hTj
        by_contra hjy
        have hne : j ≠ x := fun he => hTx (he ▸ hTj)
        exact hlast j (by omega) (by omega) hTj
      have hyk := hafter k hk hTk
      refine .before ⟨⟨by omega, by omega, hnext.resolve_left (by omega)⟩, ?_⟩ hxy hled
      rintro j ⟨hj, -, hTj⟩
      exact hafter j hj hTj
  · exact .slips hslips hpos

/-- The entry to which halving leads is returned with its region. -/
theorem Meets.finds (h : Meets stabs type addr L R x y) : Finds stabs L R type addr x y := by
  obtain ⟨hmem, hled, hends⟩ := h
  obtain ⟨y', hfinds, -⟩ := finds_of_led h0 hLR hR ⟨x, hmem⟩ hmem.1 hmem.2.1 (.inr hmem.2.2) hled
  cases Finds.landing h0 hLR hR hfinds with
  | none hempty => exact absurd hmem (hempty ▸ Set.notMem_empty _)
  | found hm => rwa [hends.unique hm.ends]
  | before hleast hle _ =>
    have := hleast.2 hmem
    omega
  | slips hslips _ => exact absurd hslips hled.not_slips
  | off _ =>
    have := hmem.1
    omega

/-- The search returns the bracket where it lands. -/
theorem Landing.finds (h : Landing stabs type addr L R x y) : Finds stabs L R type addr x y := by
  obtain ⟨x', y', s, hrun, ⟨hge, hle, horder, hoff⟩, hfalls, hpasses, hout⟩ :=
    stabBinsearch_lands stabs type addr h0 hLR hR
  have hfinds : Finds stabs L R type addr x' y' := hrun
  cases h with
  | none hempty =>
    have hlt := (hfinds.empty_iff h0 hR).mpr hempty
    obtain ⟨rfl, rfl⟩ : x' = L ∧ y' = L - 1 := horder.resolve_left (by omega)
    exact hfinds
  | found hm => exact hm.finds h0 hLR hR
  | before hleast hLy hled =>
    have hmem := hleast.1
    have hRy := hmem.2.1
    obtain ⟨y'', hfirst, -⟩ :=
      finds_of_led h0 hLR hR ⟨_, hmem⟩ (Int.le_refl L) (by omega) (.inl rfl) hled
    obtain ⟨x'', hx, hlanding⟩ : ∃ x'', x'' = L ∧ Landing stabs type addr L R x'' y'' :=
      ⟨L, rfl, Finds.landing h0 hLR hR hfirst⟩
    cases hlanding with
    | none hempty => exact absurd hmem (hempty ▸ Set.notMem_empty _)
    | found hm =>
      have := hleast.2 hm.mem
      omega
    | before hleast' _ _ =>
      obtain rfl : y'' = y := by
        have := hleast.unique hleast'
        omega
      exact hfirst
    | slips hslips _ => exact absurd (hx ▸ hslips) hled.not_slips
    | off _ => omega
  | slips hslips _ => exact finds_of_slips h0 hLR hR hslips
  | off hfallsOff =>
    have hneg := hfalls.mpr hfallsOff
    obtain rfl := hoff hneg
    obtain rfl : x' = L - 1 := by omega
    exact hfinds

end

end Jos
