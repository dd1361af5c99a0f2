import Jos.Kern.StabSearch

/-! The entries of the table that `stab_binsearch` reads. -/
namespace Jos

open Prog

/-- The reads of `[L, R]`; any other is an access outside of what may be read. -/
def within (L R : Int) (read : Int → Res Stab) (k : Int) : Res Stab :=
  if L ≤ k ∧ k ≤ R then read k else .error .fault

variable {read read' : Int → Res Stab} {type addr : BitVec 32} {l m L R left : Int}
  {s t : StabSearch} {n : ℕ}

/-- The reads are the same in `[L, R]`. -/
def AgreeOn (L R : Int) (read read' : Int → Res Stab) : Prop :=
  ∀ k, L ≤ k → k ≤ R → read' k = read k

theorem agreeOn_within (L R : Int) (read : Int → Res Stab) : AgreeOn L R read (within L R read) :=
  fun _ hL hR => if_pos ⟨hL, hR⟩

/-! ### The loops read inside the range -/

theorem slideBodyBy_ok {u : Int ⊕ Int} (hm : m ≤ R) (h : slideBodyBy read type l m = .ok u) :
    Sum.elim (· ≤ R) (· ≤ R) u := by
  unfold slideBodyBy at h
  split at h
  · obtain ⟨e, -, h⟩ := bind_eq_ok.mp h
    split at h
    · obtain rfl := Except.ok.inj h
      change m - 1 ≤ R
      omega
    · obtain rfl := Except.ok.inj h
      exact hm
  · obtain rfl := Except.ok.inj h
    exact hm

theorem slide_le {x : Int} (hm : m ≤ R)
    (h : loop (slideBodyBy read type l) n m = .ok x) : x ≤ R :=
  loop_partial (I := (· ≤ R)) (R := (· ≤ R)) (fun _ _ hm hu => slideBodyBy_ok hm hu) hm h

theorem slide_congr (hagree : AgreeOn L R read read') (hl : L ≤ l) (hm : m ≤ R) (n : ℕ) :
    loop (slideBodyBy read' type l) n m = loop (slideBodyBy read type l) n m := by
  refine loop_congr (I := (· ≤ R)) ?_ ?_ hm n
  · intro m hm
    unfold slideBodyBy
    split
    · rw [hagree m (by omega) hm]
    · rfl
  · intro m t hm h
    exact slideBodyBy_ok hm h

theorem edge_congr (hagree : AgreeOn L R read read') (hl : L ≤ left) (hm : m ≤ R) (n : ℕ) :
    loop (edgeBodyBy read' type left) n m = loop (edgeBodyBy read type left) n m := by
  refine loop_congr (I := (· ≤ R)) ?_ ?_ hm n
  · intro m hm
    unfold edgeBodyBy
    split
    · rw [hagree m (by omega) hm]
    · rfl
  · intro m t hm h
    unfold edgeBodyBy at h
    split at h
    · obtain ⟨e, -, h⟩ := bind_eq_ok.mp h
      split at h
      · obtain rfl := Sum.inl.inj (Except.ok.inj h)
        omega
      · cases h
    · cases h

/-- The bounds and the bracket lie in `[L, R]`, except for ends that are behind the range. -/
structure Inside (L R : Int) (s : StabSearch) : Prop where
  l_ge : L ≤ s.l
  r_le : s.r ≤ R
  left_ge : L ≤ s.regionLeft
  right_le : s.regionRight ≤ R

theorem Inside.middle (h0 : 0 ≤ L) (hs : Inside L R s) (hle : s.l ≤ s.r) :
    s.l ≤ (s.l + s.r).tdiv 2 ∧ (s.l + s.r).tdiv 2 ≤ R := by
  obtain ⟨hl, hr, -, -⟩ := hs
  rw [Int.tdiv_eq_ediv_of_nonneg (by omega)]
  omega

/-- One pass keeps the bounds inside, and so does leaving the loop. -/
theorem Inside.pass {u : StabSearch ⊕ StabSearch} (h0 : 0 ≤ L) (hs : Inside L R s)
    (h : binsearchBodyBy read type n s = .ok u) : Sum.elim (Inside L R) (Inside L R) u := by
  unfold binsearchBodyBy at h
  split at h
  · rename_i hle
    obtain ⟨hge, hmid⟩ := hs.middle h0 hle
    obtain ⟨hl, hr, hleft, hright⟩ := hs
    obtain ⟨m, hm, h⟩ := bind_eq_ok.mp h
    have hmR : m ≤ R := slide_le hmid hm
    dsimp only at h
    split at h
    · obtain rfl := Except.ok.inj h
      exact ⟨by dsimp only; omega, hr, hleft, hright⟩
    · rename_i hin
      obtain ⟨e, -, h⟩ := bind_eq_ok.mp h
      split at h
      · obtain rfl := Except.ok.inj h
        exact ⟨by dsimp only; omega, hr, by dsimp only; omega, hright⟩
      split at h
      · obtain rfl := Except.ok.inj h
        exact ⟨hl, by dsimp only; omega, hleft, by dsimp only; omega⟩
      · obtain rfl := Except.ok.inj h
        exact ⟨by dsimp only; omega, hr, by dsimp only; omega, hright⟩
  · obtain rfl := Except.ok.inj h
    exact hs

theorem binsearchBodyBy_congr (hagree : AgreeOn L R read read') (h0 : 0 ≤ L) (n : ℕ)
    (hs : Inside L R s) : binsearchBodyBy read' type n s = binsearchBodyBy read type n s := by
  unfold binsearchBodyBy
  split
  · rename_i hle
    obtain ⟨-, hmid⟩ := hs.middle h0 hle
    dsimp only
    rw [slide_congr hagree hs.l_ge hmid]
    cases hm : loop (slideBodyBy read type s.l) n ((s.l + s.r).tdiv 2) with
    | error e => rfl
    | ok m =>
      have hmR : m ≤ R := slide_le hmid hm
      have hl := hs.l_ge
      rw [ok_bind, ok_bind]
      split
      · rfl
      · rw [hagree m (by omega) hmR]
  · rfl

/-- The search depends on the entries of its range only. -/
theorem stabBinsearchBy_congr (hagree : AgreeOn L R read read') (h0 : 0 ≤ L) (n : ℕ)
    (type addr : BitVec 32) :
    stabBinsearchBy read' n L R type addr = stabBinsearchBy read n L R type addr := by
  have hstart : Inside L R ⟨L, R, false, L, R, addr⟩ :=
    ⟨Int.le_refl L, Int.le_refl R, Int.le_refl L, Int.le_refl R⟩
  have hloop : loop (binsearchBodyBy read' type n) n ⟨L, R, false, L, R, addr⟩ =
      loop (binsearchBodyBy read type n) n ⟨L, R, false, L, R, addr⟩ :=
    loop_congr (fun s hs => binsearchBodyBy_congr hagree h0 n hs) (fun s t hs h => hs.pass h0 h)
      hstart n
  unfold stabBinsearchBy
  rw [hloop]
  cases hrun : loop (binsearchBodyBy read type n) n ⟨L, R, false, L, R, addr⟩ with
  | error e => rfl
  | ok s =>
    have hs : Inside L R s := loop_partial (fun s u hs hu => hs.pass h0 hu) hstart hrun
    rw [ok_bind, ok_bind]
    split
    · rfl
    · rw [edge_congr hagree hs.left_ge hs.right_le]

/-- The search ends on every table, and with the same result when only the entries of its range can
be read: no other entry is. -/
theorem stabBinsearch_confined (stabs : List Stab) (L R : Int) (type addr : BitVec 32)
    (h0 : 0 ≤ L) (hR : R < stabs.length) :
    ∃ x y, Finds stabs L R type addr x y ∧
      Settles (fun n => stabBinsearchBy (within L R (stabAt stabs)) n L R type addr)
        (.ok (x, y)) := by
  obtain ⟨x, y, s, hrun, -, -⟩ := stabBinsearch_settles h0 hR type addr
  refine ⟨x, y, hrun, hrun.congr fun n => ?_⟩
  exact stabBinsearchBy_congr (agreeOn_within L R (stabAt stabs)) h0 n type addr

/-- The last address, which is hit at the only entry. -/
theorem stabBinsearch_confined_top : ∃ x y,
    Finds [stab N_FUN 0xFFFFFFFF] 0 0 N_FUN 0xFFFFFFFF x y ∧
      Settles (fun n => stabBinsearchBy (within 0 0 (stabAt [stab N_FUN 0xFFFFFFFF])) n 0 0 N_FUN
        0xFFFFFFFF) (.ok (x, y)) :=
  stabBinsearch_confined [stab N_FUN 0xFFFFFFFF] 0 0 N_FUN 0xFFFFFFFF (by decide) (by decide)

end Jos
