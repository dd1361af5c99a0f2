import Jos.Kern.LineLookup

/-! `debuginfo_eip` and the number of arguments of a function. -/
namespace Jos

open Prog

variable {stabs : List Stab} {stabstr : List Byte} {addr a ret narg : BitVec 32}
  {L R lfile rfile lfun rfun lline rline x y : Int} {info info' : Eipdebuginfo} {n k m : ℕ}

/-- How many entries from `k` on are parameters, one directly after the other, before the entry
`m` at the latest. -/
def params (stabs : List Stab) (k m : ℕ) : ℕ :=
  (((stabs.take m).drop k).takeWhile fun e => e.nType.setWidth 32 = N_PSYM).length

/-- The number of parameters that directly follow `lfun` in the region `[lfun, rfun]`. -/
def argCount (stabs : List Stab) (lfun rfun : Int) : ℕ :=
  params stabs (lfun + 1).toNat (rfun + 1).toNat

/-- The search for the function around `addr` is made, and it returns the entry of a function with
this region. -/
inductive FunctionFound (stabs : List Stab) (stabstr : List Byte) (addr : BitVec 32) :
    Int → Int → Prop
  | intro {lfile rfile lfun rfun : Int} : stabstr.getLast? = some 0 →
      Finds stabs 0 (stabs.length - 1) N_SO addr lfile rfile → lfile ≠ 0 →
      Finds stabs lfile rfile N_FUN addr lfun rfun → lfun ≤ rfun → OfType stabs N_FUN lfun →
      FunctionFound stabs stabstr addr lfun rfun

/-- `narg` is the number of arguments of the function around `addr`, or 0 when there is none. -/
inductive ArgsCounted (stabs : List Stab) (stabstr : List Byte) (addr narg : BitVec 32) : Prop
  | function {lfun rfun : Int} : FunctionFound stabs stabstr addr lfun rfun →
      narg = BitVec.ofNat 32 (argCount stabs lfun rfun) → ArgsCounted stabs stabstr addr narg
  | none : (∀ lfun rfun, ¬ FunctionFound stabs stabstr addr lfun rfun) → narg = 0 →
      ArgsCounted stabs stabstr addr narg

/-- The parameters run up to the last entry of the region. -/
def ArgsToEnd (stabs : List Stab) (lfun rfun : Int) : Prop :=
  lfun < rfun ∧ ∀ k, lfun < k → k ≤ rfun → OfType stabs N_PSYM k

/-- The tables and addresses for which the number is wrong. -/
inductive Miscounted (stabs : List Stab) (addr : BitVec 32) : Prop
  -- halving leads to a function whose region ends with its parameters
  | toEnd {lfile rfile lfun rfun : Int} :
      Meets stabs N_SO addr 0 (stabs.length - 1) lfile rfile → 0 < lfile →
      Meets stabs N_FUN addr lfile rfile lfun rfun → ArgsToEnd stabs lfun rfun →
      Miscounted stabs addr
  -- halving leads in front of the functions of the file, and there are parameters there
  | noFunction {lfile rfile rfun : Int} :
      Meets stabs N_SO addr 0 (stabs.length - 1) lfile rfile → 0 < lfile →
      LedTo stabs N_FUN addr lfile rfile lfile →
      IsLeast (entries stabs N_FUN lfile rfile) (rfun + 1) →
      ¬ 2 ^ 32 ∣ params stabs (lfile + 1).toNat rfun.toNat → Miscounted stabs addr

/-! ### Counting -/

theorem params_of_le (h : m ≤ k) : params stabs k m = 0 := by
  have hnil : (stabs.take m).drop k = [] :=
    List.drop_eq_nil_of_le ((List.length_take_le m stabs).trans h)
  rw [params, hnil]
  rfl

theorem params_of_lt {e : Stab} (hkm : k < m) (he : stabs[k]? = some e) :
    params stabs k m = if e.nType.setWidth 32 = N_PSYM then params stabs (k + 1) m + 1 else 0 := by
  obtain ⟨hk, rfl⟩ := List.getElem?_eq_some_iff.mp he
  have hlt : k < (stabs.take m).length := by
    rw [List.length_take]
    omega
  have hcons : (stabs.take m).drop k = stabs[k] :: (stabs.take m).drop (k + 1) := by
    rw [List.drop_eq_getElem_cons hlt, List.getElem_take]
  rw [params, hcons, List.takeWhile_cons]
  by_cases htype : stabs[k].nType.setWidth 32 = N_PSYM
  · rw [if_pos (decide_eq_true htype), if_pos htype]
    rfl
  · rw [if_neg (by simpa using htype), if_neg htype]
    rfl

/-- The loop counts the parameters before `rfun`. -/
theorem nargBody_counts (narg : BitVec 32) (hm : m ≤ stabs.length) :
    Settles (fun n => loop (nargBody stabs m) n ((k : Int), narg))
      (.ok (narg + BitVec.ofNat 32 (params stabs k m))) := by
  obtain ⟨d, hd⟩ : ∃ d, m - k = d := ⟨_, rfl⟩
  induction d generalizing k narg with
  | zero =>
    rw [params_of_le (by omega), BitVec.add_zero]
    exact .loop_exit (if_neg (by omega))
  | succ d ih =>
    have hlt : k < m := by omega
    obtain ⟨e, he⟩ := stabAt_of_lt stabs (k := k) (Int.natCast_nonneg k) (by omega)
    have hbody := nargBody_at narg (Int.ofNat_lt.mpr hlt) he
    rw [params_of_lt hlt (getElem?_of_stabAt he).2]
    by_cases htype : e.nType.setWidth 32 = N_PSYM
    · rw [if_pos htype] at hbody ⊢
      have hsum : narg + 1 + BitVec.ofNat 32 (params stabs (k + 1) m) =
          narg + BitVec.ofNat 32 (params stabs (k + 1) m + 1) := by
        rw [BitVec.add_assoc, BitVec.ofNat_add, BitVec.add_comm 1]
        rfl
      have hrest := ih (k := k + 1) (narg + 1) (by omega)
      rw [hsum] at hrest
      exact .loop_next hbody hrest
    · rw [if_neg htype] at hbody ⊢
      rw [BitVec.add_zero]
      exact .loop_exit hbody

/-- One more entry changes the count exactly when every entry before it is a parameter, and it is
one itself. -/
theorem params_succ (hkm : k ≤ m) (hm : m < stabs.length) :
    (∀ j : Int, k ≤ j → j ≤ m → OfType stabs N_PSYM j) ∧
        params stabs k (m + 1) = params stabs k m + 1 ∨
      (¬ ∀ j : Int, k ≤ j → j ≤ m → OfType stabs N_PSYM j) ∧
        params stabs k (m + 1) = params stabs k m := by
  obtain ⟨d, hd⟩ : ∃ d, m - k = d := ⟨_, rfl⟩
  induction d generalizing k with
  | zero =>
    obtain rfl : k = m := by omega
    obtain ⟨e, he⟩ := stabAt_of_lt stabs (k := k) (Int.natCast_nonneg k) (by omega)
    have hall : (∀ j : Int, k ≤ j → j ≤ k → OfType stabs N_PSYM j) ↔
        e.nType.setWidth 32 = N_PSYM := by
      rw [← ofType_iff he]
      refine ⟨fun h => h k (Int.le_refl _) (Int.le_refl _), fun h j hj hj' => ?_⟩
      rwa [Int.le_antisymm hj' hj]
    rw [hall, params_of_lt (Nat.lt_succ_self k) (getElem?_of_stabAt he).2,
      params_of_le (Nat.le_refl _), params_of_le (Nat.le_refl _)]
    by_cases htype : e.nType.setWidth 32 = N_PSYM
    · exact .inl ⟨htype, if_pos htype⟩
    · exact .inr ⟨htype, if_neg htype⟩
  | succ d ih =>
    obtain ⟨e, he⟩ := stabAt_of_lt stabs (k := k) (Int.natCast_nonneg k) (by omega)
    rw [params_of_lt (by omega : k < m + 1) (getElem?_of_stabAt he).2,
      params_of_lt (by omega : k < m) (getElem?_of_stabAt he).2]
    by_cases htype : e.nType.setWidth 32 = N_PSYM
    · have hT := (ofType_iff he).mpr htype
      have hall : (∀ j : Int, k ≤ j → j ≤ m → OfType stabs N_PSYM j) ↔
          ∀ j : Int, (k + 1 : ℕ) ≤ j → j ≤ m → OfType stabs N_PSYM j := by
        refine ⟨fun h j hj => h j (by omega), fun h j hj hjm => ?_⟩
        rcases Int.lt_or_eq_of_le hj with hlt | rfl
        · exact h j (by omega) hjm
        · exact hT
      rw [if_pos htype, if_pos htype, hall]
      rcases ih (k := k + 1) (by omega) (by omega) with ⟨h, heq⟩ | ⟨h, heq⟩
      · exact .inl ⟨h, by rw [heq]⟩
      · exact .inr ⟨h, by rw [heq]⟩
    · right
      rw [if_neg htype, if_neg htype]
      exact ⟨fun h => htype ((ofType_iff he).mp (h k (Int.le_refl _) (by omega))), rfl⟩

/-- What the loop counts is the number of arguments exactly when the parameters do not run up to
the last entry of the region. -/
theorem params_eq_argCount_iff (h0 : 0 ≤ lfun) (hr : rfun < stabs.length) :
    BitVec.ofNat 32 (params stabs (lfun + 1).toNat rfun.toNat) =
      BitVec.ofNat 32 (argCount stabs lfun rfun) ↔ ¬ ArgsToEnd stabs lfun rfun := by
  rcases Int.lt_or_le lfun rfun with hlt | hle
  · have hk : ((lfun + 1).toNat : Int) = lfun + 1 := Int.toNat_of_nonneg (by omega)
    have hm : (rfun.toNat : Int) = rfun := Int.toNat_of_nonneg (by omega)
    have hsucc : (rfun + 1).toNat = rfun.toNat + 1 := by omega
    have hkm : (lfun + 1).toNat ≤ rfun.toNat := by omega
    have hlast : rfun.toNat < stabs.length := by omega
    have hcases := params_succ hkm hlast
    rw [hk, hm] at hcases
    rw [argCount, hsucc]
    rcases hcases with ⟨hall, heq⟩ | ⟨hall, heq⟩
    · rw [heq]
      refine iff_of_false ?_ (not_not_intro ⟨hlt, fun k hk => hall k (by omega)⟩)
      generalize params stabs (lfun + 1).toNat rfun.toNat = c
      intro h
      have := congrArg BitVec.toNat h
      rw [BitVec.toNat_ofNat, BitVec.toNat_ofNat] at this
      omega
    · rw [heq]
      refine iff_of_true rfl ?_
      rintro ⟨-, h⟩
      exact hall fun j hj => h j (by omega)
  · rw [argCount, params_of_le (by omega), params_of_le (by omega)]
    refine iff_of_true rfl ?_
    rintro ⟨hlt, -⟩
    omega

/-! ### The field that is left -/

theorem fnInfo_eipFnNarg
    (h : fnInfo stabs stabstr lfile rfile lfun rfun addr info = .ok (info', a, L, R)) :
    info'.eipFnNarg = info.eipFnNarg := by
  unfold fnInfo at h
  split at h
  · obtain ⟨e, -, h⟩ := bind_eq_ok.mp h
    obtain ⟨rfl, -⟩ := Prod.mk.inj (Except.ok.inj h)
    split
    · rfl
    · rfl
  · obtain ⟨rfl, -⟩ := Prod.mk.inj (Except.ok.inj h)
    rfl

/-- Without a bracket nothing is counted. -/
theorem setNarg_eipFnNarg (h0 : 0 ≤ lfun) (hr : rfun < stabs.length)
    (h : setNarg n stabs lfun rfun info = .ok info') :
    info'.eipFnNarg =
      info.eipFnNarg + BitVec.ofNat 32 (params stabs (lfun + 1).toNat rfun.toNat) := by
  unfold setNarg at h
  split at h
  · obtain ⟨narg, hloop, h⟩ := bind_eq_ok.mp h
    obtain rfl := Except.ok.inj h
    have hk : ((lfun + 1).toNat : Int) = lfun + 1 := Int.toNat_of_nonneg (by omega)
    have hm : (rfun.toNat : Int) = rfun := Int.toNat_of_nonneg (by omega)
    have hcount := nargBody_counts (k := (lfun + 1).toNat) info.eipFnNarg
      (by omega : rfun.toNat ≤ stabs.length)
    rw [hk, hm] at hcount
    have hrun : Settles (fun n => loop (nargBody stabs rfun) n (lfun + 1, info.eipFnNarg))
        (.ok narg) := ⟨n, fun _ => loop_mono hloop⟩
    exact Except.ok.inj (hrun.unique hcount)
  · obtain rfl := Except.ok.inj h
    rw [params_of_le (by omega), BitVec.add_zero]

theorem lineInfo_eipFnNarg (h0 : 0 ≤ lfun) (hr : rfun < stabs.length)
    (h : lineInfo n stabs stabstr lfile lfun rfun lline rline info = .ok (ret, info')) :
    info'.eipFnNarg =
      info.eipFnNarg + BitVec.ofNat 32 (params stabs (lfun + 1).toNat rfun.toNat) := by
  obtain ⟨info₁, hline, h⟩ := bind_eq_ok.mp h
  obtain ⟨k, -, h⟩ := bind_eq_ok.mp h
  obtain ⟨info₂, hfile, h⟩ := bind_eq_ok.mp h
  obtain ⟨info₃, hnarg, h⟩ := bind_eq_ok.mp h
  obtain ⟨-, rfl⟩ := Prod.mk.inj (Except.ok.inj h)
  obtain ⟨line, rfl⟩ := setLine_ok hline
  obtain ⟨file, rfl⟩ := setFile_ok hfile
  rw [setNarg_eipFnNarg h0 hr hnarg]

/-- The search for the function has been made, and its region ends before a function that is not
there has any entries. -/
theorem fileInfo_eipFnNarg (h1 : 1 ≤ lfile) (hlr : lfile ≤ rfile) (hr : rfile < stabs.length)
    (h : fileInfo n stabs stabstr lfile rfile addr info = .ok (ret, info')) :
    ∃ lfun rfun, Finds stabs lfile rfile N_FUN addr lfun rfun ∧ 0 ≤ lfun ∧
      rfun < stabs.length ∧ info'.eipFnNarg =
        info.eipFnNarg + BitVec.ofNat 32 (params stabs (lfun + 1).toNat rfun.toNat) := by
  obtain ⟨⟨lfun, rfun⟩, hsearch, h⟩ := bind_eq_ok.mp h
  obtain ⟨⟨info₁, a, lline, rline⟩, hfn, h⟩ := bind_eq_ok.mp h
  obtain ⟨colon, -, h⟩ := bind_eq_ok.mp h
  obtain ⟨⟨x, y⟩, -, h⟩ := bind_eq_ok.mp h
  have hfinds : Finds stabs lfile rfile N_FUN addr lfun rfun := stabBinsearch_of_eq hsearch
  obtain ⟨hge, hle, -, -⟩ := hfinds.lands (by omega) (by omega) hr
  refine ⟨lfun, rfun, hfinds, by omega, by omega, ?_⟩
  rw [lineInfo_eipFnNarg (by omega) (by omega) h, ← fnInfo_eipFnNarg hfn]

/-! ### More fuel -/

theorem setNarg_approx (hnm : n ≤ m) (stabs : List Stab) (lfun rfun : Int) (info : Eipdebuginfo) :
    Approx (setNarg n stabs lfun rfun info) (setNarg m stabs lfun rfun info) := by
  unfold setNarg
  split
  · exact (loop_approx (fun _ => .refl _) hnm _).bind fun _ => .refl _
  · exact .refl _

theorem lineInfo_approx (hnm : n ≤ m) (stabs : List Stab) (stabstr : List Byte)
    (lfile lfun rfun lline rline : Int) (info : Eipdebuginfo) :
    Approx (lineInfo n stabs stabstr lfile lfun rfun lline rline info)
      (lineInfo m stabs stabstr lfile lfun rfun lline rline info) := by
  refine (Approx.refl _).bind fun info => ?_
  refine (loop_approx (fun _ => .refl _) hnm _).bind fun lline => ?_
  refine (Approx.refl _).bind fun info => ?_
  exact (setNarg_approx hnm stabs lfun rfun info).bind fun _ => .refl _

/-- More fuel gives the same lookup. -/
theorem debuginfoEip_of_eq {r : BitVec 32 × Eipdebuginfo}
    (h : debuginfoEip n stabs stabstr addr = .ok r) :
    Settles (fun n => debuginfoEip n stabs stabstr addr) (.ok r) := by
  refine ⟨n, fun m hnm => ?_⟩
  have hfile : ∀ lfile rfile info, Approx (fileInfo n stabs stabstr lfile rfile addr info)
      (fileInfo m stabs stabstr lfile rfile addr info) := by
    intro lfile rfile info
    refine (stabBinsearch_approx hnm _ _ _ _ _).bind fun p => ?_
    refine (Approx.refl _).bind fun q => ?_
    refine (loop_approx (fun _ => .refl _) hnm _).bind fun colon => ?_
    refine (stabBinsearch_approx hnm _ _ _ _ _).bind fun p => ?_
    exact lineInfo_approx hnm _ _ _ _ _ _ _ _
  have happrox : Approx (debuginfoEip n stabs stabstr addr)
      (debuginfoEip m stabs stabstr addr) := by
    unfold debuginfoEip
    dsimp only
    split
    · exact .refl _
    split
    · exact .refl _
    refine (stabBinsearch_approx hnm _ _ _ _ _).bind fun p => ?_
    split
    · exact .refl _
    · exact hfile _ _ _
  exact (happrox.eq_of_ne (by simp [h])).trans h

/-! ### The function around the address -/

theorem functionFound_iff (hstr : stabstr.getLast? = some 0)
    (hfile : Finds stabs 0 (stabs.length - 1) N_SO addr lfile rfile) (hne : lfile ≠ 0)
    (hfun : Finds stabs lfile rfile N_FUN addr lfun rfun) :
    FunctionFound stabs stabstr addr x y ↔
      (x = lfun ∧ y = rfun) ∧ lfun ≤ rfun ∧ OfType stabs N_FUN lfun := by
  constructor
  · rintro ⟨-, hfile', -, hfun', hle, hT⟩
    obtain ⟨rfl, rfl⟩ := hfile.unique hfile'
    obtain ⟨rfl, rfl⟩ := hfun.unique hfun'
    exact ⟨⟨rfl, rfl⟩, hle, hT⟩
  · rintro ⟨⟨rfl, rfl⟩, hle, hT⟩
    exact .intro hstr hfile hne hfun hle hT

theorem ofNat_eq_zero_iff : BitVec.ofNat 32 k = 0 ↔ 2 ^ 32 ∣ k := by
  rw [← BitVec.toNat_inj, BitVec.toNat_ofNat]
  exact (Nat.dvd_iff_mod_eq_zero ..).symm

/-- Whether the number is wrong, by what the search for the function returns. -/
theorem miscounted_iff (hfile : Finds stabs 0 (stabs.length - 1) N_SO addr lfile rfile)
    (hne : lfile ≠ 0) (hfun : Finds stabs lfile rfile N_FUN addr lfun rfun) :
    Miscounted stabs addr ↔ OfType stabs N_FUN lfun ∧ ArgsToEnd stabs lfun rfun ∨
      ¬ OfType stabs N_FUN lfun ∧ ¬ 2 ^ 32 ∣ params stabs (lfun + 1).toNat rfun.toNat := by
  constructor
  · intro h
    cases h with
    | toEnd hm _ hmf hend =>
      obtain ⟨rfl, rfl⟩ := hm.file_finds.unique hfile
      obtain ⟨h0, hlr, hr⟩ := hm.file_bounds
      obtain ⟨rfl, rfl⟩ := (hmf.finds h0 (by omega) hr).unique hfun
      exact .inl ⟨hmf.mem.2.2, hend⟩
    | noFunction hm _ hled hleast hparams =>
      obtain ⟨rfl, rfl⟩ := hm.file_finds.unique hfile
      obtain ⟨-, hbefore⟩ := hm.finds_before hled hleast
      obtain ⟨rfl, rfl⟩ := hbefore.unique hfun
      exact .inr ⟨hm.not_fun, hparams⟩
  · intro h
    obtain ⟨h1, hlr, hr⟩ := file_bounds hfile hne (hfile.left_ge hfun)
    have hlt : lfun < rfun := by
      rcases h with ⟨-, hend⟩ | ⟨-, hparams⟩
      · exact hend.1
      · by_contra hle
        rw [params_of_le (by omega)] at hparams
        exact hparams (Nat.dvd_zero _)
    have hlands := Finds.landing (by omega) (by omega) hr hfun
    have hm : Meets stabs N_SO addr 0 (stabs.length - 1) lfile rfile := by
      cases hfile.file_landing with
      | none _ => exact absurd rfl hne
      | found hm => exact hm
      | before _ _ _ => exact absurd rfl hne
      | slips _ _ =>
        -- a single entry has no region behind it
        cases hlands with
        | none _ => omega
        | found hmf =>
          have hge := hmf.mem.1
          have hends := hmf.ends.le hmf.mem.2.1
          omega
        | before hleast _ _ =>
          have := hleast.1.2.1
          omega
        | slips _ _ => omega
        | off _ => omega
      | off _ => omega
    cases hlands with
    | none _ => omega
    | found hmf =>
      rcases h with ⟨-, hend⟩ | ⟨hT, -⟩
      · exact .toEnd hm h1 hmf hend
      · exact absurd hmf.mem.2.2 hT
    | before hleast _ hled =>
      rcases h with ⟨hT, -⟩ | ⟨-, hparams⟩
      · exact absurd hT hm.not_fun
      · exact .noFunction hm h1 hled hleast hparams
    | slips _ _ => omega
    | off _ => omega

/-- A lookup that ends has counted in the region that the search for the function returns, or has
made no such search. -/
theorem debuginfoEip_eipFnNarg
    (hrun : Settles (fun n => debuginfoEip n stabs stabstr addr) (.ok (ret, info))) :
    (∃ lfile rfile lfun rfun, stabstr.getLast? = some 0 ∧
        Finds stabs 0 (stabs.length - 1) N_SO addr lfile rfile ∧ lfile ≠ 0 ∧
        Finds stabs lfile rfile N_FUN addr lfun rfun ∧ 0 ≤ lfun ∧ rfun < stabs.length ∧
        info.eipFnNarg = BitVec.ofNat 32 (params stabs (lfun + 1).toNat rfun.toNat)) ∨
      (stabstr.getLast? ≠ some 0 ∨ ∃ rfile, Finds stabs 0 (stabs.length - 1) N_SO addr 0 rfile) ∧
        info.eipFnNarg = 0 := by
  obtain ⟨n, hn⟩ := hrun
  have h : debuginfoEip n stabs stabstr addr = .ok (ret, info) := hn n (Nat.le_refl n)
  unfold debuginfoEip at h
  dsimp only at h
  split at h
  · cases h
  split at h
  · rename_i hstr
    obtain ⟨-, rfl⟩ := Prod.mk.inj (Except.ok.inj h)
    exact .inr ⟨.inl hstr, rfl⟩
  rename_i hstr
  obtain ⟨⟨lfile, rfile⟩, hsearch, h⟩ := bind_eq_ok.mp h
  have hfile : Finds stabs 0 (stabs.length - 1) N_SO addr lfile rfile := stabBinsearch_of_eq hsearch
  dsimp only at h
  split at h
  · rename_i hzero
    obtain ⟨-, rfl⟩ := Prod.mk.inj (Except.ok.inj h)
    exact .inr ⟨.inr ⟨rfile, hzero ▸ hfile⟩, rfl⟩
  · rename_i hne
    obtain ⟨⟨lfun, rfun⟩, hfun, -⟩ := bind_eq_ok.mp h
    obtain ⟨h1, hlr, hr⟩ := file_bounds hfile hne (hfile.left_ge (stabBinsearch_of_eq hfun))
    obtain ⟨lfun, rfun, hfinds, h0, hlt, hnarg⟩ := fileInfo_eipFnNarg h1 hlr hr h
    exact .inl ⟨lfile, rfile, lfun, rfun, not_not.mp hstr, hfile, hne, hfinds, h0, hlt,
      hnarg.trans (BitVec.zero_add _)⟩

/-- The number of arguments is the right one exactly when halving does not lead to a function
whose parameters run up to the last entry of its region, as this entry is never looked at, nor to
the start of a file with parameters in front of its functions, which are taken for those of a
function. -/
theorem narg_counted_iff (stabs : List Stab) (stabstr : List Byte) (addr ret : BitVec 32)
    (info : Eipdebuginfo)
    (hrun : Settles (fun n => debuginfoEip n stabs stabstr addr) (.ok (ret, info))) :
    ArgsCounted stabs stabstr addr info.eipFnNarg ↔
      stabstr.getLast? ≠ some 0 ∨ ¬ Miscounted stabs addr := by
  rcases debuginfoEip_eipFnNarg hrun with
    ⟨lfile, rfile, lfun, rfun, hstr, hfile, hne, hfun, h0, hr, hnarg⟩ | ⟨hnone, hnarg⟩
  · rw [or_iff_right (not_not_intro hstr), miscounted_iff hfile hne hfun]
    have hfound_iff := fun x y => functionFound_iff (x := x) (y := y) hstr hfile hne hfun
    by_cases hfound : lfun ≤ rfun ∧ OfType stabs N_FUN lfun
    · have hfunction := (hfound_iff lfun rfun).mpr ⟨⟨rfl, rfl⟩, hfound⟩
      have hT := not_not_intro hfound.2
      rw [or_iff_left fun h => hT h.1, and_iff_right hfound.2, ← params_eq_argCount_iff h0 hr,
        ← hnarg]
      constructor
      · intro hcounted
        cases hcounted with
        | function hfunction' hcount =>
          obtain ⟨rfl, rfl⟩ := ((hfound_iff _ _).mp hfunction').1
          exact hcount
        | none hno _ => exact absurd hfunction (hno lfun rfun)
      · exact .function hfunction
    · have hno : ∀ x y, ¬ FunctionFound stabs stabstr addr x y :=
        fun x y h => hfound ((hfound_iff x y).mp h).2
      have hcounted : ArgsCounted stabs stabstr addr info.eipFnNarg ↔ info.eipFnNarg = 0 := by
        constructor
        · intro hcounted
          cases hcounted with
          | function h _ => exact absurd h (hno _ _)
          | none _ hzero => exact hzero
        · exact .none hno
      rw [hcounted, hnarg, ofNat_eq_zero_iff]
      by_cases hT : OfType stabs N_FUN lfun
      · -- the search returns nothing, and nothing is counted
        have hlt : rfun < lfun := Int.not_le.mp fun hle => hfound ⟨hle, hT⟩
        refine iff_of_true ?_ ?_
        · rw [params_of_le (by omega)]
          exact Nat.dvd_zero _
        · rintro (⟨-, hend⟩ | ⟨hT', -⟩)
          · have := hend.1
            omega
          · exact hT' hT
      · rw [or_iff_right fun h => hT h.1, and_iff_right hT, not_not]
  · refine iff_of_true (.none ?_ hnarg) ?_
    · rintro x y ⟨hstr, hfile, hne, -⟩
      rcases hnone with hstr' | ⟨rfile, hzero⟩
      · exact hstr' hstr
      · exact hne (hfile.unique hzero).1
    · rcases hnone with hstr | ⟨rfile, hzero⟩
      · exact .inl hstr
      · right
        intro h
        cases h with
        | toEnd hm hpos _ _ =>
          have := (hm.file_finds.unique hzero).1
          omega
        | noFunction hm hpos _ _ _ =>
          have := (hm.file_finds.unique hzero).1
          omega

/-- One file with one function, which has these entries behind its name. -/
def argTable (rest : List Stab) : List Stab :=
  [stab 0 0, stab N_SO 0xF0100000, stab N_FUN 0xF0100000] ++ rest

/-- The function has a parameter, and lines after it. -/
theorem narg_counted_iff_lines : ∃ ret info,
    Settles (fun n => debuginfoEip n (argTable [stab N_PSYM 8, stab N_SLINE 0]) [0] 0xF0100008)
      (.ok (ret, info)) ∧
    ArgsCounted (argTable [stab N_PSYM 8, stab N_SLINE 0]) [0] 0xF0100008 info.eipFnNarg := by
  obtain ⟨⟨ret, info⟩, hrun⟩ : ∃ r,
      debuginfoEip 9 (argTable [stab N_PSYM 8, stab N_SLINE 0]) [0] 0xF0100008 = .ok r :=
    ⟨_, rfl⟩
  have hfile : Finds (argTable [stab N_PSYM 8, stab N_SLINE 0]) 0 4 N_SO 0xF0100008 1 4 :=
    stabBinsearch_of_eq (n := 9) (by decide)
  have hfun : Finds (argTable [stab N_PSYM 8, stab N_SLINE 0]) 1 4 N_FUN 0xF0100008 2 4 :=
    stabBinsearch_of_eq (n := 9) (by decide)
  refine ⟨ret, info, debuginfoEip_of_eq hrun,
    (narg_counted_iff _ _ _ ret info (debuginfoEip_of_eq hrun)).mpr (.inr ?_)⟩
  rw [miscounted_iff hfile (by decide) hfun]
  rintro (⟨-, -, hend⟩ | ⟨hT, -⟩)
  · exact absurd ((ofType_iff rfl).mp (hend 4 (by decide) (Int.le_refl 4))) (by decide)
  · exact hT ⟨_, rfl, rfl⟩

/-- The parameter is the last entry of the region. -/
theorem narg_not_counted : ¬ ∀ stabs stabstr addr ret info,
    Settles (fun n => debuginfoEip n stabs stabstr addr) (.ok (ret, info)) →
      ArgsCounted stabs stabstr addr info.eipFnNarg := by
  intro h
  obtain ⟨⟨ret, info⟩, hrun, hnarg⟩ : ∃ r,
      debuginfoEip 9 (argTable [stab N_PSYM 8]) [0] 0xF0100008 = .ok r ∧ r.2.eipFnNarg = 0 :=
    ⟨_, rfl, rfl⟩
  have hfile : Finds (argTable [stab N_PSYM 8]) 0 3 N_SO 0xF0100008 1 3 :=
    stabBinsearch_of_eq (n := 9) (by decide)
  have hfun : Finds (argTable [stab N_PSYM 8]) 1 3 N_FUN 0xF0100008 2 3 :=
    stabBinsearch_of_eq (n := 9) (by decide)
  have hiff : ∀ x y, FunctionFound _ [0] _ x y ↔ _ := fun x y =>
    functionFound_iff rfl hfile (by decide) hfun
  have hcounted := h _ _ _ ret info (debuginfoEip_of_eq hrun)
  rw [hnarg] at hcounted
  cases hcounted with
  | function hfound hcount =>
    obtain ⟨⟨rfl, rfl⟩, -⟩ := (hiff _ _).mp hfound
    exact absurd hcount (by decide)
  | none hno _ => exact hno 2 3 ((hiff 2 3).mpr ⟨⟨rfl, rfl⟩, by decide, _, rfl, rfl⟩)

/-- One file with a parameter and a line in front of its function. -/
def strayTable : List Stab :=
  [stab 0 0, stab N_SO 0xF0100000, stab N_PSYM 8, stab N_SLINE 0, stab N_FUN 0xF0200000]

/-- The parameter is taken for one of a function. -/
example : Miscounted strayTable 0xF0100008 := by
  have hfile : Finds strayTable 0 4 N_SO 0xF0100008 1 4 := stabBinsearch_of_eq (n := 9) (by decide)
  have hfun : Finds strayTable 1 4 N_FUN 0xF0100008 1 3 := stabBinsearch_of_eq (n := 9) (by decide)
  rw [miscounted_iff hfile (by decide) hfun]
  exact .inr ⟨fun hT => absurd ((ofType_iff rfl).mp hT) (by decide), by decide⟩

end Jos
