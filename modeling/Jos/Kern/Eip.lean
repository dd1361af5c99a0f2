import Jos.Kern.StabSearch
import Jos.Lib.Strings

/-! `kern/kdebug.c`: from an instruction address to the names in the symbol table. -/
namespace Jos

open Prog Relation

abbrev ulim : BitVec 32 := 0xEF800000

/-- A string is given by the rest of the array that the pointer points into. -/
structure Eipdebuginfo where
  eipFile : List Byte
  eipLine : BitVec 32
  eipFnName : List Byte
  eipFnNamelen : BitVec 32
  eipFnAddr : BitVec 32
  eipFnNarg : BitVec 32
deriving DecidableEq, Repr

/-- Initialize `*info`. -/
def initInfo (addr : BitVec 32) : Eipdebuginfo where
  eipFile := cstr (lit "<unknown>")
  eipLine := 0
  eipFnName := cstr (lit "<unknown>")
  eipFnNamelen := 9
  eipFnAddr := addr
  eipFnNarg := 0

/-- The pass of the scan backwards for the file name. -/
def fileBody (stabs : List Stab) (lfile : Int) (lline : Int) : Res (Int ⊕ Int) :=
  if lfile ≤ lline then do
    let e ← stabAt stabs lline
    if e.nType.setWidth 32 ≠ N_SOL ∧ (e.nType.setWidth 32 ≠ N_SO ∨ e.nValue = 0) then
      pure (.inl (lline - 1))
    else pure (.inr lline)
  else pure (.inr lline)

/-- The pass of the loop that counts the arguments. -/
def nargBody (stabs : List Stab) (rfun : Int) :
    Int × BitVec 32 → Res (Int × BitVec 32 ⊕ BitVec 32)
  | (lline, narg) =>
    if lline < rfun then do
      let e ← stabAt stabs lline
      if e.nType.setWidth 32 = N_PSYM then pure (.inl (lline + 1, narg + 1)) else pure (.inr narg)
    else pure (.inr narg)

def setLine (stabs : List Stab) (lline rline : Int) (info : Eipdebuginfo) : Res Eipdebuginfo :=
  if lline ≤ rline then do
    let e ← stabAt stabs lline
    pure { info with eipLine := e.nDesc.setWidth 32 }
  else pure info

def setFile (stabs : List Stab) (stabstr : List Byte) (lfile lline : Int) (info : Eipdebuginfo) :
    Res Eipdebuginfo :=
  if lfile ≤ lline then do
    let e ← stabAt stabs lline
    if e.nStrx.toNat < stabstr.length then
      pure { info with eipFile := stabstr.drop e.nStrx.toNat }
    else pure info
  else pure info

def setNarg (fuel : ℕ) (stabs : List Stab) (lfun rfun : Int) (info : Eipdebuginfo) :
    Res Eipdebuginfo :=
  if lfun < rfun then do
    let narg ← loop (nargBody stabs rfun) fuel (lfun + 1, info.eipFnNarg)
    pure { info with eipFnNarg := narg }
  else pure info

/-- What follows the search for the line. -/
def lineInfo (fuel : ℕ) (stabs : List Stab) (stabstr : List Byte)
    (lfile lfun rfun lline rline : Int) (info : Eipdebuginfo) : Res (BitVec 32 × Eipdebuginfo) := do
  let info ← setLine stabs lline rline info
  let lline ← loop (fileBody stabs lfile) fuel lline
  let info ← setFile stabs stabstr lfile lline info
  let info ← setNarg fuel stabs lfun rfun info
  pure (0, info)

/-- The fields for the function that was found, the address inside it, and where its lines are. -/
def fnInfo (stabs : List Stab) (stabstr : List Byte) (lfile rfile lfun rfun : Int)
    (addr : BitVec 32) (info : Eipdebuginfo) : Res (Eipdebuginfo × BitVec 32 × Int × Int) :=
  if lfun ≤ rfun then do
    let e ← stabAt stabs lfun
    let info := if e.nStrx.toNat < stabstr.length then
        { info with eipFnName := stabstr.drop e.nStrx.toNat }
      else info
    pure ({ info with eipFnAddr := e.nValue }, addr - e.nValue, lfun, rfun)
  else pure ({ info with eipFnAddr := addr }, addr, lfile, rfile)

/-- What follows the search for the function: the name ends at the colon, and the line is searched
between `lline` and `rline`. -/
def nameInfo (fuel : ℕ) (stabs : List Stab) (stabstr : List Byte)
    (lfile lfun rfun lline rline : Int) (addr : BitVec 32) (info : Eipdebuginfo) :
    Res (BitVec 32 × Eipdebuginfo) := do
  let colon ← strfind fuel info.eipFnName (chr ':')
  let info := { info with eipFnNamelen := BitVec.ofNat 32 colon }
  let (lline, rline) ← stabBinsearch fuel stabs lline rline N_SLINE addr
  lineInfo fuel stabs stabstr lfile lfun rfun lline rline info

/-- What follows the search for the file. -/
def fileInfo (fuel : ℕ) (stabs : List Stab) (stabstr : List Byte) (lfile rfile : Int)
    (addr : BitVec 32) (info : Eipdebuginfo) : Res (BitVec 32 × Eipdebuginfo) := do
  let (lfun, rfun) ← stabBinsearch fuel stabs lfile rfile N_FUN addr
  let (info, addr, lline, rline) ← fnInfo stabs stabstr lfile rfile lfun rfun addr info
  nameInfo fuel stabs stabstr lfile lfun rfun lline rline addr info

/-- The symbols for `addr`. The tables are those that the linker puts into the kernel. -/
def debuginfoEip (fuel : ℕ) (stabs : List Stab) (stabstr : List Byte) (addr : BitVec 32) :
    Res (BitVec 32 × Eipdebuginfo) :=
  let info := initInfo addr
  if addr < ulim then .error (.panic "User address")
  -- string table validity checks
  else if stabstr.getLast? ≠ some 0 then pure (-1, info)
  else do
    let (lfile, rfile) ← stabBinsearch fuel stabs 0 (stabs.length - 1) N_SO addr
    if lfile = 0 then pure (-1, info) else fileInfo fuel stabs stabstr lfile rfile addr info

variable {stabs : List Stab} {stabstr : List Byte} {type addr : BitVec 32} {L R x y : Int}
  {lfile rfile lfun rfun lline rline : Int} {info info' : Eipdebuginfo}

/-! ### Each step sets one field -/

theorem setLine_ok (h : setLine stabs lline rline info = .ok info') :
    ∃ line, info' = { info with eipLine := line } := by
  unfold setLine at h
  split at h
  · obtain ⟨e, -, h⟩ := bind_eq_ok.mp h
    exact ⟨_, (Except.ok.inj h).symm⟩
  · exact ⟨info.eipLine, (Except.ok.inj h).symm⟩

theorem setFile_ok (h : setFile stabs stabstr lfile lline info = .ok info') :
    ∃ file, info' = { info with eipFile := file } := by
  unfold setFile at h
  split at h
  · obtain ⟨e, -, h⟩ := bind_eq_ok.mp h
    split at h
    · exact ⟨_, (Except.ok.inj h).symm⟩
    · exact ⟨info.eipFile, (Except.ok.inj h).symm⟩
  · exact ⟨info.eipFile, (Except.ok.inj h).symm⟩

theorem fileBody_settles (h0 : 0 ≤ lfile) (hlt : lline < stabs.length) :
    ∃ x, Settles (fun n => loop (fileBody stabs lfile) n lline) (.ok x) ∧ x ≤ lline := by
  obtain ⟨n, hn⟩ : ∃ n : ℕ, (lline - lfile + 1).toNat = n := ⟨_, rfl⟩
  induction n generalizing lline with
  | zero => exact ⟨lline, .loop_exit (if_neg (by omega)), Int.le_refl _⟩
  | succ n ih =>
    have hle : lfile ≤ lline := by omega
    obtain ⟨e, he⟩ := stabAt_of_lt stabs (k := lline) (by omega) hlt
    have hbody : fileBody stabs lfile lline =
        if e.nType.setWidth 32 ≠ N_SOL ∧ (e.nType.setWidth 32 ≠ N_SO ∨ e.nValue = 0) then
          .ok (.inl (lline - 1))
        else .ok (.inr lline) := by
      rw [fileBody, if_pos hle, he]
      rfl
    by_cases hnext : e.nType.setWidth 32 ≠ N_SOL ∧ (e.nType.setWidth 32 ≠ N_SO ∨ e.nValue = 0)
    · obtain ⟨x, hx, hxle⟩ := ih (by omega : lline - 1 < stabs.length) (by omega)
      exact ⟨x, .loop_next (hbody.trans (if_pos hnext)) hx, by omega⟩
    · exact ⟨lline, .loop_exit (hbody.trans (if_neg hnext)), Int.le_refl _⟩

theorem nargBody_at {e : Stab} (narg : BitVec 32) (hlt : lline < rfun)
    (he : stabAt stabs lline = .ok e) : nargBody stabs rfun (lline, narg) =
      if e.nType.setWidth 32 = N_PSYM then .ok (.inl (lline + 1, narg + 1))
      else .ok (.inr narg) := by
  rw [nargBody, if_pos hlt, he]
  rfl

theorem nargBody_settles (narg : BitVec 32) (h0 : 0 ≤ lline) (hr : rfun ≤ stabs.length) :
    ∃ c, Settles (fun n => loop (nargBody stabs rfun) n (lline, narg)) (.ok c) := by
  obtain ⟨n, hn⟩ : ∃ n : ℕ, (rfun - lline).toNat = n := ⟨_, rfl⟩
  induction n generalizing lline narg with
  | zero => exact ⟨narg, .loop_exit (if_neg (by omega))⟩
  | succ n ih =>
    have hlt : lline < rfun := by omega
    obtain ⟨e, he⟩ := stabAt_of_lt stabs (k := lline) h0 (by omega)
    have hbody := nargBody_at narg hlt he
    by_cases htype : e.nType.setWidth 32 = N_PSYM
    · obtain ⟨c, hc⟩ := ih (narg + 1) (by omega : 0 ≤ lline + 1) (by omega)
      exact ⟨c, .loop_next (hbody.trans (if_pos htype)) hc⟩
    · exact ⟨narg, .loop_exit (hbody.trans (if_neg htype))⟩

theorem setLine_settles (info : Eipdebuginfo) (hlt : lline < stabs.length)
    (hline : lline ≤ rline → 0 ≤ lline) : ∃ info', setLine stabs lline rline info = .ok info' := by
  by_cases hle : lline ≤ rline
  · obtain ⟨e, he⟩ := stabAt_of_lt stabs (hline hle) hlt
    exact ⟨_, by rw [setLine, if_pos hle, he]; rfl⟩
  · exact ⟨info, if_neg hle⟩

theorem setFile_settles (stabstr : List Byte) (info : Eipdebuginfo) (h0 : 0 ≤ lfile)
    (hlt : lline < stabs.length) :
    ∃ info', setFile stabs stabstr lfile lline info = .ok info' := by
  by_cases hle : lfile ≤ lline
  · obtain ⟨e, he⟩ := stabAt_of_lt stabs (k := lline) (by omega) hlt
    rw [setFile, if_pos hle, he, ok_bind]
    split
    · exact ⟨_, rfl⟩
    · exact ⟨_, rfl⟩
  · exact ⟨info, if_neg hle⟩

theorem setNarg_settles (info : Eipdebuginfo) (h0 : -1 ≤ lfun) (hr : rfun ≤ stabs.length) :
    ∃ info', Settles (fun n => setNarg n stabs lfun rfun info) (.ok info') := by
  by_cases hlr : lfun < rfun
  · obtain ⟨c, hc⟩ := nargBody_settles info.eipFnNarg (by omega : 0 ≤ lfun + 1) hr
    refine ⟨{ info with eipFnNarg := c }, ?_⟩
    refine (hc.view fun narg => { info with eipFnNarg := narg }).congr fun n => ?_
    rw [setNarg, if_pos hlr]
    rfl
  · exact ⟨info, (Settles.const _).congr fun n => if_neg hlr⟩

/-- The rest of the function, when the search for the line did not leave the table. -/
theorem lineInfo_settles (stabstr : List Byte) (info : Eipdebuginfo) (h0 : 0 ≤ lfile)
    (hlt : lline < stabs.length) (hline : lline ≤ rline → 0 ≤ lline) (hfun : -1 ≤ lfun)
    (hr : rfun ≤ stabs.length) :
    ∃ r, Settles (fun n => lineInfo n stabs stabstr lfile lfun rfun lline rline info) (.ok r) := by
  obtain ⟨info₁, hline₁⟩ := setLine_settles info hlt hline
  obtain ⟨x, hx, hxle⟩ := fileBody_settles h0 hlt
  obtain ⟨info₂, hfile⟩ := setFile_settles stabstr info₁ h0
    (by omega : x < stabs.length)
  obtain ⟨info₃, hnarg⟩ := setNarg_settles info₂ hfun hr
  refine ⟨(0, info₃), ?_⟩
  refine Settles.congr (hx.bind ((hnarg.view fun info => ((0 : BitVec 32), info)).congr ?_)) ?_
    (g := fun n => lineInfo n stabs stabstr lfile lfun rfun lline rline info)
    (f := fun n => loop (fileBody stabs lfile) n lline >>= fun x =>
      setFile stabs stabstr lfile x info₁ >>= fun info => setNarg n stabs lfun rfun info >>=
        fun info => .ok (0, info))
  · intro n
    rw [hfile]
    rfl
  · intro n
    rw [lineInfo, hline₁]
    rfl

/-- The first entry of the bracket is read even when it lies in front of the table. -/
theorem lineInfo_fault (hlt : lline < 0) (hle : lline ≤ rline) :
    Settles (fun n => lineInfo n stabs stabstr lfile lfun rfun lline rline info)
      (.error .fault) := by
  refine (Settles.const (.error .fault)).congr fun n => ?_
  rw [lineInfo, setLine, if_pos hle, stabAt, if_neg (Int.not_le.mpr hlt)]
  rfl

/-! ### The searches -/

/-- The search in a range of the table, which leaves it only by falling off. -/
theorem stabBinsearch_lands (stabs : List Stab) (type addr : BitVec 32) (h0 : 0 ≤ L)
    (hLR : L ≤ R + 1) (hR : R < stabs.length) :
    ∃ x y s, Settles (fun n => stabBinsearch n stabs L R type addr) (.ok (x, y)) ∧
      Lands L R x y ∧
      (x < L ↔ FallsOff (OfType stabs type) (valueAt stabs) bump L R addr.toNat) ∧
      Passes (OfType stabs type) (valueAt stabs) bump (.start L R addr.toNat) s ∧
      Outcome (OfType stabs type) s x y := by
  obtain ⟨x, y, s, hrun, hpasses, hout⟩ := stabBinsearch_settles h0 hR type addr
  have hlands := hout.lands (Passes.explored hpasses.1 explored_start)
    (Passes.bounds hpasses.1 (bounds_start hLR))
  exact ⟨x, y, s, hrun, hlands, hout.off_iff hpasses bump_ne hLR, hpasses, hout⟩

/-- A search that starts in front of the table reads there. -/
theorem stabBinsearch_fault (stabs : List Stab) (type addr : BitVec 32) (hL : L < 0) :
    Settles (fun n => stabBinsearch n stabs L L type addr) (.error .fault) := by
  have hmid : (L + L).tdiv 2 = L := by
    rw [show L + L = L * 2 by omega]
    exact Int.mul_tdiv_cancel L (by decide)
  have hread : stabAt stabs L = .error .fault := if_neg (Int.not_le.mpr hL)
  have hslide : Settles (fun n => loop (slideBody stabs type L) n L) (.error .fault) := by
    refine ⟨1, fun n hn => ?_⟩
    obtain ⟨n, rfl⟩ := Nat.exists_eq_add_of_le' hn
    refine loop_of_error ?_
    rw [slideBody, slideBodyBy, if_pos (Int.le_refl L), hread]
    rfl
  have hbody : Settles (fun n => binsearchBody stabs type n ⟨L, L, false, L, L, addr⟩)
      (.error .fault) := by
    obtain ⟨N, hN⟩ := hslide
    refine ⟨N, fun n hn => ?_⟩
    have hloop : loop (slideBody stabs type L) n L = .error .fault := hN n hn
    unfold binsearchBody binsearchBodyBy
    dsimp only
    rw [if_pos (Int.le_refl L), hmid, hloop, error_bind]
  exact (LoopSettles.fail hbody).settles.bind_error

/-! ### When a search leaves the table -/

theorem mem_drop_of_getLast? {k : ℕ} (hstr : stabstr.getLast? = some 0) (hk : k < stabstr.length) :
    (0 : Byte) ∈ stabstr.drop k := by
  obtain ⟨u, rfl⟩ := List.getLast?_eq_some_iff.mp hstr
  rw [List.length_append, List.length_singleton] at hk
  rw [List.drop_append_of_le_length (Nat.lt_succ_iff.mp hk)]
  exact List.mem_append_right _ (List.mem_singleton.mpr rfl)

theorem fnInfo_found {e : Stab} (lfile rfile : Int) (addr : BitVec 32)
    (hstr : stabstr.getLast? = some 0) (hname : 0 ∈ info.eipFnName) (hle : lfun ≤ rfun)
    (he : stabAt stabs lfun = .ok e) :
    ∃ info', fnInfo stabs stabstr lfile rfile lfun rfun addr info =
      .ok (info', addr - e.nValue, lfun, rfun) ∧ 0 ∈ info'.eipFnName := by
  rw [fnInfo, if_pos hle, he, ok_bind]
  by_cases hstrx : e.nStrx.toNat < stabstr.length
  · rw [if_pos hstrx]
    exact ⟨_, rfl, mem_drop_of_getLast? hstr hstrx⟩
  · rw [if_neg hstrx]
    exact ⟨_, rfl, hname⟩

theorem fnInfo_missed (stabs : List Stab) (stabstr : List Byte) (lfile rfile : Int)
    (addr : BitVec 32) (info : Eipdebuginfo) (hlt : rfun < lfun) :
    fnInfo stabs stabstr lfile rfile lfun rfun addr info =
      .ok ({ info with eipFnAddr := addr }, addr, lfile, rfile) :=
  if_neg (Int.not_le.mpr hlt)

/-- The file starts at the entry 1, the search for the function falls off to the entry 0, and
the search for the line falls off there. -/
structure LineFallsOff (stabs : List Stab) (lfile rfile : Int) (addr : BitVec 32) : Prop where
  file : lfile = 1
  fn : FallsOff (OfType stabs N_FUN) (valueAt stabs) bump 1 rfile addr.toNat
  line : FallsOff (OfType stabs N_SLINE) (valueAt stabs) bump 0 0
    (addr - BitVec.ofNat 32 (valueAt stabs 0)).toNat

/-- The search for the line leaves the table only when it falls off at the entry 0. -/
theorem nameInfo_settles (stabstr : List Byte) (addr : BitVec 32) (hname : 0 ∈ info.eipFnName)
    (h0 : 0 ≤ lfile) (hL : 0 ≤ L) (hLR : L ≤ R) (hR : R < stabs.length) (hfun : -1 ≤ lfun)
    (hr : rfun ≤ stabs.length) :
    ∃ z, Settles (fun n => nameInfo n stabs stabstr lfile lfun rfun L R addr info) z ∧
      ((∃ r, z = .ok r) ∧ ¬ (L = 0 ∧
          FallsOff (OfType stabs N_SLINE) (valueAt stabs) bump L R addr.toNat) ∨
        z = .error .fault ∧ L = 0 ∧
          FallsOff (OfType stabs N_SLINE) (valueAt stabs) bump L R addr.toNat) := by
  obtain ⟨colon, hcolon⟩ := strfind_settles (chr ':') hname
  obtain ⟨x, y, s, hrun, ⟨hge, hle, horder, hoff⟩, hiff, -, -⟩ :=
    stabBinsearch_lands stabs N_SLINE addr hL (by omega) hR
  rcases Int.lt_or_le x 0 with hneg | hpos
  · have hL0 : L = 0 := by omega
    exact ⟨.error .fault, hcolon.bind (hrun.bind (lineInfo_fault hneg (by omega))),
      .inr ⟨rfl, hL0, hiff.mp (by omega)⟩⟩
  · obtain ⟨r, hr⟩ := lineInfo_settles stabstr
      { info with eipFnNamelen := BitVec.ofNat 32 colon } h0
      (by omega : x < stabs.length) (fun _ : x ≤ y => hpos) hfun hr
    refine ⟨.ok r, hcolon.bind (hrun.bind hr), .inl ⟨⟨r, rfl⟩, ?_⟩⟩
    rintro ⟨rfl, hfalls⟩
    have := hiff.mpr hfalls
    omega

theorem fileInfo_settles (addr : BitVec 32) (hstr : stabstr.getLast? = some 0)
    (hname : 0 ∈ info.eipFnName) (h1 : 1 ≤ lfile) (hlr : lfile ≤ rfile)
    (hr : rfile < stabs.length) :
    ∃ z, Settles (fun n => fileInfo n stabs stabstr lfile rfile addr info) z ∧
      ((∃ r, z = .ok r) ∧ ¬ LineFallsOff stabs lfile rfile addr ∨
        z = .error .fault ∧ LineFallsOff stabs lfile rfile addr) := by
  obtain ⟨lfun, rfun, s, hrun, ⟨hge, hle, horder, hoff⟩, hiff, -, -⟩ :=
    stabBinsearch_lands stabs N_FUN addr (by omega) (by omega : lfile ≤ rfile + 1) hr
  rcases Int.lt_or_le rfun lfun with hmiss | hfound
  · -- no function: the lines of the whole file are searched
    have hinfo := fnInfo_missed stabs stabstr lfile rfile addr info hmiss
    have hname' : (0 : Byte) ∈ ({ info with eipFnAddr := addr } : Eipdebuginfo).eipFnName := hname
    obtain ⟨z, hz, hcases⟩ := nameInfo_settles stabstr addr hname' (by omega : 0 ≤ lfile)
      (by omega) hlr hr (by omega : -1 ≤ lfun) (by omega : rfun ≤ stabs.length)
    have hfile : ¬ LineFallsOff stabs lfile rfile addr := by
      rintro ⟨rfl, hfn, -⟩
      have := hiff.mpr hfn
      omega
    refine ⟨z, hrun.bind (hz.congr fun n => by dsimp only; rw [hinfo, ok_bind]), ?_⟩
    rcases hcases with ⟨hok, -⟩ | ⟨-, hL, -⟩
    · exact .inl ⟨hok, hfile⟩
    · omega
  · obtain ⟨e, he⟩ := stabAt_of_lt stabs (k := lfun) (by omega) (by omega)
    obtain ⟨info', hinfo, hname'⟩ := fnInfo_found lfile rfile addr hstr hname hfound he
    obtain ⟨z, hz, hcases⟩ := nameInfo_settles stabstr (addr - e.nValue) hname'
      (by omega : 0 ≤ lfile) (by omega : 0 ≤ lfun) hfound (by omega) (by omega : -1 ≤ lfun)
      (by omega : rfun ≤ stabs.length)
    have hval : BitVec.ofNat 32 (valueAt stabs lfun) = e.nValue := by
      rw [valueAt_eq he, BitVec.ofNat_toNat, BitVec.setWidth_eq]
    have hfalls : LineFallsOff stabs lfile rfile addr ↔ lfun = 0 ∧
        FallsOff (OfType stabs N_SLINE) (valueAt stabs) bump lfun rfun (addr - e.nValue).toNat := by
      constructor
      · rintro ⟨rfl, hfn, hline⟩
        have hlt := hiff.mpr hfn
        obtain rfl : lfun = 0 := by omega
        obtain rfl : rfun = 0 := by omega
        rw [hval] at hline
        exact ⟨rfl, hline⟩
      · rintro ⟨rfl, hline⟩
        obtain rfl : lfile = 1 := by omega
        obtain rfl : rfun = 0 := by omega
        refine ⟨rfl, hiff.mp (by omega), ?_⟩
        rwa [hval]
    refine ⟨z, hrun.bind (hz.congr fun n => by dsimp only; rw [hinfo, ok_bind]), ?_⟩
    rw [hfalls]
    exact hcases

/-- The search for the file falls off in front of the table. -/
def FileFallsOff (stabs : List Stab) (addr : BitVec 32) : Prop :=
  FallsOff (OfType stabs N_SO) (valueAt stabs) bump 0 (stabs.length - 1) addr.toNat

/-- The table and the address for which the search for the line leaves the table. The address is
the last one there is, so that the search for the file can wrap. -/
structure TopOfMemory (stabs : List Stab) (addr : BitVec 32) : Prop where
  top : addr = 0xFFFFFFFF
  line : OfType stabs N_SLINE 0
  far : 2 ^ 31 ≤ valueAt stabs 0
  fn : OfType stabs N_FUN 1
  value : valueAt stabs 1 = addr.toNat
  file : Rewinds (OfType stabs N_SO) (valueAt stabs) bump 2 0 (stabs.length - 1) addr.toNat

theorem OfType.unique {type' : BitVec 32} {k : Int} (h : OfType stabs type k)
    (h' : OfType stabs type' k) : type = type' := by
  obtain ⟨e, he, rfl⟩ := h
  exact (ofType_iff he).mp h'

theorem bump_lt_iff {a : ℕ} (ha : a < 2 ^ 32) : bump a < a ↔ a = 2 ^ 32 - 1 := by
  unfold bump
  omega

theorem not_file_of_line_fn (hline : OfType stabs N_SLINE 0) (hfn : OfType stabs N_FUN 1) :
    ∀ k, 0 ≤ k → k ≤ 1 → ¬ OfType stabs N_SO k := by
  intro k hk hk1 hT
  obtain rfl | rfl : k = 0 ∨ k = 1 := by omega
  · exact absurd (hline.unique hT) (by decide)
  · exact absurd (hfn.unique hT) (by decide)

theorem valueAt_le_top (stabs : List Stab) (htop : addr = 0xFFFFFFFF) (k : Int) :
    valueAt stabs k ≤ addr.toNat := by
  subst htop
  exact Nat.le_of_lt_succ (valueAt_lt stabs k)

theorem toNat_top_sub (stabs : List Stab) (htop : addr = 0xFFFFFFFF) :
    (addr - BitVec.ofNat 32 (valueAt stabs 0)).toNat = 2 ^ 32 - 1 - valueAt stabs 0 := by
  have hlt := valueAt_lt stabs 0
  have hall : addr.toNat = 2 ^ 32 - 1 := congrArg BitVec.toNat htop
  rw [BitVec.toNat_sub, BitVec.toNat_ofNat, Nat.mod_eq_of_lt hlt, hall]
  omega

/-- When the search for the line leaves the table, the search for the file has wrapped. -/
theorem LineFallsOff.topOfMemory {s : Bisection} (h : LineFallsOff stabs x y addr)
    (hpasses : Passes (OfType stabs N_SO) (valueAt stabs) bump
      (.start 0 (stabs.length - 1) addr.toNat) s)
    (hout : Outcome (OfType stabs N_SO) s x y) : TopOfMemory stabs addr := by
  obtain ⟨hx, hfn, hline⟩ := h
  obtain ⟨hT, hval⟩ := fallsOff_self.mp hline
  have hnone := not_file_of_line_fn hT hfn.marked
  have hwraps := hout.wraps hpasses bump_ne (by omega) (by decide) hnone hx
  have htop : addr = 0xFFFFFFFF := BitVec.eq_of_toNat_eq ((bump_lt_iff addr.isLt).mp hwraps)
  have hrewinds := (hout.rewinds_iff hpasses bump_ne (by omega) (by decide) hnone
    (valueAt_le_top stabs htop)).mp hx
  refine ⟨htop, hT, ?_, hfn.marked, ?_, hrewinds⟩
  · have hlt := valueAt_lt stabs 0
    have hdiff := toNat_top_sub stabs htop
    rcases hval with habove | ⟨heq, hwrap⟩
    · omega
    · have := (bump_lt_iff (BitVec.isLt _)).mp hwrap
      omega
  · have hmax := valueAt_le_top stabs htop 1
    rcases hfn.above 1 (leftProbe_left hfn.marked hfn.le) with habove | ⟨-, heq, -⟩
    · omega
    · exact heq

theorem TopOfMemory.lineFallsOff {s : Bisection} (h : TopOfMemory stabs addr)
    (hlands : Lands 0 (stabs.length - 1) x y)
    (hpasses : Passes (OfType stabs N_SO) (valueAt stabs) bump
      (.start 0 (stabs.length - 1) addr.toNat) s)
    (hout : Outcome (OfType stabs N_SO) s x y) : LineFallsOff stabs x y addr := by
  obtain ⟨htop, hT, hfar, hfn, hvalue, hrewinds⟩ := h
  have hnone := not_file_of_line_fn hT hfn
  have hx : x = 1 := (hout.rewinds_iff hpasses bump_ne (by omega) (by decide) hnone
    (valueAt_le_top stabs htop)).mpr hrewinds
  obtain ⟨hleft, hright⟩ := (hout.eq_iff hpasses (by omega) (by decide)
    (hnone 1 (by decide) (Int.le_refl 1))).mp hx
  have hxy : x ≤ y := by
    have := hlands.order
    omega
  have hb := Passes.bounds hpasses.1 (bounds_start (by omega))
  obtain rfl : y = 1 := by
    have := hout.right_eq hxy
    have := hb.right_eq
    omega
  have hwrap : bump addr.toNat < addr.toNat := (bump_lt_iff addr.isLt).mpr (htop ▸ rfl)
  have hdiff := toNat_top_sub stabs htop
  exact ⟨hx, fallsOff_self.mpr ⟨hfn, .inr ⟨hvalue, hwrap⟩⟩,
    fallsOff_self.mpr ⟨hT, .inl (by omega)⟩⟩

/-- The lookup ends, and it reads in front of the table exactly when the search for the file falls
off the table, or the search for the line does at the top of memory. -/
theorem debuginfoEip_settles (stabs : List Stab) (haddr : ulim ≤ addr)
    (hstr : stabstr.getLast? = some 0) :
    ∃ z, Settles (fun n => debuginfoEip n stabs stabstr addr) z ∧
      ((∃ r, z = .ok r) ∧ ¬ (FileFallsOff stabs addr ∨ TopOfMemory stabs addr) ∨
        z = .error .fault ∧ (FileFallsOff stabs addr ∨ TopOfMemory stabs addr)) := by
  obtain ⟨x, y, s, hrun, hlands, hiff, hpasses, hout⟩ :=
    stabBinsearch_lands stabs N_SO addr (Int.le_refl 0) (by omega)
      (by omega : (stabs.length : Int) - 1 < stabs.length)
  have hline : LineFallsOff stabs x y addr ↔ TopOfMemory stabs addr :=
    ⟨fun h => h.topOfMemory hpasses hout, fun h => h.lineFallsOff hlands hpasses hout⟩
  obtain ⟨hge, hle, horder, hoff⟩ := hlands
  have hbody : ∀ n, debuginfoEip n stabs stabstr addr =
      stabBinsearch n stabs 0 (stabs.length - 1) N_SO addr >>= fun p =>
        if p.1 = 0 then .ok (-1, initInfo addr)
        else fileInfo n stabs stabstr p.1 p.2 addr (initInfo addr) := by
    intro n
    rw [debuginfoEip, if_neg (BitVec.not_lt.mpr haddr), if_neg (not_not_intro hstr)]
    rfl
  rcases Int.lt_trichotomy x 0 with hneg | rfl | hpos
  · obtain rfl : x = -1 := by omega
    obtain rfl : y = -1 := by omega
    refine ⟨.error .fault, ?_, .inr ⟨rfl, .inl (hiff.mp hneg)⟩⟩
    refine (hrun.bind ?_).congr hbody
    exact ((stabBinsearch_fault stabs N_FUN addr hneg).bind_error).congr fun n => rfl
  · refine ⟨_, (hrun.bind (Settles.const _)).congr hbody, .inl ⟨⟨_, rfl⟩, ?_⟩⟩
    rintro (hfile | htop)
    · exact Int.lt_irrefl 0 (hiff.mpr hfile)
    · exact absurd (hline.mpr htop).file (by decide)
  · have hname : (0 : Byte) ∈ (initInfo addr).eipFnName := List.mem_append_right _ (by decide)
    obtain ⟨z, hz, hcases⟩ := fileInfo_settles addr hstr hname (by omega : 1 ≤ x)
      (by omega) (by omega : y < stabs.length)
    have hfile : ¬ FileFallsOff stabs addr := by
      intro h
      have := hiff.mpr h
      omega
    refine ⟨z, (hrun.bind (hz.congr fun n => if_neg (by omega))).congr hbody, ?_⟩
    rw [or_iff_right hfile, ← hline]
    exact hcases

theorem debuginfoEip_of_strings (haddr : ulim ≤ addr) (hstr : stabstr.getLast? ≠ some 0) (n : ℕ) :
    debuginfoEip n stabs stabstr addr = .ok (-1, initInfo addr) := by
  rw [debuginfoEip, if_neg (BitVec.not_lt.mpr haddr), if_pos hstr]
  rfl

/-- The tables and the addresses for which every read lies inside the table of symbols. -/
theorem debuginfoEip_inBounds_iff (stabs : List Stab) (stabstr : List Byte) (addr : BitVec 32)
    (haddr : ulim ≤ addr) :
    ((∃ r, Settles (fun n => debuginfoEip n stabs stabstr addr) (.ok r)) ↔
      stabstr.getLast? ≠ some 0 ∨ ¬ FileFallsOff stabs addr ∧ ¬ TopOfMemory stabs addr) ∧
    (Settles (fun n => debuginfoEip n stabs stabstr addr) (.error .fault) ↔
      stabstr.getLast? = some 0 ∧ (FileFallsOff stabs addr ∨ TopOfMemory stabs addr)) := by
  by_cases hstr : stabstr.getLast? = some 0
  · obtain ⟨z, hz, hcases⟩ := debuginfoEip_settles stabs haddr hstr
    rcases hcases with ⟨⟨r, rfl⟩, hgood⟩ | ⟨rfl, hbad⟩
    · refine ⟨iff_of_true ⟨r, hz⟩ (.inr (not_or.mp hgood)), iff_of_false ?_ ?_⟩
      · intro hfault
        exact nomatch hz.unique hfault
      · rintro ⟨-, hbad⟩
        exact hgood hbad
    · refine ⟨iff_of_false ?_ ?_, iff_of_true hz ⟨hstr, hbad⟩⟩
      · rintro ⟨r, hr⟩
        exact nomatch hz.unique hr
      · rintro (hne | hgood)
        · exact hne hstr
        · exact not_or.mpr hgood hbad
  · have hz : Settles (fun n => debuginfoEip n stabs stabstr addr) (.ok (-1, initInfo addr)) :=
      (Settles.const _).congr (debuginfoEip_of_strings haddr hstr)
    refine ⟨iff_of_true ⟨_, hz⟩ (.inl hstr), iff_of_false ?_ ?_⟩
    · intro hfault
      exact nomatch hz.unique hfault
    · rintro ⟨h, -⟩
      exact hstr h

/-- The search for the line leaves this table. -/
example : debuginfoEip 9 [stab N_SLINE 0x80000000, stab N_FUN 0xFFFFFFFF, stab N_SO 0xFFFFFFFF] [0]
    0xFFFFFFFF = .error .fault := by rfl

/-- The address lies behind the start of the only file. -/
theorem debuginfoEip_inBounds_one :
    ∃ r, Settles (fun n => debuginfoEip n [stab N_SO 0xF0100000] [0] 0xF0100008) (.ok r) := by
  refine (debuginfoEip_inBounds_iff [stab N_SO 0xF0100000] [0] 0xF0100008 (by decide)).1.mpr
    (.inr ⟨?_, ?_⟩)
  · intro h
    exact absurd (fallsOff_self.mp h).2 (by decide)
  · intro h
    exact absurd h.top (by decide)

/-- The address lies in front of the start of the only file. -/
theorem debuginfoEip_leaves_table : ¬ ∀ stabs stabstr addr, ulim ≤ addr →
    ¬ Settles (fun n => debuginfoEip n stabs stabstr addr) (.error .fault) := by
  intro h
  obtain ⟨z, hz, ⟨-, hgood⟩ | ⟨rfl, -⟩⟩ := debuginfoEip_settles
    [stab N_SO 0xF0100000] (by decide : ulim ≤ 0xF0000000) (rfl : [(0 : Byte)].getLast? = some 0)
  · exact hgood (.inl (fallsOff_self.mpr ⟨⟨_, rfl, rfl⟩, .inl (by decide)⟩))
  · exact h _ _ _ (by decide) hz

end Jos
