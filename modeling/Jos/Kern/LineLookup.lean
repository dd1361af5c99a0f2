import Jos.Kern.Landing

/-! `debuginfo_eip` and the lines that it cannot find. -/
namespace Jos

open Prog

variable {stabs : List Stab} {stabstr : List Byte} {addr a ret : BitVec 32}
  {L R x y k lfile rfile lfun rfun lline rline : Int} {info info' : Eipdebuginfo} {n : ℕ}

/-! ### The line of an address, by the table -/

/-- The entry of the type in `[L, R]` that contains `addr`: of those at or below it the one with
the greatest value, and of these the last. It ends at `y`. -/
structure Region (stabs : List Stab) (type addr : BitVec 32) (L R x y : Int) : Prop where
  mem : x ∈ entries stabs type L R
  le : valueAt stabs x ≤ addr.toNat
  greatest : ∀ k ∈ entries stabs type L R, valueAt stabs k ≤ addr.toNat →
    valueAt stabs k < valueAt stabs x ∨ valueAt stabs k = valueAt stabs x ∧ k ≤ x
  ends : EndsBefore {k ∈ entries stabs type L R | x < k} R y

/-- The entries of the function that contains `addr`, and the address inside it; or those of the
file, when no function of the file starts at or below `addr`. -/
inductive Enclosing (stabs : List Stab) (addr : BitVec 32) : Int → Int → BitVec 32 → Prop
  | function {lfile rfile lfun rfun : Int} {e : Stab} :
      Region stabs N_SO addr 0 (stabs.length - 1) lfile rfile →
      Region stabs N_FUN addr lfile rfile lfun rfun → stabAt stabs lfun = .ok e →
      Enclosing stabs addr lfun rfun (addr - e.nValue)
  | file {lfile rfile : Int} : Region stabs N_SO addr 0 (stabs.length - 1) lfile rfile →
      (∀ k ∈ entries stabs N_FUN lfile rfile, addr.toNat < valueAt stabs k) →
      Enclosing stabs addr lfile rfile addr

/-- A line of the function (or file) around `addr`, at or below the address. -/
def IsLine (stabs : List Stab) (addr : BitVec 32) (k : Int) : Prop :=
  ∃ L R a, Enclosing stabs addr L R a ∧ k ∈ entries stabs N_SLINE L R ∧ valueAt stabs k ≤ a.toNat

/-! ### The search for the line -/

theorem debuginfoEip_of_file (haddr : ulim ≤ addr) (hstr : stabstr.getLast? = some 0)
    (hfile : Finds stabs 0 (stabs.length - 1) N_SO addr lfile rfile)
    {z : Res (BitVec 32 × Eipdebuginfo)}
    (hz : Settles (fun n => if lfile = 0 then .ok (-1, initInfo addr)
      else fileInfo n stabs stabstr lfile rfile addr (initInfo addr)) z) :
    Settles (fun n => debuginfoEip n stabs stabstr addr) z := by
  refine (Settles.bind (g := fun n p => if p.1 = 0 then .ok (-1, initInfo addr)
    else fileInfo n stabs stabstr p.1 p.2 addr (initInfo addr)) hfile hz).congr fun n => ?_
  rw [debuginfoEip, if_neg (BitVec.not_lt.mpr haddr), if_neg (not_not_intro hstr)]
  rfl

/-- A file was found behind the entry 0. -/
theorem file_bounds (hfile : Finds stabs 0 (stabs.length - 1) N_SO addr lfile rfile)
    (hne : lfile ≠ 0) (hge : 0 ≤ lfile) :
    1 ≤ lfile ∧ lfile ≤ rfile ∧ rfile < stabs.length := by
  obtain ⟨-, hle, horder, -⟩ := hfile.lands (Int.le_refl 0) (by omega) (by omega)
  omega

/-- A search that starts in front of the table finds nothing. -/
theorem Finds.left_ge {type : BitVec 32}
    (hfile : Finds stabs 0 (stabs.length - 1) N_SO addr lfile rfile)
    (h : Finds stabs lfile rfile type a x y) : 0 ≤ lfile := by
  obtain ⟨hge, -, -, hoff⟩ := hfile.lands (Int.le_refl 0) (by omega) (by omega)
  by_contra hneg
  obtain rfl : rfile = lfile := by omega
  exact nomatch Settles.unique h (stabBinsearch_fault stabs type a (by omega))

theorem Finds.file_landing (h : Finds stabs 0 (stabs.length - 1) N_SO addr lfile rfile) :
    Landing stabs N_SO addr 0 (stabs.length - 1) lfile rfile :=
  h.landing (Int.le_refl 0) (by omega) (by omega)

/-- The file of a line, and its function if there is one. -/
theorem IsLine.inside (h : IsLine stabs addr k)
    (hm : Meets stabs N_SO addr 0 (stabs.length - 1) lfile rfile) (hk : lfile ≤ k)
    (hkr : k ≤ rfile) : Region stabs N_SO addr 0 (stabs.length - 1) lfile rfile ∧
      ((∃ lfun rfun, Region stabs N_FUN addr lfile rfile lfun rfun ∧ lfun ≤ k ∧ k ≤ rfun) ∨
        ∀ j ∈ entries stabs N_FUN lfile rfile, addr.toNat < valueAt stabs j) := by
  obtain ⟨L, R, a, henc, ⟨hL, hR, -⟩, -⟩ := h
  cases henc with
  | @function x y lfun rfun e hfile hfun he =>
    obtain ⟨-, hle⟩ := hfun.ends.le hfun.mem.2.1
    have hge := hfun.mem.1
    obtain ⟨rfl, rfl⟩ := region_unique hm.mem hfile.mem hm.ends hfile.ends hk hkr
      (by omega) (by omega)
    exact ⟨hfile, .inl ⟨L, R, hfun, hL, hR⟩⟩
  | file hfile hnone =>
    obtain ⟨rfl, rfl⟩ := region_unique hm.mem hfile.mem hm.ends hfile.ends hk hkr hL hR
    exact ⟨hfile, .inr hnone⟩

theorem Meets.file_finds (h : Meets stabs N_SO addr 0 (stabs.length - 1) lfile rfile) :
    Finds stabs 0 (stabs.length - 1) N_SO addr lfile rfile :=
  h.finds (Int.le_refl 0) (by omega) (by omega)

theorem Meets.file_bounds (h : Meets stabs N_SO addr 0 (stabs.length - 1) lfile rfile) :
    0 ≤ lfile ∧ lfile ≤ rfile ∧ rfile < stabs.length := by
  obtain ⟨hge, hle, -⟩ := h.mem
  obtain ⟨hlr, hr⟩ := h.ends.le hle
  omega

/-- The entry of a file is none of a function. -/
theorem Meets.not_fun (h : Meets stabs N_SO addr 0 (stabs.length - 1) lfile rfile) :
    ¬ OfType stabs N_FUN lfile :=
  fun hT => absurd (h.mem.2.2.unique hT) (by decide)

/-- In front of the first function of a file, the search for the function returns the entry of the
file. -/
theorem Meets.finds_before (h : Meets stabs N_SO addr 0 (stabs.length - 1) lfile rfile)
    (hled : LedTo stabs N_FUN addr lfile rfile lfile)
    (hleast : IsLeast (entries stabs N_FUN lfile rfile) (rfun + 1)) :
    lfile ≤ rfun ∧ Finds stabs lfile rfile N_FUN addr lfile rfun := by
  obtain ⟨h0, hlr, hr⟩ := h.file_bounds
  have hle : lfile ≤ rfun := by
    have hge := hleast.1.1
    have hne : rfun + 1 ≠ lfile := fun heq => h.not_fun (heq ▸ hleast.1.2.2)
    omega
  exact ⟨hle, Landing.finds h0 (by omega) hr (.before hleast hle hled)⟩

end Jos
