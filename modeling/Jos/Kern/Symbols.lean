import Jos.Kern.ArgCount
import Mathlib.Data.List.Induction
import Mathlib.Data.List.TakeWhile

/-!
The table of debugging symbols as a compiler writes it, one source file after the other, and what
`debuginfo_eip` finds in it for an address in the code of a line.
-/
namespace Jos

open Prog

abbrev Stab.type (e : Stab) : BitVec 32 := e.nType.setWidth 32

/-- The entries of a type are in the order of their addresses. -/
def Rising (type : BitVec 32) (es : List Stab) : Prop :=
  (es.filter (·.type = type)).Pairwise (·.nValue ≤ ·.nValue)

instance (type : BitVec 32) (es : List Stab) : Decidable (Rising type es) :=
  inferInstanceAs (Decidable (List.Pairwise _ _))

variable {A M M₁ M₂ M₃ C es : List Stab} {type addr : BitVec 32} {e : Stab} {i j : ℕ} {x y k : Int}

/-! ### Searching a part of a table -/

theorem stabAt_nat (stabs : List Stab) (h : stabs[i]? = some e) : stabAt stabs i = .ok e := by
  rw [stabAt, if_pos (Int.natCast_nonneg i), Int.toNat_natCast, h]

theorem stabAt_append (A : List Stab) (e : Stab) (C : List Stab) :
    stabAt (A ++ e :: C) A.length = .ok e :=
  stabAt_nat _ (by rw [List.getElem?_append_right (Nat.le_refl _), Nat.sub_self]; rfl)

theorem stabAt_append₂ (A B : List Stab) (e : Stab) (C : List Stab) :
    stabAt (A ++ (B ++ e :: C)) (A.length + B.length) = .ok e := by
  have h := stabAt_append (A ++ B) e C
  rw [List.append_assoc, List.length_append, Int.natCast_add] at h
  exact h

theorem getElem?_part (hi : i < M.length) : (A ++ M ++ C)[A.length + i]? = M[i]? := by
  rw [List.append_assoc, List.getElem?_append_right (Nat.le_add_right _ _), Nat.add_sub_cancel_left,
    List.getElem?_append_left hi]

theorem stabAt_part (hi : i < M.length) :
    stabAt (A ++ M ++ C) ((A.length : Int) + i) = .ok M[i] := by
  have hget := getElem?_part (A := A) (C := C) hi
  rw [List.getElem?_eq_getElem hi] at hget
  exact_mod_cast stabAt_nat _ hget

theorem ofType_part (hi : i < M.length) :
    OfType (A ++ M ++ C) type ((A.length : Int) + i) ↔ M[i].type = type :=
  ofType_iff (stabAt_part hi)

theorem valueAt_part (hi : i < M.length) :
    valueAt (A ++ M ++ C) ((A.length : Int) + i) = M[i].nValue.toNat :=
  valueAt_eq (stabAt_part hi)

/-- A place of the part. -/
theorem exists_index (h : (A.length : Int) ≤ k) (hk : k ≤ (A.length : Int) + M.length - 1) :
    ∃ i, i < M.length ∧ k = (A.length : Int) + i :=
  ⟨(k - A.length).toNat, by omega, by omega⟩

theorem rising_iff : Rising type es ↔
    es.Pairwise fun a b => a.type = type → b.type = type → a.nValue ≤ b.nValue := by
  rw [Rising, List.pairwise_filter]
  simp only [decide_eq_true_eq]

theorem Rising.ascending (h : Rising type M) :
    Ascending (OfType (A ++ M ++ C) type) (valueAt (A ++ M ++ C)) A.length
      ((A.length : Int) + M.length - 1) := by
  intro p q hp hpq hq hTp hTq
  obtain ⟨i, hi, rfl⟩ := exists_index hp (Int.le_trans hpq hq)
  obtain ⟨j, hj, rfl⟩ := exists_index (Int.le_trans hp hpq) hq
  rw [ofType_part hi] at hTp
  rw [ofType_part hj] at hTq
  rw [valueAt_part hi, valueAt_part hj]
  rcases Nat.lt_or_ge i j with hlt | hge
  · exact List.pairwise_iff_getElem.mp (rising_iff.mp h) i j hi hj hlt hTp hTq
  · obtain rfl : i = j := by omega
    exact Nat.le_refl _

/-- The last entry of the type that is below the address splits the part in two. -/
structure Below (type addr : BitVec 32) (M₁ : List Stab) (e : Stab) (M₂ : List Stab) : Prop where
  rising : Rising type (M₁ ++ e :: M₂)
  marked : e.type = type
  lt : e.nValue < addr
  above : ∀ a ∈ M₂, a.type = type → addr < a.nValue

theorem Below.before (h : Below type addr M₁ e M₂) {a : Stab} (ha : a ∈ M₁) (hT : a.type = type) :
    a.nValue < addr := by
  have hpair := (List.pairwise_append.mp (rising_iff.mp h.rising)).2.2 a ha e List.mem_cons_self
  exact Nat.lt_of_le_of_lt (hpair hT h.marked) h.lt

/-- The entries of the type are below the address up to `e`, and above it from there on. -/
theorem Below.side (h : Below type addr M₁ e M₂) (hi : i < (M₁ ++ e :: M₂).length)
    (hT : (M₁ ++ e :: M₂)[i].type = type) :
    i ≤ M₁.length ∧ (M₁ ++ e :: M₂)[i].nValue < addr ∨
      M₁.length < i ∧ addr < (M₁ ++ e :: M₂)[i].nValue := by
  rcases Nat.lt_trichotomy i M₁.length with hlt | rfl | hgt
  · rw [List.getElem_append_left hlt] at hT ⊢
    exact .inl ⟨Nat.le_of_lt hlt, h.before (List.getElem_mem hlt) hT⟩
  · left
    rw [List.getElem_append_right (Nat.le_refl _)]
    simpa using h.lt
  · right
    obtain ⟨d, rfl⟩ : ∃ d, i = M₁.length + (d + 1) := ⟨i - M₁.length - 1, by omega⟩
    rw [List.getElem_append_right (by omega)] at hT ⊢
    simp only [Nat.add_sub_cancel_left, List.getElem_cons_succ] at hT ⊢
    exact ⟨hgt, h.above _ (List.getElem_mem _) hT⟩

/-- The search ends at the last entry below the address, and goes up to the next one. -/
theorem Below.finds (h : Below type addr M₁ e M₂) (hM : M = M₁ ++ e :: M₂) :
    ∃ y, Finds (A ++ M ++ C) A.length ((A.length : Int) + M.length - 1) type addr
        ((A.length : Int) + M₁.length) y ∧
      (A.length : Int) + M₁.length ≤ y ∧ y ≤ (A.length : Int) + M.length - 1 ∧
      (y = (A.length : Int) + M.length - 1 ∨ OfType (A ++ M ++ C) type (y + 1)) ∧
      ∀ k, (A.length : Int) + M₁.length < k → k ≤ y → ¬ OfType (A ++ M ++ C) type k := by
  subst hM
  have hlen : (A ++ (M₁ ++ e :: M₂) ++ C).length =
      A.length + (M₁ ++ e :: M₂).length + C.length := by simp only [List.length_append]
  have hmid : M₁.length < (M₁ ++ e :: M₂).length := by
    rw [List.length_append, List.length_cons]
    omega
  have hTe : (M₁ ++ e :: M₂)[M₁.length].type = type := by simpa using h.marked
  have hlte : (M₁ ++ e :: M₂)[M₁.length].nValue < addr := by simpa using h.lt
  have hmiss : ∀ k, (A.length : Int) ≤ k → k ≤ (A.length : Int) + (M₁ ++ e :: M₂).length - 1 →
      OfType (A ++ (M₁ ++ e :: M₂) ++ C) type k →
      valueAt (A ++ (M₁ ++ e :: M₂) ++ C) k ≠ addr.toNat := by
    intro k hk hk' hT
    obtain ⟨i, hi, rfl⟩ := exists_index hk hk'
    rw [valueAt_part hi]
    rcases h.side hi ((ofType_part hi).mp hT) with ⟨-, hlt⟩ | ⟨-, hgt⟩
    · exact Nat.ne_of_lt hlt
    · exact Nat.ne_of_gt hgt
  obtain ⟨x, y, s, hrun, hpasses, hout⟩ :=
    stabBinsearch_settles (Int.natCast_nonneg A.length)
      (by omega : (A.length : Int) + (M₁ ++ e :: M₂).length - 1 <
        (A ++ (M₁ ++ e :: M₂) ++ C).length) type addr
  obtain ⟨hb, hbr, htarget⟩ := Passes.brackets hpasses.1 bump_ne (bounds_start (by omega))
    brackets_start h.rising.ascending hmiss
  have htarget : s.target = addr.toNat := htarget
  have hex : (A.length : Int) ≤ (A.length : Int) + M₁.length ∧ (A.length : Int) + M₁.length ≤
      (A.length : Int) + (M₁ ++ e :: M₂).length - 1 ∧
      OfType (A ++ (M₁ ++ e :: M₂) ++ C) type ((A.length : Int) + M₁.length) ∧
      valueAt (A ++ (M₁ ++ e :: M₂) ++ C) ((A.length : Int) + M₁.length) < s.target := by
    rw [ofType_part hmid, valueAt_part hmid, htarget]
    exact ⟨by omega, by omega, hTe, hlte⟩
  obtain ⟨⟨hLx, hxy, hTx, hltx, hnone⟩, hnext, hyR, habove⟩ :=
    hbr.outcome hb hpasses.2 ⟨_, hex⟩ hout
  have hx : x = (A.length : Int) + M₁.length := by
    obtain ⟨i, hi, rfl⟩ := exists_index hLx (Int.le_trans hxy hyR)
    rw [valueAt_part hi, htarget] at hltx
    rcases h.side hi ((ofType_part hi).mp hTx) with ⟨hle, -⟩ | ⟨-, hgt⟩
    · rcases Nat.lt_or_eq_of_le hle with hlt | rfl
      · rcases Int.lt_or_le y ((A.length : Int) + M₁.length) with hy | hy
        · have := habove _ hy hex.2.1 hex.2.2.1
          have := hex.2.2.2
          omega
        · exact absurd hex.2.2.1 (hnone _ (by omega) hy)
      · rfl
    · exact absurd hltx (Nat.lt_asymm hgt)
  subst hx
  exact ⟨y, hrun, hxy, hyR, hnext, hnone⟩

/-- Up to the next entry of the type. -/
theorem Below.finds_upto (h : Below type addr M₁ e (M₂ ++ M₃)) (hM : M = M₁ ++ e :: (M₂ ++ M₃))
    (hnone : ∀ a ∈ M₂, a.type ≠ type) (hnext : ∀ a ∈ M₃.head?, a.type = type) :
    Finds (A ++ M ++ C) A.length ((A.length : Int) + M.length - 1) type addr
      ((A.length : Int) + M₁.length) ((A.length : Int) + M₁.length + M₂.length) := by
  obtain ⟨y, hfinds, hxy, hyR, hy, hbetween⟩ := h.finds (A := A) (C := C) hM
  subst hM
  have hlen : (M₁ ++ e :: (M₂ ++ M₃)).length = M₁.length + 1 + M₂.length + M₃.length := by
    simp only [List.length_append, List.length_cons]
    omega
  have heq : y = (A.length : Int) + M₁.length + M₂.length := by
    rcases Int.lt_trichotomy y ((A.length : Int) + M₁.length + M₂.length) with hlt | heq | hgt
    · have hT := hy.resolve_left (by omega)
      obtain ⟨i, hi, hiy⟩ := exists_index (A := A) (M := M₁ ++ e :: (M₂ ++ M₃)) (k := y + 1)
        (by omega) (by omega)
      rw [hiy, ofType_part hi] at hT
      obtain ⟨d, rfl⟩ : ∃ d, i = M₁.length + (d + 1) := ⟨i - M₁.length - 1, by omega⟩
      have hd : d < M₂.length := by omega
      rw [List.getElem_append_right (by omega)] at hT
      simp only [Nat.add_sub_cancel_left, List.getElem_cons_succ,
        List.getElem_append_left hd] at hT
      exact absurd hT (hnone _ (List.getElem_mem hd))
    · exact heq
    · cases M₃ with
      | nil =>
        rw [List.length_nil] at hlen
        omega
      | cons a M₃ =>
        have hi : M₁.length + (M₂.length + 1) < (M₁ ++ e :: (M₂ ++ a :: M₃)).length := by
          rw [hlen, List.length_cons]
          omega
        refine absurd ((ofType_part hi).mpr ?_) (hbetween _ (by omega) (by omega))
        rw [List.getElem_append_right (by omega)]
        simpa using hnext a rfl
  rwa [heq] at hfinds

/-! ### The other two loops -/

/-- The scan for the file name stops here. -/
def isSource (e : Stab) : Bool := e.type = N_SOL ∨ (e.type = N_SO ∧ e.nValue ≠ 0)

/-- The scan backwards stops at the last place of the part where it can. -/
theorem fileBody_finds (A M₁ C : List Stab) {q : Stab} (hq : isSource q)
    (hnone : ∀ a ∈ M₂, ¬ isSource a) :
    Settles (fun n => loop (fileBody (A ++ (M₁ ++ q :: M₂) ++ C) A.length) n
      ((A.length : Int) + M₁.length + M₂.length)) (.ok ((A.length : Int) + M₁.length)) := by
  induction M₂ using List.reverseRecOn generalizing C with
  | nil =>
    have hi : M₁.length < (M₁ ++ [q]).length := by simp
    have hat := stabAt_part (A := A) (C := C) hi
    rw [List.getElem_concat_length rfl] at hat
    refine .loop_exit ?_
    rw [List.length_nil, Int.natCast_zero, Int.add_zero, fileBody, if_pos (by omega), hat, ok_bind,
      if_neg]
    · rfl
    · rintro ⟨hsol, hso⟩
      simp only [isSource, decide_eq_true_eq] at hq
      rcases hq with hq | ⟨hq, hne⟩
      · exact hsol hq
      · exact hso.elim (fun h => h hq) hne
  | append_singleton M₂ a ih =>
    have hi : (M₁ ++ q :: M₂).length < (M₁ ++ q :: (M₂ ++ [a])).length := by
      simp only [List.length_append, List.length_cons, List.length_nil]
      omega
    have hat := stabAt_part (A := A) (C := C) hi
    have hlast : (M₁ ++ q :: (M₂ ++ [a]))[(M₁ ++ q :: M₂).length] = a := by
      simp only [← List.cons_append, ← List.append_assoc]
      exact List.getElem_concat_length rfl _
    rw [hlast, List.length_append, List.length_cons] at hat
    have hrest := ih (a :: C) fun b hb => hnone b (List.mem_append_left _ hb)
    have hsplit : A ++ (M₁ ++ q :: M₂) ++ a :: C = A ++ (M₁ ++ q :: (M₂ ++ [a])) ++ C := by
      simp only [List.append_assoc, List.cons_append, List.nil_append]
    rw [hsplit] at hrest
    refine .loop_next (t := (A.length : Int) + M₁.length + M₂.length) ?_ hrest
    have hstart : (A.length : Int) + M₁.length + (M₂ ++ [a]).length =
        (A.length : Int) + ((M₁.length + (M₂.length + 1) : ℕ) : Int) := by
      rw [List.length_append, List.length_singleton]
      omega
    rw [hstart, fileBody, if_pos (by omega), hat, ok_bind, if_pos]
    · change Except.ok (Sum.inl _) = _
      congr 2
      omega
    · have hno := hnone a (List.mem_append_right _ (List.mem_singleton.mpr rfl))
      simp only [isSource, decide_eq_true_eq, not_or, not_and, not_not] at hno
      refine ⟨hno.1, ?_⟩
      by_cases hso : a.type = N_SO
      · exact .inr (hno.2 hso)
      · exact .inl hso

/-- The parameters come first. -/
theorem params_part (hpsym : ∀ a ∈ M₁, a.type = N_PSYM) (hnone : ∀ a ∈ M₂, a.type ≠ N_PSYM) :
    params (A ++ (M₁ ++ M₂) ++ C) A.length (A.length + (M₁ ++ M₂).length) = M₁.length := by
  have htake : (A ++ (M₁ ++ M₂) ++ C).take (A.length + (M₁ ++ M₂).length) = A ++ (M₁ ++ M₂) := by
    rw [← List.length_append, List.take_left]
  have hrest : M₂.takeWhile (fun a => decide (a.nType.setWidth 32 = N_PSYM)) = [] := by
    cases M₂ with
    | nil => rfl
    | cons a M₂ => exact List.takeWhile_cons_of_neg (by simpa using hnone a List.mem_cons_self)
  rw [params, htake, List.drop_left, List.takeWhile_append_of_pos (by simpa using hpsym), hrest,
    List.append_nil]

/-! ### What a compiler writes -/

/-- A function: its entry, those of its parameters, and those of its code. -/
structure FnSyms where
  entry : Stab
  params : List Stab
  body : List Stab
  entry_type : entry.type = N_FUN
  params_type : ∀ e ∈ params, e.type = N_PSYM
  body_type : ∀ e ∈ body, e.type ≠ N_SO ∧ e.type ≠ N_FUN ∧ e.type ≠ N_PSYM
  lines_rising : Rising N_SLINE body

def FnSyms.stabs (f : FnSyms) : List Stab := f.entry :: (f.params ++ f.body)

/-- A source file, with an entry at its start and one at its end. -/
structure FileSyms where
  entry : Stab
  head : List Stab
  fns : List FnSyms
  stop : Stab
  entry_type : entry.type = N_SO
  entry_value : entry.nValue ≠ 0
  head_type : ∀ e ∈ head, e.type ≠ N_SO ∧ e.type ≠ N_FUN
  stop_type : stop.type = N_SO
  fns_rising : fns.Pairwise (·.entry.nValue ≤ ·.entry.nValue)

/-- What is between the two entries of a file. -/
def FileSyms.inner (s : FileSyms) : List Stab := s.head ++ s.fns.flatMap FnSyms.stabs

def FileSyms.stabs (s : FileSyms) : List Stab := s.entry :: (s.inner ++ [s.stop])

/-- The tables that the linker makes of all files. -/
structure SymTab where
  header : Stab
  files : List FileSyms
  strings : List Byte
  header_type : header.type ≠ N_SO
  files_rising : (files.flatMap fun s => [s.entry, s.stop]).Pairwise (·.nValue ≤ ·.nValue)
  strings_end : strings.getLast? = some 0
  names : ∀ e ∈ header :: files.flatMap FileSyms.stabs, e.nStrx.toNat < strings.length

def SymTab.stabs (t : SymTab) : List Stab := t.header :: t.files.flatMap FileSyms.stabs

/-- The string at an offset. -/
def SymTab.string (t : SymTab) (i : BitVec 32) : List Byte :=
  (t.strings.drop i.toNat).takeWhile (· ≠ 0)

/-- `addr` lies in the code of a line, behind the first byte of the line, of the function and of
the file. -/
structure Spot (t : SymTab) (addr : BitVec 32) where
  files₁ : List FileSyms
  file : FileSyms
  files₂ : List FileSyms
  fns₁ : List FnSyms
  fn : FnSyms
  fns₂ : List FnSyms
  body₁ : List Stab
  line : Stab
  body₂ : List Stab
  files_eq : t.files = files₁ ++ file :: files₂
  fns_eq : file.fns = fns₁ ++ fn :: fns₂
  body_eq : fn.body = body₁ ++ line :: body₂
  kernel : ulim ≤ addr
  file_lt : file.entry.nValue < addr
  lt_stop : addr < file.stop.nValue
  fn_lt : fn.entry.nValue < addr
  lt_next : ∀ g ∈ fns₂, addr < g.entry.nValue
  line_type : line.type = N_SLINE
  line_lt : line.nValue < addr - fn.entry.nValue
  lt_line : ∀ e ∈ body₂, e.type = N_SLINE → addr - fn.entry.nValue < e.nValue

/-- A string ends at the first NUL. -/
theorem exists_string {u : List Byte} (h : 0 ∈ u) :
    ∃ post, u = u.takeWhile (· ≠ 0) ++ 0 :: post := by
  induction u with
  | nil => cases h
  | cons b u ih =>
    by_cases hb : b = 0
    · subst hb
      exact ⟨u, rfl⟩
    · obtain ⟨post, hpost⟩ := ih ((List.mem_cons.mp h).resolve_left (Ne.symm hb))
      refine ⟨post, ?_⟩
      rw [List.takeWhile_cons_of_pos (by simpa using hb), List.cons_append, ← hpost]

namespace Spot

variable {t : SymTab} {addr : BitVec 32} (p : Spot t addr)

/-- What is in front of the file. -/
def before : List Stab := t.header :: p.files₁.flatMap FileSyms.stabs

/-- What is between the entry of the file and that of the function. -/
def between : List Stab := p.file.head ++ p.fns₁.flatMap FnSyms.stabs

/-- The entry with the name of the source file: the last one in front of the line, down to the
entry of the file, which may be that of a file that is included. -/
def source : Stab :=
  (((p.file.entry :: p.between) ++ p.fn.entry :: (p.fn.params ++ p.body₁)).findRev? isSource).getD
    p.file.entry

/-- The name of the function, without its type. -/
def fnName : List Byte := (t.string p.fn.entry.nStrx).takeWhile (· ≠ chr ':')

/-- What is known of the address. -/
def info : Eipdebuginfo where
  eipFile := t.strings.drop p.source.nStrx.toNat
  eipLine := p.line.nDesc.setWidth 32
  eipFnName := t.strings.drop p.fn.entry.nStrx.toNat
  eipFnNamelen := BitVec.ofNat 32 p.fnName.length
  eipFnAddr := p.fn.entry.nValue
  eipFnNarg := BitVec.ofNat 32 p.fn.params.length

end Spot

/-! ### The entries of a type -/

variable {f : FnSyms} {s : FileSyms} {t : SymTab}

theorem FnSyms.type_ne_so (ha : e ∈ f.stabs) : e.type ≠ N_SO := by
  rcases List.mem_cons.mp ha with rfl | ha
  · rw [f.entry_type]
    decide
  · rcases List.mem_append.mp ha with ha | ha
    · rw [f.params_type e ha]
      decide
    · exact (f.body_type e ha).1

theorem FnSyms.rest_ne_fun (ha : e ∈ f.params ++ f.body) : e.type ≠ N_FUN := by
  rcases List.mem_append.mp ha with ha | ha
  · rw [f.params_type e ha]
    decide
  · exact (f.body_type e ha).2.1

theorem FileSyms.inner_ne_so (ha : e ∈ s.inner) : e.type ≠ N_SO := by
  rcases List.mem_append.mp ha with ha | ha
  · exact (s.head_type e ha).1
  · obtain ⟨f, -, hf⟩ := List.mem_flatMap.mp ha
    exact f.type_ne_so hf

theorem filter_type_pos (h : e.type = type) (es : List Stab) :
    (e :: es).filter (·.type = type) = e :: es.filter (·.type = type) :=
  List.filter_cons_of_pos (by simpa using h)

theorem filter_type_neg (h : e.type ≠ type) (es : List Stab) :
    (e :: es).filter (·.type = type) = es.filter (·.type = type) :=
  List.filter_cons_of_neg (by simpa using h)

theorem filter_type_none (h : ∀ a ∈ es, a.type ≠ type) : es.filter (·.type = type) = [] :=
  List.filter_eq_nil_iff.mpr fun a ha => by simpa using h a ha

theorem FileSyms.filter_so (s : FileSyms) : s.stabs.filter (·.type = N_SO) = [s.entry, s.stop] := by
  rw [FileSyms.stabs, filter_type_pos s.entry_type, List.filter_append,
    filter_type_none fun a ha => s.inner_ne_so ha, filter_type_pos s.stop_type]
  rfl

theorem FnSyms.filter_fun (f : FnSyms) : f.stabs.filter (·.type = N_FUN) = [f.entry] := by
  rw [FnSyms.stabs, filter_type_pos f.entry_type, filter_type_none fun a ha => f.rest_ne_fun ha]

theorem filter_flatMap_fun (fs : List FnSyms) :
    (fs.flatMap FnSyms.stabs).filter (·.type = N_FUN) = fs.map FnSyms.entry := by
  induction fs with
  | nil => rfl
  | cons f fs ih => rw [List.flatMap_cons, List.filter_append, f.filter_fun, ih]; rfl

theorem SymTab.files_in_order (t : SymTab) : Rising N_SO t.stabs := by
  have hfilter : t.stabs.filter (·.type = N_SO) = t.files.flatMap fun s => [s.entry, s.stop] := by
    rw [SymTab.stabs, filter_type_neg t.header_type, List.filter_flatMap]
    congr 1
    funext s
    exact s.filter_so
  rw [Rising, hfilter]
  exact t.files_rising

/-- With its entry, a file is searched for a function. -/
theorem FileSyms.fns_in_order (s : FileSyms) : Rising N_FUN (s.entry :: s.inner) := by
  have hentry : s.entry.type ≠ N_FUN := by rw [s.entry_type]; decide
  rw [Rising, filter_type_neg hentry, FileSyms.inner, List.filter_append,
    filter_type_none fun a ha => (s.head_type a ha).2, filter_flatMap_fun]
  exact List.pairwise_map.mpr s.fns_rising

theorem FnSyms.lines_in_order (f : FnSyms) : Rising N_SLINE f.stabs := by
  have hentry : f.entry.type ≠ N_SLINE := by rw [f.entry_type]; decide
  have hparams : ∀ a ∈ f.params, a.type ≠ N_SLINE := by
    intro a ha
    rw [f.params_type a ha]
    decide
  rw [Rising, FnSyms.stabs, filter_type_neg hentry, List.filter_append, filter_type_none hparams]
  exact f.lines_rising

/-! ### The three searches -/

namespace Spot

variable {addr : BitVec 32} (p : Spot t addr)

/-- What is behind the file. -/
def after : List Stab := p.files₂.flatMap FileSyms.stabs

theorem stabs_eq : t.stabs =
    p.before ++ p.file.entry :: (p.file.inner ++ (p.file.stop :: p.after)) := by
  rw [SymTab.stabs, p.files_eq, List.flatMap_append, List.flatMap_cons, FileSyms.stabs]
  simp only [before, after, List.cons_append, List.append_assoc, List.nil_append]

theorem inner_eq : p.file.inner =
    p.between ++ p.fn.entry :: ((p.fn.params ++ p.fn.body) ++ p.fns₂.flatMap FnSyms.stabs) := by
  rw [FileSyms.inner, p.fns_eq, List.flatMap_append, List.flatMap_cons, FnSyms.stabs]
  simp only [between, List.cons_append, List.append_assoc]

theorem fn_stabs_eq :
    p.fn.stabs = (p.fn.entry :: (p.fn.params ++ p.body₁)) ++ p.line :: p.body₂ := by
  rw [FnSyms.stabs, p.body_eq]
  simp only [List.cons_append, List.append_assoc]

theorem below_file :
    Below N_SO addr p.before p.file.entry (p.file.inner ++ (p.file.stop :: p.after)) where
  rising := by
    rw [← p.stabs_eq]
    exact t.files_in_order
  marked := p.file.entry_type
  lt := p.file_lt
  above a ha hT := by
    have horder := rising_iff.mp t.files_in_order
    rw [p.stabs_eq] at horder
    have hstop := (List.pairwise_append.mp
      (List.pairwise_cons.mp (List.pairwise_append.mp horder).2.1).2).2.1
    rcases List.mem_append.mp ha with ha | ha
    · exact absurd hT (p.file.inner_ne_so ha)
    · rcases List.mem_cons.mp ha with rfl | ha
      · exact p.lt_stop
      · exact Nat.lt_of_lt_of_le p.lt_stop
          ((List.pairwise_cons.mp hstop).1 a ha p.file.stop_type hT)

theorem below_fn : Below N_FUN addr (p.file.entry :: p.between) p.fn.entry
    ((p.fn.params ++ p.fn.body) ++ p.fns₂.flatMap FnSyms.stabs) where
  rising := by
    rw [List.cons_append, ← p.inner_eq]
    exact p.file.fns_in_order
  marked := p.fn.entry_type
  lt := p.fn_lt
  above a ha hT := by
    rcases List.mem_append.mp ha with ha | ha
    · exact absurd hT (p.fn.rest_ne_fun ha)
    · obtain ⟨g, hg, hag⟩ := List.mem_flatMap.mp ha
      rcases List.mem_cons.mp hag with rfl | hag
      · exact p.lt_next g hg
      · exact absurd hT (g.rest_ne_fun hag)

theorem below_line : Below N_SLINE (addr - p.fn.entry.nValue)
    (p.fn.entry :: (p.fn.params ++ p.body₁)) p.line p.body₂ where
  rising := by
    rw [← p.fn_stabs_eq]
    exact p.fn.lines_in_order
  marked := p.line_type
  lt := p.line_lt
  above := p.lt_line

/-- What is in front of the function. -/
def front : List Stab := p.before ++ p.file.entry :: p.between

/-- What is behind the function. -/
def back : List Stab := p.fns₂.flatMap FnSyms.stabs ++ p.file.stop :: p.after

def rest : List Stab := p.fn.params ++ p.fn.body

theorem stabs_eq_fn : t.stabs = p.front ++ p.fn.stabs ++ p.back := by
  rw [p.stabs_eq, p.inner_eq, front, back, FnSyms.stabs]
  simp only [List.cons_append, List.append_assoc]

theorem length_before_pos : (1 : Int) ≤ p.before.length := by
  rw [before, List.length_cons]
  omega

theorem length_front : (p.front.length : Int) = p.before.length + (p.between.length + 1) := by
  rw [front, List.length_append, List.length_cons]
  omega

theorem length_stabs :
    (t.stabs.length : Int) = p.front.length + (p.rest.length + 1) + p.back.length := by
  rw [p.stabs_eq_fn, List.length_append, List.length_append, FnSyms.stabs, List.length_cons, rest]
  omega

theorem finds_file : Finds t.stabs 0 (t.stabs.length - 1) N_SO addr p.before.length
    (p.before.length + p.file.inner.length) := by
  have h := p.below_file.finds_upto (A := []) (C := []) rfl (fun a ha => p.file.inner_ne_so ha)
    (fun a ha => by obtain rfl := Option.some.inj ha; exact p.file.stop_type)
  rw [← p.stabs_eq] at h
  simpa using h

theorem finds_fn : Finds t.stabs p.before.length (p.before.length + p.file.inner.length) N_FUN addr
    p.front.length (p.front.length + p.rest.length) := by
  have hnext : ∀ a ∈ (p.fns₂.flatMap FnSyms.stabs).head?, a.type = N_FUN := by
    intro a ha
    cases hfns : p.fns₂ with
    | nil =>
      rw [hfns] at ha
      cases ha
    | cons g fs =>
      rw [hfns] at ha
      obtain rfl := Option.some.inj ha
      exact g.entry_type
  have h := p.below_fn.finds_upto (A := p.before) (C := p.file.stop :: p.after) rfl
    (fun a ha => p.fn.rest_ne_fun ha) hnext
  have hpart : (p.file.entry :: p.between) ++ p.fn.entry ::
      ((p.fn.params ++ p.fn.body) ++ p.fns₂.flatMap FnSyms.stabs) =
      p.file.entry :: p.file.inner := by
    rw [p.inner_eq, List.cons_append]
  rw [hpart] at h
  have hwhole : p.before ++ p.file.entry :: p.file.inner ++ p.file.stop :: p.after = t.stabs := by
    rw [p.stabs_eq, List.append_assoc, List.cons_append]
  have hright : (p.before.length : Int) + (p.file.entry :: p.file.inner).length - 1 =
      p.before.length + p.file.inner.length := by
    rw [List.length_cons]
    omega
  have hleft : (p.before.length : Int) + (p.file.entry :: p.between).length = p.front.length := by
    rw [p.length_front, List.length_cons]
    omega
  rw [hwhole, hright, hleft] at h
  exact h

theorem finds_line : ∃ y, Finds t.stabs p.front.length (p.front.length + p.rest.length) N_SLINE
    (addr - p.fn.entry.nValue)
    (p.front.length + (p.fn.entry :: (p.fn.params ++ p.body₁)).length) y ∧
    (p.front.length : Int) + (p.fn.entry :: (p.fn.params ++ p.body₁)).length ≤ y := by
  obtain ⟨y, h, hy, -⟩ := p.below_line.finds (A := p.front) (C := p.back) p.fn_stabs_eq
  have hright : (p.front.length : Int) + p.fn.stabs.length - 1 =
      p.front.length + p.rest.length := by
    rw [FnSyms.stabs, List.length_cons, rest]
    omega
  rw [← p.stabs_eq_fn, hright] at h
  exact ⟨y, h, hy⟩

/-! ### What is read at the places that are found -/

theorem stabAt_fn : stabAt t.stabs p.front.length = .ok p.fn.entry := by
  rw [p.stabs_eq_fn, FnSyms.stabs, List.append_assoc, List.cons_append]
  exact stabAt_append _ _ _

theorem stabAt_line : stabAt t.stabs
    (p.front.length + (p.fn.entry :: (p.fn.params ++ p.body₁)).length) = .ok p.line := by
  rw [p.stabs_eq_fn, p.fn_stabs_eq, List.append_assoc, List.append_assoc,
    List.cons_append (a := p.line)]
  exact stabAt_append₂ _ _ _ _

/-- What the scan for the file name goes through. -/
def scanned : List Stab := (p.file.entry :: p.between) ++ p.fn.entry :: (p.fn.params ++ p.body₁)

theorem source_splits : ∃ M₁ M₂, p.scanned = M₁ ++ p.source :: M₂ ∧ isSource p.source ∧
    ∀ a ∈ M₂, ¬ isSource a := by
  have hentry : isSource p.file.entry :=
    decide_eq_true (.inr ⟨p.file.entry_type, p.file.entry_value⟩)
  have hsome : (p.scanned.reverse.find? isSource).isSome := by
    rw [List.find?_isSome]
    exact ⟨p.file.entry, by simp [scanned], hentry⟩
  obtain ⟨q, hq⟩ := Option.isSome_iff_exists.mp hsome
  have hsource : p.source = q := by
    have hrev : p.scanned.findRev? isSource = some q := by
      rw [List.findRev?_eq_find?_reverse]
      exact hq
    change (p.scanned.findRev? isSource).getD p.file.entry = q
    rw [hrev]
    rfl
  obtain ⟨hqs, as, bs, heq, hnone⟩ := List.find?_eq_some_iff_append.mp hq
  refine ⟨bs.reverse, as.reverse, ?_, hsource ▸ hqs, ?_⟩
  · rw [hsource, ← List.reverse_reverse p.scanned, heq]
    simp
  · intro a ha
    simpa using hnone a (List.mem_reverse.mp ha)

/-- The entry of the line is no place to stop. -/
theorem finds_source : ∃ k, Settles (fun n => loop (fileBody t.stabs p.before.length) n
      (p.front.length + (p.fn.entry :: (p.fn.params ++ p.body₁)).length)) (.ok k) ∧
    (p.before.length : Int) ≤ k ∧ stabAt t.stabs k = .ok p.source := by
  obtain ⟨M₁, M₂, hsplit, hsource, hnone⟩ := p.source_splits
  have hline : ∀ a ∈ M₂ ++ [p.line], ¬ isSource a := by
    intro a ha
    rcases List.mem_append.mp ha with ha | ha
    · exact hnone a ha
    · obtain rfl := List.mem_singleton.mp ha
      intro h
      simp only [isSource, p.line_type, decide_eq_true_eq] at h
      rcases h with h | ⟨h, -⟩
      · exact absurd h (by decide)
      · exact absurd h (by decide)
  have hstabs : t.stabs =
      p.before ++ (M₁ ++ p.source :: (M₂ ++ [p.line])) ++ (p.body₂ ++ p.back) := by
    have hpart : M₁ ++ p.source :: (M₂ ++ [p.line]) = p.scanned ++ [p.line] := by
      rw [hsplit, List.append_assoc, List.cons_append]
    rw [hpart, p.stabs_eq_fn, p.fn_stabs_eq, front, scanned]
    simp only [List.append_assoc, List.cons_append, List.nil_append]
  have hscan := fileBody_finds p.before M₁ (p.body₂ ++ p.back) hsource hline
  rw [← hstabs] at hscan
  have hstart : (p.before.length : Int) + M₁.length + (M₂ ++ [p.line]).length =
      p.front.length + (p.fn.entry :: (p.fn.params ++ p.body₁)).length := by
    have hlen := congrArg List.length hsplit
    rw [scanned, List.length_append, List.length_append, List.length_cons, List.length_cons,
      List.length_cons] at hlen
    rw [p.length_front, List.length_append, List.length_singleton, List.length_cons]
    omega
  rw [hstart] at hscan
  refine ⟨_, hscan, by omega, ?_⟩
  rw [hstabs, List.append_assoc, List.append_assoc, List.cons_append]
  exact stabAt_append₂ _ _ _ _

/-- The loop ends in front of the last entry of the region, which is none of the parameters. -/
theorem counts_params : Settles (fun n => loop (nargBody t.stabs (p.front.length + p.rest.length)) n
    ((p.front.length : Int) + 1, 0)) (.ok (BitVec.ofNat 32 p.fn.params.length)) := by
  obtain ⟨b, c, hbody⟩ : ∃ b c, p.fn.body = b ++ [c] := by
    rcases List.eq_nil_or_concat p.fn.body with hnil | ⟨b, c, hbody⟩
    · rw [p.body_eq] at hnil
      exact absurd hnil (by simp)
    · exact ⟨b, c, by rw [hbody, List.concat_eq_append]⟩
  have hstabs : t.stabs = (p.front ++ [p.fn.entry]) ++ (p.fn.params ++ b) ++ ([c] ++ p.back) := by
    rw [p.stabs_eq_fn, FnSyms.stabs, hbody]
    simp only [List.append_assoc, List.cons_append, List.nil_append]
  have hparams := params_part (A := p.front ++ [p.fn.entry]) (C := [c] ++ p.back) p.fn.params_type
    fun a ha => (p.fn.body_type a (by rw [hbody]; exact List.mem_append_left _ ha)).2.2
  rw [← hstabs, List.length_append, List.length_singleton] at hparams
  have hlen : p.front.length + p.rest.length = p.front.length + 1 + (p.fn.params ++ b).length := by
    rw [rest, hbody, List.length_append, List.length_append, List.length_append,
      List.length_singleton]
    omega
  have hzero : 0 + BitVec.ofNat 32 p.fn.params.length = BitVec.ofNat 32 p.fn.params.length :=
    BitVec.zero_add _
  have hinside : p.front.length + p.rest.length ≤ t.stabs.length := by
    have := p.length_stabs
    omega
  have hcount := nargBody_counts (k := p.front.length + 1) 0 hinside
  rw [hlen, hparams, ← hlen, hzero] at hcount
  exact_mod_cast hcount

theorem drop_source : p.source.nStrx.toNat < t.strings.length := by
  obtain ⟨k, -, -, hsource⟩ := p.finds_source
  exact t.names _ (mem_of_stabAt hsource)

theorem drop_fn : p.fn.entry.nStrx.toNat < t.strings.length :=
  t.names _ (mem_of_stabAt p.stabAt_fn)

/-- The name ends at its colon, or at the NUL. -/
theorem finds_colon : Settles
    (fun n => strfind n (t.strings.drop p.fn.entry.nStrx.toNat) (chr ':'))
    (.ok p.fnName.length) := by
  obtain ⟨post, hpost⟩ := exists_string (mem_drop_of_getLast? t.strings_end p.drop_fn)
  have hnot : 0 ∉ t.string p.fn.entry.nStrx := fun h => by simpa using List.mem_takeWhile_imp h
  have h := strfind_takes hnot post (chr ':')
  rw [SymTab.string, ← hpost] at h
  exact h

theorem counts_narg (info : Eipdebuginfo) (hinfo : info.eipFnNarg = 0) :
    Settles (fun n => setNarg n t.stabs p.front.length (p.front.length + p.rest.length) info)
      (.ok { info with eipFnNarg := BitVec.ofNat 32 p.fn.params.length }) := by
  have hlt : (p.front.length : Int) < p.front.length + p.rest.length := by
    rw [rest, p.body_eq, List.length_append, List.length_append, List.length_cons]
    omega
  refine (p.counts_params.view fun narg => { info with eipFnNarg := narg }).congr fun n => ?_
  rw [setNarg, if_pos hlt, hinfo]
  rfl

theorem line_settles (info : Eipdebuginfo) (hinfo : info.eipFnNarg = 0) {y : Int}
    (hy : (p.front.length : Int) + (p.fn.entry :: (p.fn.params ++ p.body₁)).length ≤ y) :
    Settles (fun n => lineInfo n t.stabs t.strings p.before.length p.front.length
      (p.front.length + p.rest.length)
      (p.front.length + (p.fn.entry :: (p.fn.params ++ p.body₁)).length) y info)
      (.ok (0, { info with
        eipLine := p.line.nDesc.setWidth 32
        eipFile := t.strings.drop p.source.nStrx.toNat
        eipFnNarg := BitVec.ofNat 32 p.fn.params.length })) := by
  obtain ⟨k, hscan, hk, hsource⟩ := p.finds_source
  have hline : setLine t.stabs
      (p.front.length + (p.fn.entry :: (p.fn.params ++ p.body₁)).length) y info =
      .ok { info with eipLine := p.line.nDesc.setWidth 32 } := by
    rw [setLine, if_pos hy, p.stabAt_line]
    rfl
  have hfile : ∀ info, setFile t.stabs t.strings p.before.length k info =
      .ok { info with eipFile := t.strings.drop p.source.nStrx.toNat } := by
    intro info
    rw [setFile, if_pos hk, hsource, ok_bind, if_pos p.drop_source]
    rfl
  have hnarg := p.counts_narg { info with
    eipLine := p.line.nDesc.setWidth 32, eipFile := t.strings.drop p.source.nStrx.toNat } hinfo
  refine Settles.congr (hscan.bind (g := fun n k =>
    setFile t.stabs t.strings p.before.length k
      { info with eipLine := p.line.nDesc.setWidth 32 } >>= fun info =>
        setNarg n t.stabs p.front.length (p.front.length + p.rest.length) info >>= fun info =>
          .ok (0, info)) ?_) fun n => ?_
  · exact (hnarg.view fun info => ((0 : BitVec 32), info)).congr fun n => by rw [hfile]; rfl
  · rw [lineInfo, hline]
    rfl

/-- What is known when the function is found. -/
def found : Eipdebuginfo := { initInfo addr with
  eipFnName := t.strings.drop p.fn.entry.nStrx.toNat, eipFnAddr := p.fn.entry.nValue }

theorem name_settles (info : Eipdebuginfo)
    (hname : info.eipFnName = t.strings.drop p.fn.entry.nStrx.toNat) (hnarg : info.eipFnNarg = 0) :
    Settles (fun n => nameInfo n t.stabs t.strings p.before.length p.front.length
      (p.front.length + p.rest.length) p.front.length (p.front.length + p.rest.length)
      (addr - p.fn.entry.nValue) info) (.ok (0, { info with
        eipFile := t.strings.drop p.source.nStrx.toNat
        eipLine := p.line.nDesc.setWidth 32
        eipFnNamelen := BitVec.ofNat 32 p.fnName.length
        eipFnNarg := BitVec.ofNat 32 p.fn.params.length })) := by
  obtain ⟨y, hline, hy⟩ := p.finds_line
  have hcolon := p.finds_colon
  rw [← hname] at hcolon
  have hrest :=
    p.line_settles { info with eipFnNamelen := BitVec.ofNat 32 p.fnName.length } hnarg hy
  exact hcolon.bind (Settles.bind hline hrest)

end Spot

/-- For an address in the code of a line, the lookup finds the line, the function, the number of
its parameters, and the source file. -/
theorem debuginfoEip_spot (t : SymTab) (addr : BitVec 32) (p : Spot t addr) :
    Settles (fun n => debuginfoEip n t.stabs t.strings addr) (.ok (0, p.info)) := by
  have hne : (p.before.length : Int) ≠ 0 := by
    have := p.length_before_pos
    omega
  have hle : (p.front.length : Int) ≤ p.front.length + p.rest.length := by omega
  refine debuginfoEip_of_file p.kernel t.strings_end p.finds_file ?_
  refine Settles.congr (Settles.bind p.finds_fn ?_) fun n => if_neg hne
  have hfn : fnInfo t.stabs t.strings p.before.length (p.before.length + p.file.inner.length)
      p.front.length (p.front.length + p.rest.length) addr (initInfo addr) =
      .ok (p.found, addr - p.fn.entry.nValue, p.front.length, p.front.length + p.rest.length) := by
    rw [fnInfo, if_pos hle, p.stabAt_fn, ok_bind, if_pos p.drop_fn]
    rfl
  refine Settles.congr (p.name_settles p.found rfl rfl) fun n => ?_
  dsimp only
  rw [hfn, ok_bind]

/-- A function with one parameter, and with a second line from its byte 6 on. -/
def twoLines : FnSyms where
  entry := ⟨5, N_FUN.setWidth 8, 0, 0, 0xF0100010⟩
  params := [⟨0, N_PSYM.setWidth 8, 0, 0, 8⟩]
  body := [⟨0, N_SLINE.setWidth 8, 0, 7, 0⟩, ⟨0, N_SLINE.setWidth 8, 0, 8, 6⟩]
  entry_type := by decide
  params_type := by decide
  body_type := by decide
  lines_rising := by decide

def oneFunction : FileSyms where
  entry := ⟨1, N_SO.setWidth 8, 0, 0, 0xF0100000⟩
  head := []
  fns := [twoLines]
  stop := ⟨0, N_SO.setWidth 8, 0, 0, 0xF0100020⟩
  entry_type := by decide
  entry_value := by decide
  head_type := by decide
  stop_type := by decide
  fns_rising := List.pairwise_singleton _ _

def oneFile : SymTab where
  header := ⟨0, 0, 0, 0, 0⟩
  files := [oneFunction]
  strings := cstr [] ++ cstr (lit "a.c") ++ cstr (lit "f:F")
  header_type := by decide
  files_rising := by decide
  strings_end := by decide
  names := by decide

/-- In the second line. -/
theorem debuginfoEip_spot_second : ∃ p : Spot oneFile 0xF0100018,
    Settles (fun n => debuginfoEip n oneFile.stabs oneFile.strings 0xF0100018) (.ok (0, p.info)) ∧
      p.info = ⟨cstr (lit "a.c") ++ cstr (lit "f:F"), 8, cstr (lit "f:F"), 1, 0xF0100010, 1⟩ := by
  let p : Spot oneFile 0xF0100018 := ⟨[], oneFunction, [], [], twoLines, [], [_], _, [], rfl, rfl,
    rfl, by decide, by decide, by decide, by decide, by decide, by decide, by decide, by decide⟩
  exact ⟨p, debuginfoEip_spot oneFile 0xF0100018 p, by decide⟩

end Jos
