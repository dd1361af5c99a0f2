import Jos.Lib.Strings
import Mathlib.Data.List.Basic

/-! The order in which `strcmp`, `strncmp` and `memcmp` put strings. -/
namespace Jos

open Prog

variable {p q s t u v post post' : List Byte} {a b : Byte} {n : BitVec 32} {k : ℕ}

/-- The run returns a number of this sign. -/
def Returns (run : ℕ → Res (BitVec 32)) (o : Ordering) : Prop :=
  ∃ d, Settles run (.ok d) ∧ compare d.toInt 0 = o

/-- `u` is what the string in `p` has in its first `k` characters. -/
structure Cut (p : List Byte) (k : ℕ) (u : List Byte) : Prop where
  starts : u <+: p
  noNul : 0 ∉ u
  length_le : u.length ≤ k
  nul : u.length < k → p[u.length]? = some 0

/-! ### The sign of a difference -/

theorem toInt_difference (a b : Byte) :
    (a.setWidth 32 - b.setWidth 32 : BitVec 32).toInt = a.toNat - b.toNat := by
  have ha := a.isLt
  have hb := b.isLt
  rw [BitVec.toInt_eq_toNat_cond, BitVec.toNat_sub, BitVec.toNat_setWidth_of_le (by decide),
    BitVec.toNat_setWidth_of_le (by decide)]
  omega

theorem compare_of_lt (h : a < b) : compare a b = .lt := if_pos h

theorem compare_of_gt (h : b < a) : compare a b = .gt := by
  have hlt : ¬ a < b := fun h' => BitVec.lt_asymm h h'
  have hne : a ≠ b := fun h' => BitVec.lt_irrefl b (h' ▸ h)
  exact (if_neg hlt).trans (if_neg hne)

theorem compare_sub (a b : Byte) :
    compare (a.setWidth 32 - b.setWidth 32 : BitVec 32).toInt 0 = compare a b := by
  rw [toInt_difference]
  rcases Nat.lt_trichotomy a.toNat b.toNat with hlt | heq | hgt
  · rw [compare_of_lt (BitVec.lt_def.mpr hlt)]
    exact Int.compare_eq_lt.mpr (by omega)
  · rw [BitVec.eq_of_toNat_eq heq, Int.sub_self]
    exact (Std.ReflOrd.compare_self (a := b)).symm
  · rw [compare_of_gt (BitVec.lt_def.mpr hgt)]
    exact Int.compare_eq_gt.mpr (by omega)

theorem pos_of_ne_zero (h : b ≠ 0) : 0 < b := by
  bv_omega

/-- The sign of the difference of two strings is their lexicographic order, by unsigned bytes. -/
theorem compare_difference (hs : 0 ∉ s) (ht : 0 ∉ t) :
    compare (difference s t).toInt 0 = compare s t := by
  induction s generalizing t with
  | nil =>
    cases t with
    | nil => rfl
    | cons b t =>
      have hb : b ≠ 0 := fun h => ht (h ▸ List.mem_cons_self)
      exact (compare_sub 0 b).trans (compare_of_lt (pos_of_ne_zero hb))
  | cons a s ih =>
    have ha : a ≠ 0 := fun h => hs (h ▸ List.mem_cons_self)
    cases t with
    | nil => exact (compare_sub a 0).trans (compare_of_gt (pos_of_ne_zero ha))
    | cons b t =>
      rw [List.compare_cons_cons]
      by_cases hab : b = a
      · subst hab
        rw [difference, List.head?_cons, if_pos rfl, List.tail_cons, Std.ReflOrd.compare_self]
        exact ih (fun h => hs (List.mem_cons_of_mem b h)) fun h => ht (List.mem_cons_of_mem b h)
      · have hne : ¬ (b :: t).head? = some a := fun h => hab (Option.some.inj h)
        rw [difference, if_neg hne, List.headD_cons, compare_sub]
        have hcmp : compare a b ≠ .eq := fun h => hab (Std.LawfulEqOrd.eq_of_compare h).symm
        cases hord : compare a b with
        | lt => rfl
        | eq => exact absurd hord hcmp
        | gt => rfl

/-! ### A string cut to its first characters -/

theorem cut_of_string (hs : 0 ∉ s) (k : ℕ) : Cut (s ++ 0 :: post) k (s.take k) where
  starts := (List.take_prefix k s).trans (List.prefix_append s _)
  noNul h := hs (List.mem_of_mem_take h)
  length_le := List.length_take_le k s
  nul h := by
    have hlen : (s.take k).length = s.length := by
      rw [List.length_take] at h ⊢
      omega
    rw [hlen, List.getElem?_append_right (Nat.le_refl _), Nat.sub_self]
    rfl

/-- An array that may go on without a NUL. -/
theorem cut_of_length (hk : k ≤ p.length) (hp : 0 ∉ p.take k) : Cut p k (p.take k) where
  starts := List.take_prefix k p
  noNul := hp
  length_le := List.length_take_le k p
  nul h := by
    rw [List.length_take] at h
    omega

theorem Cut.eq_nil (h : Cut p 0 u) : u = [] :=
  List.length_eq_zero_iff.mp (Nat.le_zero.mp h.length_le)

/-- The character that is compared first. -/
theorem Cut.head (h : Cut p (k + 1) u) : ∃ p', p = u.headD 0 :: p' := by
  cases u with
  | nil =>
    have hnul := h.nul (Nat.succ_pos k)
    cases p with
    | nil => cases hnul
    | cons b p => exact ⟨p, congrArg (· :: p) (Option.some.inj hnul)⟩
  | cons a u =>
    obtain ⟨w, rfl⟩ := h.starts
    exact ⟨u ++ w, rfl⟩

theorem Cut.tail (h : Cut (a :: p) (k + 1) (a :: u)) : Cut p k u where
  starts := (List.prefix_cons_inj a).mp h.starts
  noNul hmem := h.noNul (List.mem_cons_of_mem a hmem)
  length_le := Nat.le_of_succ_le_succ h.length_le
  nul hlt := h.nul (Nat.succ_lt_succ hlt)

theorem toNat_pred (h : n.toNat = k + 1) : 0 < n ∧ (n - 1).toNat = k := by
  bv_omega

/-! ### The loops -/

theorem strncmpBody_at (hn : 0 < n) (pre p q : List Byte) (a b : Byte) :
    strncmpBody (pre ++ a :: p) (pre ++ b :: q) (n, pre.length) =
      if a ≠ 0 ∧ a = b then .ok (.inl (n - 1, pre.length + 1))
      else .ok (.inr (a.setWidth 32 - b.setWidth 32)) := by
  rw [strncmpBody, if_pos hn, peek_append, peek_append, ok_bind, ok_bind]
  rfl

theorem memcmpBody_at (hn : 0 < n) (pre p q : List Byte) (a b : Byte) :
    memcmpBody (pre ++ a :: p) (pre ++ b :: q) (n, pre.length) =
      if a ≠ b then .ok (.inr (a.setWidth 32 - b.setWidth 32))
      else .ok (.inl (n - 1, pre.length + 1)) := by
  rw [memcmpBody, if_pos hn, peek_append, peek_append, ok_bind, ok_bind]
  rfl

/-- From equal beginnings on, `strncmp` returns the difference of the cut strings. -/
theorem strncmp_run (hn : n.toNat = k) (hu : Cut p k u) (hv : Cut q k v) (pre : List Byte) :
    Settles (fun m => loop (strncmpBody (pre ++ p) (pre ++ q)) m (n, pre.length))
      (.ok (difference u v)) := by
  induction u generalizing p q v n k pre with
  | nil =>
    cases k with
    | zero =>
      obtain rfl := hv.eq_nil
      obtain rfl : n = 0 := BitVec.eq_of_toNat_eq hn
      exact .loop_exit rfl
    | succ k =>
      obtain ⟨p, rfl⟩ := hu.head
      obtain ⟨q, rfl⟩ := hv.head
      obtain ⟨hpos, -⟩ := toNat_pred hn
      exact .loop_exit ((strncmpBody_at hpos pre _ _ _ _).trans (if_neg fun h => h.1 rfl))
  | cons a u ih =>
    obtain ⟨k, rfl⟩ : ∃ j, k = j + 1 := Nat.exists_eq_add_of_le' (Nat.zero_lt_of_lt hu.length_le)
    obtain ⟨p, rfl⟩ := hu.head
    obtain ⟨q, rfl⟩ := hv.head
    obtain ⟨hpos, hpred⟩ := toNat_pred hn
    have ha : a ≠ 0 := fun h => hu.noNul (h ▸ List.mem_cons_self)
    rw [List.headD_cons] at hu ⊢
    by_cases hab : v.head? = some a
    · obtain ⟨v, rfl⟩ := List.head?_eq_some_iff.mp hab
      have hnext := ih hpred hu.tail hv.tail (pre ++ [a])
      rw [List.append_assoc, List.append_assoc, List.length_append] at hnext
      rw [difference, if_pos hab, List.tail_cons]
      exact .loop_next ((strncmpBody_at hpos pre _ _ _ _).trans (if_pos ⟨ha, rfl⟩)) hnext
    · have hne : a ≠ v.headD 0 := by
        cases v with
        | nil => exact ha
        | cons b v => exact fun h => hab (congrArg some h.symm)
      rw [difference, if_neg hab]
      exact .loop_exit ((strncmpBody_at hpos pre _ _ _ _).trans (if_neg fun h => hne h.2))

/-- `memcmp` returns the difference of what it compares, with the NULs in it. -/
theorem memcmp_run (hn : n.toNat = k) (hp : k ≤ p.length) (hq : k ≤ q.length) (pre : List Byte) :
    Settles (fun m => loop (memcmpBody (pre ++ p) (pre ++ q)) m (n, pre.length))
      (.ok (difference (p.take k) (q.take k))) := by
  induction k generalizing p q n pre with
  | zero =>
    obtain rfl : n = 0 := BitVec.eq_of_toNat_eq hn
    rw [List.take_zero, List.take_zero]
    exact .loop_exit rfl
  | succ k ih =>
    obtain ⟨a, p, rfl⟩ := List.exists_cons_of_length_pos (Nat.zero_lt_of_lt hp)
    obtain ⟨b, q, rfl⟩ := List.exists_cons_of_length_pos (Nat.zero_lt_of_lt hq)
    obtain ⟨hpos, hpred⟩ := toNat_pred hn
    rw [List.take_succ_cons, List.take_succ_cons]
    by_cases hab : a = b
    · subst hab
      have hnext := ih hpred (Nat.le_of_succ_le_succ hp) (Nat.le_of_succ_le_succ hq) (pre ++ [a])
      rw [List.append_assoc, List.append_assoc, List.length_append] at hnext
      rw [difference, List.head?_cons, if_pos rfl, List.tail_cons]
      have hbody := memcmpBody_at hpos pre p q a a
      exact .loop_next (hbody.trans (if_neg (not_not_intro rfl))) hnext
    · have hne : ¬ (b :: q.take k).head? = some a := fun h => hab (Option.some.inj h).symm
      rw [difference, if_neg hne]
      exact .loop_exit ((memcmpBody_at hpos pre p q a b).trans (if_pos hab))

theorem strncmp_returns (hu : Cut p n.toNat u) (hv : Cut q n.toNat v) :
    Returns (fun m => strncmp m p q n) (compare u v) :=
  ⟨_, strncmp_run rfl hu hv [], compare_difference hu.noNul hv.noNul⟩

theorem memcmp_returns (hu : Cut p n.toNat (p.take n.toNat)) (hv : Cut q n.toNat (q.take n.toNat))
    (hp : n.toNat ≤ p.length) (hq : n.toNat ≤ q.length) :
    Returns (fun m => memcmp m p q n) (compare (p.take n.toNat) (q.take n.toNat)) :=
  ⟨_, memcmp_run rfl hp hq [], compare_difference hu.noNul hv.noNul⟩

/-- `strcmp` is the lexicographic order by unsigned bytes, `strncmp` is the same order on the first
characters of the strings, and so is `memcmp` where there is no NUL among them. -/
theorem comparisons_one_order (s t post post' : List Byte) (hs : 0 ∉ s) (ht : 0 ∉ t) :
    Returns (fun m => strcmp m (s ++ 0 :: post) (t ++ 0 :: post')) (compare s t) ∧
    (compare s t = .eq ↔ s = t) ∧ compare t s = (compare s t).swap ∧
    (∀ u, (compare s t).isLE → (compare t u).isLE → (compare s u).isLE) ∧
    (∀ n : BitVec 32, Returns (fun m => strncmp m (s ++ 0 :: post) (t ++ 0 :: post') n)
      (compare (s.take n.toNat) (t.take n.toNat))) ∧
    ∀ (p q : List Byte) (n : BitVec 32), n.toNat ≤ p.length → n.toNat ≤ q.length →
      0 ∉ p.take n.toNat → 0 ∉ q.take n.toNat →
      ∃ o, Returns (fun m => strncmp m p q n) o ∧ Returns (fun m => memcmp m p q n) o := by
  refine ⟨⟨_, strcmp_settles hs ht, compare_difference hs ht⟩, Std.compare_eq_iff_eq,
    Std.OrientedOrd.eq_swap, fun u hst htu => Std.TransOrd.isLE_trans hst htu, ?_, ?_⟩
  · intro n
    exact strncmp_returns (cut_of_string hs _) (cut_of_string ht _)
  · intro p q n hp hq hp0 hq0
    have hu := cut_of_length hp hp0
    have hv := cut_of_length hq hq0
    exact ⟨_, strncmp_returns hu hv, memcmp_returns hu hv hp hq⟩

/-- A byte above `0x7f` comes after every other. -/
theorem comparisons_one_order_high :
    Returns (fun m => strcmp m ([0x80] ++ 0 :: []) ([0x7F] ++ 0 :: [])) .gt :=
  (comparisons_one_order [0x80] [0x7F] [] [] (by decide) (by decide)).1

end Jos
