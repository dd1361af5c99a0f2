import Jos.Prog.Loop

/-!
Ring buffers of `N` places with a reading and a writing position. The buffer is empty
when the two are equal, so that it holds at most `N - 1` elements. Nothing here depends
on the program that is verified.
-/
namespace Prog

universe u

variable {α : Type u} {N p i j : ℕ} {x : α} {xs ys : List α}

/-- The position after `p`. -/
def next (N p : ℕ) : ℕ := if p + 1 = N then 0 else p + 1

/-- The place `i` positions after `p`. -/
def place (N p i : ℕ) : ℕ := if p + i < N then p + i else p + i - N

theorem next_lt (hp : p < N) : next N p < N := by
  unfold next
  split <;> omega

theorem place_lt (hp : p < N) (hi : i < N) : place N p i < N := by
  unfold place
  split <;> omega

theorem place_zero (hp : p < N) : place N p 0 = p := if_pos hp

theorem place_inj (hi : i < N) (hj : j < N) (h : place N p i = place N p j) :
    i = j := by
  unfold place at h
  split at h <;> split at h <;> omega

theorem next_place (hp : p < N) (hi : i < N) : next N (place N p i) = place N p (i + 1) := by
  unfold next place
  split <;> split <;> split <;> omega

theorem place_next (hi : i + 1 < N) : place N (next N p) i = place N p (i + 1) := by
  unfold next place
  split <;> split <;> split <;> omega

structure RingBuffer (α : Type u) where
  buf : ℕ → α
  rpos : ℕ
  wpos : ℕ

namespace RingBuffer

variable {r : RingBuffer α}

/-- Store at the writing position and advance it; the buffer has `N` places. -/
def push (N : ℕ) (r : RingBuffer α) (x : α) : Res (RingBuffer α) :=
  if r.wpos < N then
    .ok { r with buf := Function.update r.buf r.wpos x, wpos := next N r.wpos }
  else .error .fault

/-- The element at the reading position, which is advanced, unless the buffer is empty. -/
def pop (N : ℕ) (r : RingBuffer α) : Res (Option α × RingBuffer α) :=
  if r.rpos = r.wpos then .ok (none, r)
  else if r.rpos < N then .ok (some (r.buf r.rpos), { r with rpos := next N r.rpos })
  else .error .fault

/-- The ring holds the elements of `xs`, the oldest first. -/
structure Holds (N : ℕ) (r : RingBuffer α) (xs : List α) : Prop where
  rpos_lt : r.rpos < N
  length_lt : xs.length < N
  wpos_eq : r.wpos = place N r.rpos xs.length
  buf_eq : ∀ i (h : i < xs.length), r.buf (place N r.rpos i) = xs[i]

theorem Holds.wpos_lt (h : Holds N r xs) : r.wpos < N := by
  rw [h.wpos_eq]
  exact place_lt h.rpos_lt h.length_lt

theorem holds_nil {buf : ℕ → α} (hp : p < N) : Holds N ⟨buf, p, p⟩ [] where
  rpos_lt := hp
  length_lt := Nat.zero_lt_of_lt hp
  wpos_eq := (place_zero hp).symm
  buf_eq i h := absurd h (Nat.not_lt_zero i)

/-- The positions tell whether anything is there. -/
theorem Holds.rpos_eq_wpos_iff (h : Holds N r xs) : r.rpos = r.wpos ↔ xs = [] := by
  have hrpos := h.rpos_lt
  have hwpos := h.wpos_eq
  constructor
  · intro heq
    rw [heq] at hrpos hwpos
    have h0 : place N r.wpos 0 = place N r.wpos xs.length := by
      rw [place_zero hrpos]
      exact hwpos
    have hlen := place_inj (by omega) h.length_lt h0
    exact List.length_eq_zero_iff.mp hlen.symm
  · rintro rfl
    rw [hwpos, List.length_nil, place_zero hrpos]

theorem Holds.push (h : Holds N r xs) (x : α) (hlen : xs.length + 1 < N) :
    ∃ r', r.push N x = .ok r' ∧ Holds N r' (xs ++ [x]) := by
  refine ⟨_, if_pos h.wpos_lt, h.rpos_lt, ?_, ?_, ?_⟩
  · simpa using hlen
  · change next N r.wpos = _
    rw [h.wpos_eq, next_place h.rpos_lt h.length_lt, List.length_append, List.length_singleton]
  · intro i hi
    change Function.update r.buf r.wpos x (place N r.rpos i) = _
    rw [List.length_append, List.length_singleton] at hi
    rw [h.wpos_eq]
    rcases Nat.lt_succ_iff_lt_or_eq.mp hi with hlt | rfl
    · have hne : place N r.rpos i ≠ place N r.rpos xs.length := fun he =>
        absurd (place_inj (by omega) h.length_lt he) (by omega)
      rw [Function.update_of_ne hne, h.buf_eq i hlt, List.getElem_append_left hlt]
    · rw [Function.update_self, List.getElem_concat_length rfl]

theorem Holds.pop_nil (h : Holds N r []) : r.pop N = .ok (none, r) :=
  if_pos (h.rpos_eq_wpos_iff.mpr rfl)

theorem Holds.pop_cons (h : Holds N r (x :: xs)) :
    ∃ r', r.pop N = .ok (some x, r') ∧ Holds N r' xs := by
  have hne : r.rpos ≠ r.wpos := fun he => List.cons_ne_nil x xs (h.rpos_eq_wpos_iff.mp he)
  have hlen := h.length_lt
  rw [List.length_cons] at hlen
  have hfirst : r.buf r.rpos = x := by
    have := h.buf_eq 0 (by simp)
    rwa [place_zero h.rpos_lt] at this
  refine ⟨{ r with rpos := next N r.rpos }, ?_, next_lt h.rpos_lt, by omega, ?_, ?_⟩
  · rw [pop, if_neg hne, if_pos h.rpos_lt, hfirst]
  · change r.wpos = place N (next N r.rpos) xs.length
    rw [place_next hlen, h.wpos_eq, List.length_cons]
  · intro i hi
    change r.buf (place N (next N r.rpos) i) = _
    rw [place_next (by omega), h.buf_eq (i + 1) (by simpa using hi),
      List.getElem_cons_succ]

/-- What is left of `xs` when all of it has been pushed and nothing popped: the writing position
has lapped the reading position whenever another `N` elements have come. -/
def latest (N : ℕ) (xs : List α) : List α := xs.drop (xs.length - xs.length % N)

theorem length_latest : (latest N xs).length = xs.length % N := by
  have := Nat.mod_le xs.length N
  rw [latest, List.length_drop]
  omega

theorem latest_of_lt (h : xs.length < N) : latest N xs = xs := by
  rw [latest, Nat.mod_eq_of_lt h, Nat.sub_self, List.drop_zero]

theorem latest_suffix (N : ℕ) (xs : List α) : latest N xs <:+ xs := List.drop_suffix _ xs

/-- A full lap is lost. -/
theorem latest_of_eq (h : xs.length = N) : latest N xs = [] := by
  rw [latest, h, Nat.mod_self, Nat.sub_zero, List.drop_eq_nil_of_le (Nat.le_of_eq h)]

theorem latest_latest_append : latest N (latest N xs ++ ys) = latest N (xs ++ ys) := by
  have hle := Nat.mod_le xs.length N
  have hmod : (xs.length % N + ys.length) % N = (xs.length + ys.length) % N :=
    Nat.mod_add_mod xs.length N ys.length
  have hle' := Nat.mod_le (xs.length % N + ys.length) N
  have hdrop : latest N xs ++ ys = (xs ++ ys).drop (xs.length - xs.length % N) := by
    rw [latest, List.drop_append_of_le_length (Nat.sub_le _ _)]
  change List.drop ((latest N xs ++ ys).length - (latest N xs ++ ys).length % N)
    (latest N xs ++ ys) = _
  rw [hmod] at hle'
  rw [List.length_append, length_latest, hmod, hdrop, List.drop_drop]
  rw [latest, List.length_append]
  congr 1
  omega

/-- The element that would fill the last place makes the buffer look empty. -/
theorem Holds.push_full (h : Holds N r xs) (x : α) (hlen : xs.length + 1 = N) :
    ∃ r', r.push N x = .ok r' ∧ Holds N r' [] := by
  have hrpos := h.rpos_lt
  have hnext : next N r.wpos = r.rpos := by
    rw [h.wpos_eq]
    unfold next place
    split <;> split <;> omega
  refine ⟨_, if_pos h.wpos_lt, ?_⟩
  rw [hnext]
  exact holds_nil hrpos

/-- Pushing without a look at the reading position. -/
theorem Holds.pushes (h : Holds N r xs) (x : α) :
    ∃ r', r.push N x = .ok r' ∧ Holds N r' (latest N (xs ++ [x])) := by
  have hlt := h.length_lt
  have hlen : (xs ++ [x]).length = xs.length + 1 := List.length_append
  by_cases hroom : xs.length + 1 < N
  · rw [latest_of_lt (by omega)]
    exact h.push x hroom
  · have hfull : (xs ++ [x]).length = N := by omega
    rw [latest_of_eq hfull]
    exact h.push_full x (by omega)

/-- The elements that can be popped, the oldest first. -/
def unread (N : ℕ) (r : RingBuffer α) : List α :=
  (List.range ((r.wpos + N - r.rpos) % N)).map fun i => r.buf (place N r.rpos i)

theorem Holds.unread_eq (h : Holds N r xs) : r.unread N = xs := by
  have hrpos := h.rpos_lt
  have hlen := h.length_lt
  have hcount : (r.wpos + N - r.rpos) % N = xs.length := by
    rw [h.wpos_eq]
    unfold place
    split
    · have hsum : r.rpos + xs.length + N - r.rpos = N + xs.length := by omega
      rw [hsum, Nat.add_mod_left, Nat.mod_eq_of_lt hlen]
    · have hsum : r.rpos + xs.length - N + N - r.rpos = xs.length := by omega
      rw [hsum, Nat.mod_eq_of_lt hlen]
  rw [unread, hcount]
  apply List.ext_getElem
  · rw [List.length_map, List.length_range]
  · intro i hi hi'
    rw [List.getElem_map, List.getElem_range, h.buf_eq i hi']

end RingBuffer

end Prog
