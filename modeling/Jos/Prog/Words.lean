import Mathlib.Data.List.TakeWhile
import Mathlib.Tactic.Common

/-!
The words of a list: its maximal runs of elements that are no separators. Nothing here
depends on the program that is verified.
-/
namespace Prog

variable {α : Type} (sep : α → Bool)

/-- `w` is a maximal run of `s`, and begins at the position `i`. -/
structure IsRun (s : List α) (i : ℕ) (w : List α) : Prop where
  split : ∃ pre post, s = pre ++ w ++ post ∧ pre.length = i ∧ (∀ a ∈ pre.getLast?, sep a) ∧
    ∀ a ∈ post.head?, sep a
  ne_nil : w ≠ []
  plain : ∀ a ∈ w, ¬ sep a

/-- Where words begin in what is left of a list from the position `i` on; `fresh` tells whether one
can begin there. -/
def startsFrom (fresh : Bool) (i : ℕ) : List α → List ℕ
  | [] => []
  | a :: s => (if fresh && !sep a then [i] else []) ++ startsFrom (sep a) (i + 1) s

def starts (s : List α) : List ℕ := startsFrom sep true 0 s

/-- The word that begins at a position. -/
def wordAt (s : List α) (i : ℕ) : List α := (s.drop i).takeWhile fun a => !sep a

/-- The words, in order, and where they begin. -/
def words (s : List α) : List (ℕ × List α) := (starts sep s).map fun i => (i, wordAt sep s i)

variable {sep} {s u w : List α} {i j : ℕ} {fresh : Bool}

/-! ### Walking over separators and words -/

theorem startsFrom_seps (hu : ∀ a ∈ u, sep a) :
    startsFrom sep true i (u ++ s) = startsFrom sep true (i + u.length) s := by
  induction u generalizing i with
  | nil => rfl
  | cons a u ih =>
    have ha : sep a = true := hu a List.mem_cons_self
    have hlen : i + (a :: u).length = i + 1 + u.length := by
      rw [List.length_cons]
      omega
    rw [List.cons_append, startsFrom, ha, hlen]
    exact ih fun b hb => hu b (List.mem_cons_of_mem a hb)

theorem startsFrom_of_seps (hu : ∀ a ∈ u, sep a) : startsFrom sep true i u = [] := by
  have h := startsFrom_seps (s := []) (i := i) hu
  rwa [List.append_nil] at h

theorem startsFrom_plain (hw : ∀ a ∈ w, ¬ sep a) :
    startsFrom sep false i (w ++ s) = startsFrom sep false (i + w.length) s := by
  induction w generalizing i with
  | nil => rfl
  | cons a w ih =>
    have ha : sep a = false := by simpa using hw a List.mem_cons_self
    have hlen : i + (a :: w).length = i + 1 + w.length := by
      rw [List.length_cons]
      omega
    rw [List.cons_append, startsFrom, ha, hlen]
    exact ih fun b hb => hw b (List.mem_cons_of_mem a hb)

theorem startsFrom_word (hne : w ≠ []) (hw : ∀ a ∈ w, ¬ sep a) :
    startsFrom sep true i (w ++ s) = i :: startsFrom sep false (i + w.length) s := by
  cases w with
  | nil => exact absurd rfl hne
  | cons a w =>
    have ha : sep a = false := by simpa using hw a List.mem_cons_self
    have hlen : i + (a :: w).length = i + 1 + w.length := by
      rw [List.length_cons]
      omega
    rw [List.cons_append, startsFrom, ha, hlen]
    exact congrArg (i :: ·) (startsFrom_plain fun b hb => hw b (List.mem_cons_of_mem a hb))

/-- After a word comes a separator, so that the next word is fresh again. -/
theorem startsFrom_after (hs : ∀ a ∈ s.head?, sep a) :
    startsFrom sep false i s = startsFrom sep true i s := by
  cases s with
  | nil => rfl
  | cons a s =>
    have ha : sep a = true := hs a rfl
    rw [startsFrom, startsFrom, ha]
    rfl

/-- The first word, after what separators come before it. -/
theorem startsFrom_skip (hu : ∀ a ∈ u, sep a) (hne : w ≠ []) (hw : ∀ a ∈ w, ¬ sep a)
    (hs : ∀ a ∈ s.head?, sep a) :
    startsFrom sep true i (u ++ (w ++ s)) =
      (i + u.length) :: startsFrom sep true (i + u.length + w.length) s := by
  rw [startsFrom_seps hu, startsFrom_word hne hw, startsFrom_after hs]

/-- What is dropped ends where the condition does not hold. -/
theorem not_of_mem_head?_dropWhile {p : α → Bool} {a : α} (h : a ∈ (s.dropWhile p).head?) :
    ¬ p a := by
  have hhead := List.head?_dropWhile_not p s
  rw [h] at hhead
  simpa using hhead

/-- A list is what begins it as far as the condition holds, and what follows. -/
theorem exists_takeWhile_append (p : α → Bool) (s : List α) :
    ∃ u v, s = u ++ v ∧ (∀ a ∈ u, p a) ∧ ∀ a ∈ v.head?, ¬ p a :=
  ⟨s.takeWhile p, s.dropWhile p, List.takeWhile_append_dropWhile.symm,
    fun _ ha => List.mem_takeWhile_imp ha, fun _ ha => not_of_mem_head?_dropWhile ha⟩

/-- What holds of separators, and of a word after separators once it holds of the rest, holds of
every list. -/
@[elab_as_elim]
theorem wordsInduction (sep : α → Bool) {P : List α → Prop} (seps : ∀ u, (∀ a ∈ u, sep a) → P u)
    (word : ∀ u w s, (∀ a ∈ u, sep a) → w ≠ [] → (∀ a ∈ w, ¬ sep a) →
      (∀ a ∈ s.head?, sep a) → P s → P (u ++ (w ++ s))) (s : List α) : P s := by
  induction hlen : s.length using Nat.strongRecOn generalizing s with
  | ind n ih =>
  subst n
  obtain ⟨u, v, rfl, hu, hv⟩ := exists_takeWhile_append sep s
  cases v with
  | nil =>
    rw [List.append_nil]
    exact seps u hu
  | cons b v =>
    have hb : sep b = false := by simpa using hv b rfl
    have hhead : (b :: v).takeWhile (fun a => !sep a) = b :: v.takeWhile fun a => !sep a :=
      List.takeWhile_cons_of_pos (by rw [hb]; rfl)
    have hsplit := List.takeWhile_append_dropWhile (p := fun a => !sep a) (l := b :: v)
    have hlen := congrArg List.length hsplit
    rw [List.length_append, hhead, List.length_cons] at hlen
    rw [← hsplit]
    refine word u _ _ hu (by rw [hhead]; exact List.cons_ne_nil _ _) ?_ ?_ (ih _ ?_ _ rfl)
    · intro a ha
      simpa using List.mem_takeWhile_imp ha
    · intro a ha
      simpa using not_of_mem_head?_dropWhile ha
    · rw [List.length_append]
      omega

theorem startsFrom_le : ∀ j ∈ startsFrom sep fresh i s, i ≤ j := by
  induction s generalizing fresh i with
  | nil =>
    intro j hj
    cases hj
  | cons a s ih =>
    intro j hj
    rcases List.mem_append.mp hj with hj | hj
    · split at hj
      · exact Nat.le_of_eq (List.mem_singleton.mp hj).symm
      · cases hj
    · have := ih j hj
      omega

/-- The words come in order. -/
theorem startsFrom_pairwise : (startsFrom sep fresh i s).Pairwise (· < ·) := by
  induction s generalizing fresh i with
  | nil => exact List.Pairwise.nil
  | cons a s ih =>
    rw [startsFrom]
    split
    · refine List.Pairwise.cons (fun j hj => ?_) ih
      have := startsFrom_le j hj
      omega
    · exact ih

theorem starts_pairwise : (starts sep s).Pairwise (· < ·) := startsFrom_pairwise

/-! ### The words are the maximal runs -/

/-- A word begins where there is no separator, after one or where it may. -/
theorem mem_startsFrom : j ∈ startsFrom sep fresh i s ↔
    ∃ k, j = i + k ∧ (∃ a ∈ s[k]?, ¬ sep a) ∧ (k = 0 → fresh) ∧
      ∀ m, k = m + 1 → ∀ a ∈ s[m]?, sep a := by
  induction s generalizing fresh i with
  | nil =>
    constructor
    · intro hj
      cases hj
    · rintro ⟨k, -, ⟨a, ha, -⟩, -⟩
      cases ha
  | cons a s ih =>
    rw [startsFrom, List.mem_append, ih]
    constructor
    · rintro (hj | ⟨k, rfl, hplain, hfresh, hbefore⟩)
      · cases hf : fresh && !sep a with
        | false =>
          rw [hf] at hj
          cases hj
        | true =>
          rw [hf] at hj
          obtain ⟨rfl, ha⟩ := Bool.and_eq_true_iff.mp hf
          refine ⟨0, List.mem_singleton.mp hj, ⟨a, rfl, by simpa using ha⟩, fun _ => rfl, ?_⟩
          intro m hm
          omega
      · refine ⟨k + 1, by omega, hplain, by omega, fun m hm b hb => ?_⟩
        rcases k with _ | k
        · obtain rfl : m = 0 := by omega
          obtain rfl := Option.some.inj hb
          exact hfresh rfl
        · obtain rfl : m = k + 1 := by omega
          exact hbefore k rfl b hb
    · rintro ⟨k, rfl, ⟨b, hb, hplain⟩, hfresh, hbefore⟩
      rcases k with _ | k
      · obtain rfl := Option.some.inj hb
        left
        rw [hfresh rfl, if_pos (by simpa using hplain)]
        exact List.mem_singleton.mpr rfl
      · refine .inr ⟨k, by omega, ⟨b, hb, hplain⟩, fun hk => ?_, fun m hm c hc => ?_⟩
        · subst hk
          exact hbefore 0 rfl a rfl
        · subst hm
          exact hbefore (m + 1) rfl c hc

theorem takeWhile_run {post : List α} (hw : ∀ a ∈ w, ¬ sep a) (hpost : ∀ a ∈ post.head?, sep a) :
    (w ++ post).takeWhile (fun a => !sep a) = w := by
  have hnone : post.takeWhile (fun a => !sep a) = [] := by
    cases post with
    | nil => rfl
    | cons b post =>
      have hb : sep b = true := hpost b rfl
      exact List.takeWhile_cons_of_neg (by simp [hb])
  rw [List.takeWhile_append_of_pos fun a ha => by simpa using hw a ha, hnone, List.append_nil]

theorem IsRun.wordAt_eq (h : IsRun sep s i w) : wordAt sep s i = w := by
  obtain ⟨⟨pre, post, rfl, rfl, -, hpost⟩, -, hplain⟩ := h
  rw [wordAt, List.append_assoc, List.drop_left]
  exact takeWhile_run hplain hpost

/-- The words are exactly the maximal runs. -/
theorem mem_words : (i, w) ∈ words sep s ↔ IsRun sep s i w := by
  constructor
  · intro h
    obtain ⟨j, hj, heq⟩ := List.mem_map.mp h
    obtain ⟨rfl, rfl⟩ := Prod.mk.inj heq
    obtain ⟨k, hk, ⟨a, ha, hplain⟩, -, hbefore⟩ := mem_startsFrom.mp hj
    obtain rfl : j = k := by omega
    have hsplit : s = s.take j ++ wordAt sep s j ++ (s.drop j).dropWhile (fun a => !sep a) := by
      rw [List.append_assoc, wordAt, List.takeWhile_append_dropWhile, List.take_append_drop]
    have hlt : j < s.length := (List.getElem?_eq_some_iff.mp ha).1
    refine ⟨⟨_, _, hsplit, List.length_take_of_le (Nat.le_of_lt hlt), ?_, ?_⟩, ?_, ?_⟩
    · intro b hb
      rcases j with _ | j
      · cases hb
      · have hget : s[j]? = some b := by
          rw [List.getLast?_eq_getElem?, List.length_take_of_le (Nat.le_of_lt hlt)] at hb
          rw [Nat.add_sub_cancel, List.getElem?_take_of_lt (Nat.lt_succ_self j)] at hb
          exact hb
        exact hbefore j rfl b hget
    · intro b hb
      simpa using not_of_mem_head?_dropWhile hb
    · rw [wordAt, List.drop_eq_getElem_cons hlt]
      have hget : s[j] = a := Option.some.inj ((List.getElem?_eq_getElem hlt).symm.trans ha)
      rw [hget, List.takeWhile_cons_of_pos (by simpa using hplain)]
      exact List.cons_ne_nil _ _
    · intro b hb
      simpa using List.mem_takeWhile_imp hb
  · intro h
    have hword := h.wordAt_eq
    obtain ⟨⟨pre, post, rfl, rfl, hpre, -⟩, hne, hplain⟩ := h
    refine List.mem_map.mpr ⟨pre.length, mem_startsFrom.mpr ⟨pre.length, by omega, ?_, ?_, ?_⟩,
      by rw [hword]⟩
    · obtain ⟨a, w, rfl⟩ := List.exists_cons_of_ne_nil hne
      refine ⟨a, ?_, hplain a List.mem_cons_self⟩
      simp
    · intro _
      rfl
    · intro m hm a ha
      refine hpre a ?_
      rw [List.append_assoc, List.getElem?_append_left (by omega)] at ha
      rw [List.getLast?_eq_getElem?, hm, Nat.add_sub_cancel]
      exact ha

end Prog
