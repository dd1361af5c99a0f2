import Jos.Inc.Types
import Jos.Prog.Bytes

/-! `lib/string.c`: strings that end in a NUL. -/
namespace Jos

open Prog

/-- `s` is the position in the array `p`, `n` the count so far. -/
def strnlenBody (p : List Byte) :
    BitVec 32 × ℕ × BitVec 32 → Res (BitVec 32 × ℕ × BitVec 32 ⊕ BitVec 32)
  | (n, s, size) =>
    if 0 < size then do
      let b ← peek p s
      if b = 0 then pure (.inr n) else pure (.inl (n + 1, s + 1, size - 1))
    else pure (.inr n)

def strnlen (fuel : ℕ) (p : List Byte) (size : BitVec 32) : Res (BitVec 32) :=
  loop (strnlenBody p) fuel (0, 0, size)

/-- `for (; *s; s++) if (*s == c) break`. -/
def strfindBody (p : List Byte) (c : Byte) (s : ℕ) : Res (ℕ ⊕ ℕ) := do
  let b ← peek p s
  if b = 0 then pure (.inr s) else if b = c then pure (.inr s) else pure (.inl (s + 1))

/-- The position of the first `c` in `p`, or of the NUL. -/
def strfind (fuel : ℕ) (p : List Byte) (c : Byte) : Res ℕ := loop (strfindBody p c) fuel 0

/-- `for (; *s; s++) if (*s == c) return s`, and then `return 0`. -/
def strchrBody (p : List Byte) (c : Byte) (s : ℕ) : Res (ℕ ⊕ Option ℕ) := do
  let b ← peek p s
  if b = 0 then pure (.inr none) else if b = c then pure (.inr (some s)) else pure (.inl (s + 1))

/-- The position of the first `c` in `p`, or a null pointer. -/
def strchr (fuel : ℕ) (p : List Byte) (c : Byte) : Res (Option ℕ) := loop (strchrBody p c) fuel 0

/-- `while (*p && *p == *q) p++, q++`, with `i` for both pointers; what is returned reads the two
characters at which the loop stops. -/
def strcmpBody (p q : List Byte) (i : ℕ) : Res (ℕ ⊕ BitVec 32) := do
  let a ← peek p i
  let b ← peek q i
  if a ≠ 0 ∧ a = b then pure (.inl (i + 1)) else pure (.inr (a.setWidth 32 - b.setWidth 32))

def strcmp (fuel : ℕ) (p q : List Byte) : Res (BitVec 32) := loop (strcmpBody p q) fuel 0

/-- `while (n > 0 && *p && *p == *q) n--, p++, q++`, and what is returned after it. -/
def strncmpBody (p q : List Byte) : BitVec 32 × ℕ → Res (BitVec 32 × ℕ ⊕ BitVec 32)
  | (n, i) =>
    if 0 < n then do
      let a ← peek p i
      let b ← peek q i
      if a ≠ 0 ∧ a = b then pure (.inl (n - 1, i + 1))
      else pure (.inr (a.setWidth 32 - b.setWidth 32))
    else pure (.inr 0)

def strncmp (fuel : ℕ) (p q : List Byte) (n : BitVec 32) : Res (BitVec 32) :=
  loop (strncmpBody p q) fuel (n, 0)

/-- `while (n-- > 0)`, with `i` for both pointers. -/
def memcmpBody (p q : List Byte) : BitVec 32 × ℕ → Res (BitVec 32 × ℕ ⊕ BitVec 32)
  | (n, i) =>
    if 0 < n then do
      let a ← peek p i
      let b ← peek q i
      if a ≠ b then pure (.inr (a.setWidth 32 - b.setWidth 32)) else pure (.inl (n - 1, i + 1))
    else pure (.inr 0)

def memcmp (fuel : ℕ) (p q : List Byte) (n : BitVec 32) : Res (BitVec 32) :=
  loop (memcmpBody p q) fuel (n, 0)

/-- Gobble initial whitespace. -/
def blankBody (p : List Byte) (s : ℕ) : Res (ℕ ⊕ ℕ) := do
  let b ← peek p s
  if b = chr ' ' ∨ b = chr '\t' then pure (.inl (s + 1)) else pure (.inr s)

/-- Plus/minus sign: `neg`, and where the number goes on. -/
def strtolSign (p : List Byte) (s : ℕ) : Res (Bool × ℕ) := do
  let b ← peek p s
  if b = chr '+' then pure (false, s + 1)
  else if b = chr '-' then pure (true, s + 1)
  else pure (false, s)

/-- Whether `s[0] == '0' && s[1] == 'x'`; the second is read only after the first matched. -/
def hexPrefix (p : List Byte) (s : ℕ) : Res Bool := do
  let b ← peek p s
  if b = chr '0' then do
    let b ← peek p (s + 1 : ℕ)
    pure (b = chr 'x')
  else pure false

/-- Hex or octal base prefix. -/
def strtolPrefix (p : List Byte) (base : BitVec 32) (s : ℕ) : Res (BitVec 32 × ℕ) := do
  let hex ← (if base = 0 ∨ base = 16 then hexPrefix p s else pure false)
  if hex then pure (16, s + 2)
  else if base = 0 then do
    let b ← peek p s
    if b = chr '0' then pure (8, s + 1) else pure (10, s)
  else pure (base, s)

/-- The value of a digit or letter, of which the base may still be too small. -/
def digitValue (b : Byte) : Option (BitVec 32) :=
  let ch : BitVec 32 := b.signExtend 32
  if (chr '0' : BitVec 32).sle ch ∧ ch.sle (chr '9') then some (ch - chr '0')
  else if (chr 'a' : BitVec 32).sle ch ∧ ch.sle (chr 'z') then some (ch - chr 'a' + 10)
  else if (chr 'A' : BitVec 32).sle ch ∧ ch.sle (chr 'Z') then some (ch - chr 'A' + 10)
  else none

/-- One pass of the loop over the digits. Overflow is not detected. -/
def strtolBody (p : List Byte) (base : BitVec 32) :
    BitVec 32 × ℕ → Res (BitVec 32 × ℕ ⊕ BitVec 32 × ℕ)
  | (val, s) => do
    let b ← peek p s
    match digitValue b with
    | none => pure (.inr (val, s))
    | some dig =>
      if base.sle dig then pure (.inr (val, s))
      else pure (.inl (val * base + dig, s + 1))

/-- The number at the start of `p`, and the position that `*endptr` is set to. -/
def strtol (fuel : ℕ) (p : List Byte) (base : BitVec 32) : Res (BitVec 32 × ℕ) := do
  let s ← loop (blankBody p) fuel 0
  let (neg, s) ← strtolSign p s
  let (base, s) ← strtolPrefix p base s
  let (val, s) ← loop (strtolBody p base) fuel (0, s)
  pure (if neg then -val else val, s)

section

variable {p : List Byte} {s k : ℕ}

theorem strfindBody_settles (c : Byte) (hk : p[k]? = some 0) (hs : s ≤ k) :
    ∃ x, Settles (fun n => loop (strfindBody p c) n s) (.ok x) := by
  obtain ⟨n, rfl⟩ := Nat.exists_eq_add_of_le hs
  induction n generalizing s with
  | zero =>
    have hb : peek p s = .ok 0 := peek_of_getElem? hk
    exact ⟨s, .loop_exit (by rw [strfindBody, hb]; rfl)⟩
  | succ n ih =>
    obtain ⟨hlt, -⟩ := List.getElem?_eq_some_iff.mp hk
    have hb : peek p s = .ok p[s] := peek_of_getElem? (List.getElem?_eq_getElem (by omega))
    have hbody : strfindBody p c s = if p[s] = 0 then .ok (.inr s)
        else if p[s] = c then .ok (.inr s) else .ok (.inl (s + 1)) := by
      rw [strfindBody, hb]
      rfl
    by_cases h0 : p[s] = 0
    · exact ⟨s, .loop_exit (hbody.trans (if_pos h0))⟩
    · rw [if_neg h0] at hbody
      by_cases hc : p[s] = c
      · exact ⟨s, .loop_exit (hbody.trans (if_pos hc))⟩
      · obtain ⟨x, hx⟩ := ih (s := s + 1) (by rwa [Nat.add_right_comm]) (by omega)
        exact ⟨x, .loop_next (hbody.trans (if_neg hc)) hx⟩

/-- In an array that holds a NUL the search ends. -/
theorem strfind_settles (c : Byte) (h : 0 ∈ p) :
    ∃ x, Settles (fun n => strfind n p c) (.ok x) := by
  obtain ⟨k, hk⟩ := List.mem_iff_getElem?.mp h
  exact strfindBody_settles c hk (Nat.zero_le k)

end

variable {p q s t post post' : List Byte} {c : Byte}

/-! ### Characters of a string -/

theorem strchr_run (hs : 0 ∉ s) (pre post : List Byte) (c : Byte) :
    Settles (fun n => loop (strchrBody (pre ++ (s ++ 0 :: post)) c) n pre.length)
      (.ok ((s.idxOf? c).map (pre.length + ·))) := by
  induction s generalizing pre with
  | nil =>
    have hb : peek (pre ++ ([] ++ 0 :: post)) pre.length = .ok 0 := peek_append pre 0 post
    exact .loop_exit (by rw [strchrBody, hb]; rfl)
  | cons b s ih =>
    have hb : peek (pre ++ (b :: s ++ 0 :: post)) pre.length = .ok b := peek_append pre b _
    have hb0 : b ≠ 0 := fun h => hs (h ▸ List.mem_cons_self)
    by_cases hc : b = c
    · subst hc
      have hfirst : (b :: s).idxOf? b = some 0 := by simp [List.idxOf?_cons]
      rw [hfirst]
      refine .loop_exit ?_
      rw [strchrBody, hb, ok_bind, if_neg hb0, if_pos rfl]
      rfl
    · have hlater : ((b :: s).idxOf? c).map (pre.length + ·) =
          (s.idxOf? c).map ((pre ++ [b]).length + ·) := by
        have hbeq : (b == c) = false := by simpa using hc
        rw [List.idxOf?_cons, hbeq, if_neg Bool.false_ne_true, Option.map_map]
        congr 1
        funext i
        simp only [Function.comp, List.length_append, List.length_singleton]
        omega
      have hnext := ih (fun h => hs (List.mem_cons_of_mem b h)) (pre ++ [b])
      rw [List.append_assoc, List.length_append] at hnext
      rw [hlater]
      refine .loop_next (t := pre.length + 1) ?_ (by simpa using hnext)
      rw [strchrBody, hb, ok_bind, if_neg hb0, if_neg hc]
      rfl

/-- The position of the first `c` in a string. -/
theorem strchr_settles (hs : 0 ∉ s) :
    Settles (fun n => strchr n (s ++ 0 :: post) c) (.ok (s.idxOf? c)) := by
  have h := strchr_run hs [] post c
  simpa [strchr] using h

theorem strfind_run (hs : 0 ∉ s) (pre post : List Byte) (c : Byte) :
    Settles (fun n => loop (strfindBody (pre ++ (s ++ 0 :: post)) c) n pre.length)
      (.ok (pre.length + (s.takeWhile (· ≠ c)).length)) := by
  induction s generalizing pre with
  | nil =>
    have hb : peek (pre ++ ([] ++ 0 :: post)) pre.length = .ok 0 := peek_append pre 0 post
    exact .loop_exit (by rw [strfindBody, hb]; rfl)
  | cons b s ih =>
    have hb : peek (pre ++ (b :: s ++ 0 :: post)) pre.length = .ok b := peek_append pre b _
    have hb0 : b ≠ 0 := fun h => hs (h ▸ List.mem_cons_self)
    by_cases hc : b = c
    · rw [List.takeWhile_cons_of_neg (by simpa using hc)]
      refine .loop_exit ?_
      rw [strfindBody, hb, ok_bind, if_neg hb0, if_pos hc]
      rfl
    · have hnext := ih (fun h => hs (List.mem_cons_of_mem b h)) (pre ++ [b])
      rw [List.append_assoc, List.length_append] at hnext
      rw [List.takeWhile_cons_of_pos (by simpa using hc), List.length_cons]
      have hsum : pre.length + ((s.takeWhile (· ≠ c)).length + 1) =
          pre.length + [b].length + (s.takeWhile (· ≠ c)).length := by
        rw [List.length_singleton]
        omega
      rw [hsum]
      refine .loop_next (t := pre.length + 1) ?_ (by simpa using hnext)
      rw [strfindBody, hb, ok_bind, if_neg hb0, if_neg hc]
      rfl

/-- What is in front of the first `c` in a string, or all of it. -/
theorem strfind_takes (hs : 0 ∉ s) (post : List Byte) (c : Byte) :
    Settles (fun n => strfind n (s ++ 0 :: post) c) (.ok (s.takeWhile (· ≠ c)).length) := by
  have h := strfind_run hs [] post c
  simpa [strfind] using h

/-! ### Comparing strings -/

/-- The difference of the first characters at which two strings differ, where the NUL counts as
a character. -/
def difference : List Byte → List Byte → BitVec 32
  | [], t => 0 - (t.headD 0).setWidth 32
  | a :: s, t => if t.head? = some a then difference s t.tail
    else a.setWidth 32 - (t.headD 0).setWidth 32

theorem sub_ne_zero_of_ne {a b : Byte} (h : a ≠ b) :
    (a.setWidth 32 - b.setWidth 32 : BitVec 32) ≠ 0 := by
  bv_omega

/-- Only equal strings have no difference. -/
theorem difference_eq_zero (hs : 0 ∉ s) (ht : 0 ∉ t) : difference s t = 0 ↔ s = t := by
  induction s generalizing t with
  | nil =>
    cases t with
    | nil => exact ⟨fun _ => rfl, fun _ => rfl⟩
    | cons b t =>
      have hb : (0 : Byte) ≠ b := fun h => ht (h ▸ List.mem_cons_self)
      refine ⟨fun h => absurd h (sub_ne_zero_of_ne hb), fun h => ?_⟩
      exact absurd h.symm (List.cons_ne_nil b t)
  | cons a s ih =>
    have ha : a ≠ 0 := fun h => hs (h ▸ List.mem_cons_self)
    cases t with
    | nil =>
      refine ⟨fun h => absurd h (sub_ne_zero_of_ne ha), fun h => ?_⟩
      exact absurd h (List.cons_ne_nil a s)
    | cons b t =>
      by_cases hab : b = a
      · subst hab
        rw [difference, List.head?_cons, if_pos rfl, List.tail_cons, List.cons_inj_right]
        exact ih (fun h => hs (List.mem_cons_of_mem b h)) fun h => ht (List.mem_cons_of_mem b h)
      · have hne : ¬ (b :: t).head? = some a := fun h => hab (Option.some.inj h)
        rw [difference, if_neg hne]
        refine ⟨fun h => absurd h (sub_ne_zero_of_ne (Ne.symm hab)), fun h => ?_⟩
        exact absurd (List.cons.inj h).1.symm hab

theorem strcmp_run (hs : 0 ∉ s) (ht : 0 ∉ t) (pre : List Byte) :
    Settles (fun n => loop (strcmpBody (pre ++ (s ++ 0 :: post)) (pre ++ (t ++ 0 :: post'))) n
      pre.length) (.ok (difference s t)) := by
  induction s generalizing t pre with
  | nil =>
    have ha : peek (pre ++ ([] ++ 0 :: post)) pre.length = .ok 0 := peek_append pre 0 post
    have hb : peek (pre ++ (t ++ 0 :: post')) pre.length = .ok (t.headD 0) :=
      peek_of_getElem? (by cases t <;> simp)
    refine .loop_exit ?_
    rw [strcmpBody, ha, ok_bind, hb, ok_bind, if_neg fun h => h.1 rfl]
    rfl
  | cons a s ih =>
    have ha : peek (pre ++ (a :: s ++ 0 :: post)) pre.length = .ok a := peek_append pre a _
    have ha0 : a ≠ 0 := fun h => hs (h ▸ List.mem_cons_self)
    have hb : peek (pre ++ (t ++ 0 :: post')) pre.length = .ok (t.headD 0) :=
      peek_of_getElem? (by cases t <;> simp)
    by_cases hab : t.head? = some a
    · obtain ⟨t, rfl⟩ := List.head?_eq_some_iff.mp hab
      have hnext := ih (fun h => hs (List.mem_cons_of_mem a h))
        (fun h => ht (List.mem_cons_of_mem a h)) (pre ++ [a])
      rw [List.append_assoc, List.append_assoc, List.length_append] at hnext
      rw [difference, if_pos hab, List.tail_cons]
      refine .loop_next (t := pre.length + 1) ?_ (by simpa using hnext)
      rw [strcmpBody, ha, ok_bind, hb, ok_bind, if_pos ⟨ha0, rfl⟩]
      rfl
    · have hne : a ≠ t.headD 0 := by
        cases t with
        | nil => exact ha0
        | cons b t => exact fun h => hab (congrArg some h.symm)
      rw [difference, if_neg hab]
      refine .loop_exit ?_
      rw [strcmpBody, ha, ok_bind, hb, ok_bind, if_neg fun h => hne h.2]
      rfl

theorem strcmp_settles (hs : 0 ∉ s) (ht : 0 ∉ t) :
    Settles (fun n => strcmp n (s ++ 0 :: post) (t ++ 0 :: post')) (.ok (difference s t)) :=
  strcmp_run hs ht []

end Jos
