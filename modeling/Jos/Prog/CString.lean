import Jos.Prog.Bytes
import Jos.Prog.Memory

/-!
Strings that end in a NUL, in byte memory. Nothing here depends on the program that
is verified.
-/
namespace Prog

open Memory

/-- The string `s` starts at `a`. -/
def StringAt (m : Memory) : Addr → List Byte → Prop
  | a, [] => m.bytes a = 0
  | a, b :: s => b ≠ 0 ∧ m.bytes a = b ∧ StringAt m (a + 1) s

/-- The first `k` bytes at `a` are those of the string `s` and its NUL, as far as these go. -/
def StartsAt (m : Memory) : ℕ → Addr → List Byte → Prop
  | 0, _, _ => True
  | _ + 1, a, [] => m.bytes a = 0
  | k + 1, a, b :: s => b ≠ 0 ∧ m.bytes a = b ∧ StartsAt m k (a + 1) s

variable {m m' : Memory} {a d x : Addr} {b : Byte} {s t bs : List Byte} {j k : ℕ}

@[simp] theorem stringAt_nil : StringAt m a [] ↔ m.bytes a = 0 := Iff.rfl

@[simp] theorem stringAt_cons :
    StringAt m a (b :: s) ↔ b ≠ 0 ∧ m.bytes a = b ∧ StringAt m (a + 1) s := Iff.rfl

namespace Memory

theorem bytes_store_self : (m.store a b).bytes a = b := Function.update_self _ _ _

theorem bytes_store_of_ne (h : x ≠ a) : (m.store a b).bytes x = m.bytes x :=
  Function.update_of_ne h _ _

theorem storeBytes_append (m : Memory) (a : Addr) (s t : List Byte) :
    m.storeBytes a (s ++ t) = (m.storeBytes a s).storeBytes (a + BitVec.ofNat 32 s.length) t := by
  induction s generalizing m a with
  | nil => simp
  | cons b s ih =>
    rw [List.cons_append, storeBytes_cons, ih, List.length_cons, add_ofNat_succ, storeBytes_cons]

/-- Storing reaches the distances below its length only. -/
theorem bytes_storeBytes_of_le (hbs : bs.length < 2 ^ 32) (hx : bs.length ≤ (x - a).toNat) :
    (m.storeBytes a bs).bytes x = m.bytes x := by
  rw [bytes_storeBytes hbs, List.getElem?_eq_none hx, Option.getD_none]

end Memory

/-! ### Which strings start at an address -/

theorem StringAt.unique (hs : StringAt m a s) (ht : StringAt m a t) : s = t := by
  induction s generalizing a t with
  | nil =>
    cases t with
    | nil => rfl
    | cons b t => exact absurd (ht.2.1.symm.trans hs) ht.1
  | cons b s ih =>
    cases t with
    | nil => exact absurd (hs.2.1.symm.trans ht) hs.1
    | cons c t =>
      obtain ⟨-, hb, hs⟩ := hs
      obtain ⟨-, hc, ht⟩ := ht
      rw [← hb, ← hc, ih hs ht]

theorem StringAt.noNul (h : StringAt m a s) : 0 ∉ s := by
  induction s generalizing a with
  | nil => exact List.not_mem_nil
  | cons b s ih =>
    intro hmem
    rcases List.mem_cons.mp hmem with h0 | hmem
    · exact h.1 h0.symm
    · exact ih h.2.2 hmem

/-- The characters of a string, and the NUL behind them. -/
theorem StringAt.bytes (h : StringAt m a s) (hk : k ≤ s.length) :
    m.bytes (a + BitVec.ofNat 32 k) = (cstr s)[k]?.getD 0 := by
  induction s generalizing a k with
  | nil =>
    obtain rfl : k = 0 := by simpa using hk
    simpa [cstr] using h
  | cons b s ih =>
    cases k with
    | zero => simpa [cstr] using h.2.1
    | succ k =>
      rw [add_ofNat_succ, ih h.2.2 (by simpa using hk)]
      simp [cstr]

theorem StringAt.bytes_end (h : StringAt m a s) :
    m.bytes (a + BitVec.ofNat 32 s.length) = 0 := by
  rw [h.bytes (Nat.le_refl _)]
  simp [cstr]

theorem StringAt.bytes_ne (h : StringAt m a s) (hk : k < s.length) :
    m.bytes (a + BitVec.ofNat 32 k) ≠ 0 := by
  have hget : (cstr s)[k]? = some s[k] := by
    rw [cstr, List.getElem?_append_left hk, List.getElem?_eq_getElem hk]
  rw [h.bytes (Nat.le_of_lt hk), hget, Option.getD_some]
  exact fun h0 => h.noNul (h0 ▸ List.getElem_mem hk)

/-- A string does not go round the whole memory. -/
theorem StringAt.length_lt (h : StringAt m a s) : s.length < 2 ^ 32 := by
  by_contra hlen
  have hwrap : BitVec.ofNat 32 s.length = BitVec.ofNat 32 (s.length - 2 ^ 32) := by
    apply BitVec.eq_of_toNat_eq
    simp only [BitVec.toNat_ofNat]
    omega
  have hne := h.bytes_ne (k := s.length - 2 ^ 32) (by omega)
  rw [← hwrap] at hne
  exact hne h.bytes_end

theorem StringAt.startsAt (h : StringAt m a s) (k : ℕ) : StartsAt m k a s := by
  induction s generalizing a k with
  | nil =>
    cases k with
    | zero => trivial
    | succ k => exact h
  | cons b s ih =>
    cases k with
    | zero => trivial
    | succ k =>
      obtain ⟨hb, ha, hs⟩ := h
      exact ⟨hb, ha, ih hs k⟩

/-- Where no string starts, there is no NUL in all of memory. -/
theorem bytes_ne_of_forall_not (h : ∀ s, ¬ StringAt m a s) (k : ℕ) :
    m.bytes (a + BitVec.ofNat 32 k) ≠ 0 := by
  induction k generalizing a with
  | zero => simpa using h []
  | succ k ih =>
    rw [add_ofNat_succ]
    refine ih fun s hs => h (m.bytes a :: s) ⟨?_, rfl, hs⟩
    exact h []

/-! ### Strings after a store -/

theorem StringAt.congr (h : StringAt m a s) (hm : ∀ k ≤ s.length,
    m'.bytes (a + BitVec.ofNat 32 k) = m.bytes (a + BitVec.ofNat 32 k)) : StringAt m' a s := by
  induction s generalizing a with
  | nil =>
    have hnul : m'.bytes a = m.bytes a := by simpa using hm 0 (Nat.zero_le 0)
    exact hnul.trans h
  | cons b s ih =>
    obtain ⟨hb, ha, hs⟩ := h
    refine ⟨hb, by simpa [ha] using hm 0 (Nat.zero_le _), ih hs fun k hk => ?_⟩
    have hnext := hm (k + 1) (by simpa using hk)
    rwa [add_ofNat_succ] at hnext

/-- A store behind the NUL leaves the string alone. -/
theorem StringAt.store (h : StringAt m a s) (hd : s.length < (d - a).toNat) (b : Byte) :
    StringAt (m.store d b) a s := by
  refine h.congr fun k hk => bytes_store_of_ne ?_
  bv_omega

/-- A store behind the bytes that count leaves them alone. -/
theorem StartsAt.store (h : StartsAt m k a s)
    (hd : ∀ j ≤ s.length, j < k → a + BitVec.ofNat 32 j ≠ d) (b : Byte) :
    StartsAt (m.store d b) k a s := by
  induction k generalizing a s with
  | zero => trivial
  | succ k ih =>
    have hfirst : a ≠ d := by simpa using hd 0 (Nat.zero_le _) (Nat.zero_lt_succ k)
    cases s with
    | nil => exact (bytes_store_of_ne hfirst).trans h
    | cons c s =>
      obtain ⟨hc, ha, hs⟩ := h
      refine ⟨hc, (bytes_store_of_ne hfirst).trans ha, ih hs fun j hj hjk => ?_⟩
      rw [← add_ofNat_succ]
      exact hd (j + 1) (Nat.succ_le_succ hj) (Nat.succ_lt_succ hjk)

theorem stringAt_storeBytes (hs : 0 ∉ s) (hlen : s.length < 2 ^ 32) (m : Memory) (a : Addr) :
    StringAt (m.storeBytes a (cstr s)) a s := by
  induction s generalizing m a with
  | nil => exact bytes_store_self
  | cons b s ih =>
    rw [List.length_cons] at hlen
    refine ⟨fun h0 => hs (h0 ▸ List.mem_cons_self), ?_, ih ?_ (by omega) _ _⟩
    · have hfar : (cstr s).length ≤ (a - (a + 1)).toNat := by
        rw [toNat_sub_self_succ, cstr, List.length_append, List.length_singleton]
        omega
      have hkeep : ((m.store a b).storeBytes (a + 1) (cstr s)).bytes a = (m.store a b).bytes a :=
        bytes_storeBytes_of_le (by rw [toNat_sub_self_succ] at hfar; omega) hfar
      exact hkeep.trans bytes_store_self
    · exact fun hmem => hs (List.mem_cons_of_mem b hmem)

/-- The characters of one string and then another string are one string. -/
theorem StringAt.append (hs : StringAt m a s)
    (ht : StringAt m' (a + BitVec.ofNat 32 s.length) t) (hm : ∀ k < s.length,
    m'.bytes (a + BitVec.ofNat 32 k) = m.bytes (a + BitVec.ofNat 32 k)) :
    StringAt m' a (s ++ t) := by
  induction s generalizing a with
  | nil => simpa using ht
  | cons b s ih =>
    obtain ⟨hb, ha, hs⟩ := hs
    rw [List.length_cons, add_ofNat_succ] at ht
    refine ⟨hb, by simpa [ha] using hm 0 (Nat.zero_lt_succ _), ih hs ht fun k hk => ?_⟩
    have hnext := hm (k + 1) (by simpa using hk)
    rwa [add_ofNat_succ] at hnext

/-! ### Copying upward -/

/-- Copying one byte after another from `src` to `dst`, each of the bytes up to distance `k` is
read before anything is stored over it. -/
def ReadsAhead (dst src : Addr) (k : ℕ) : Prop := dst = src ∨ k < (dst - src).toNat

instance (dst src : Addr) (k : ℕ) : Decidable (ReadsAhead dst src k) :=
  inferInstanceAs (Decidable (_ ∨ _))

theorem ReadsAhead.next {dst src : Addr} (h : ReadsAhead dst src k) (hj : j ≤ k) :
    ReadsAhead (dst + 1) (src + 1) j := by
  rcases h with rfl | h
  · exact .inl rfl
  · right
    have hsub : dst + 1 - (src + 1) = dst - src := by bv_omega
    rw [hsub]
    omega

/-- What is still to be read of a string stays after its first character is copied. -/
theorem StringAt.copied {dst src : Addr} (hs : StringAt m src (b :: s))
    (h : ReadsAhead dst src (b :: s).length) (c : Byte) : StringAt (m.store dst c) (src + 1) s := by
  refine hs.2.2.store ?_ c
  have hlen := hs.length_lt
  rw [List.length_cons] at h hlen
  rcases h with rfl | h
  · rw [toNat_sub_self_succ]
    omega
  · bv_omega

/-- The same where only the first `k` bytes are read in the end. -/
theorem StartsAt.copied {dst src : Addr} (hs : StartsAt m (k + 1) src (b :: s))
    (hlen : (b :: s).length < 2 ^ 32) (h : ReadsAhead dst src (min (b :: s).length k)) (c : Byte) :
    StartsAt (m.store dst c) k (src + 1) s := by
  rw [List.length_cons] at h hlen
  refine hs.2.2.store (fun j hj hjk => ?_) c
  rcases h with rfl | h
  · bv_omega
  · have hle : j + 1 ≤ min (s.length + 1) k := by omega
    generalize min (s.length + 1) k = n at h hle
    bv_omega

end Prog
