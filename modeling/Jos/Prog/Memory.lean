import Mathlib.Algebra.Group.Nat.Defs
import Mathlib.Logic.Function.Basic
import Mathlib.Tactic.Common

/-!
Byte memory of a 32-bit machine with a log of the addresses stored to, and the
x86 string instructions on it. Ranges are told by the distance `x - a` from their
start, which is also right for a range that wraps.
-/
namespace Prog

abbrev Addr := BitVec 32
abbrev Byte := BitVec 8

structure Memory where
  bytes : Addr → Byte
  /-- Every address stored to, oldest first. -/
  stores : List Addr

namespace Memory

variable {m : Memory} {a d s x : Addr} {b : Byte} {bs : List Byte} {n w : ℕ}

def store (m : Memory) (a : Addr) (b : Byte) : Memory where
  bytes := Function.update m.bytes a b
  stores := m.stores ++ [a]

/-- Store the bytes of `bs` from `a` upward. -/
def storeBytes (m : Memory) (a : Addr) : List Byte → Memory
  | [] => m
  | b :: bs => (m.store a b).storeBytes (a + 1) bs

/-- The `n` bytes from `a` upward. -/
def loadBytes (m : Memory) (a : Addr) : ℕ → List Byte
  | 0 => []
  | n + 1 => m.bytes a :: m.loadBytes (a + 1) n

/-- A little-endian 16-bit load. -/
def load16 (m : Memory) (a : Addr) : BitVec 16 := m.bytes (a + 1) ++ m.bytes a

/-- A little-endian 32-bit load. -/
def load32 (m : Memory) (a : Addr) : BitVec 32 :=
  m.bytes (a + 3) ++ m.bytes (a + 2) ++ m.bytes (a + 1) ++ m.bytes a

/-- A little-endian 16-bit store. -/
def store16 (m : Memory) (a : Addr) (v : BitVec 16) : Memory :=
  m.storeBytes a [v.setWidth 8, (v >>> 8).setWidth 8]

/-! ### Stores -/

@[simp] theorem storeBytes_nil : m.storeBytes a [] = m := rfl

@[simp] theorem storeBytes_cons :
    m.storeBytes a (b :: bs) = (m.store a b).storeBytes (a + 1) bs := rfl

theorem toNat_sub_succ (hx : x ≠ a) : (x - a).toNat = (x - (a + 1)).toNat + 1 := by
  bv_omega

theorem toNat_sub_self_succ : (a - (a + 1)).toNat = 2 ^ 32 - 1 := by
  bv_omega

/-- What a store of `bs` leaves at `x`: the byte at distance `x - a`, if there is one. -/
theorem bytes_storeBytes (hbs : bs.length < 2 ^ 32) :
    (m.storeBytes a bs).bytes x = bs[(x - a).toNat]?.getD (m.bytes x) := by
  induction bs generalizing m a with
  | nil => rfl
  | cons b bs ih =>
    rw [List.length_cons] at hbs
    rw [storeBytes_cons, ih (by omega)]
    by_cases hx : x = a
    · subst x
      rw [toNat_sub_self_succ, List.getElem?_eq_none (by omega)]
      simp [store]
    · rw [toNat_sub_succ hx, List.getElem?_cons_succ]
      simp only [store, Function.update_of_ne hx]

theorem add_ofNat_succ (k : ℕ) : a + BitVec.ofNat 32 (k + 1) = a + 1 + BitVec.ofNat 32 k := by
  rw [BitVec.ofNat_add, BitVec.add_assoc, BitVec.add_comm (BitVec.ofNat 32 k)]
  rfl

theorem stores_storeBytes (m : Memory) (a : Addr) (bs : List Byte) :
    ∃ new, (m.storeBytes a bs).stores = m.stores ++ new ∧
      ∀ y ∈ new, ∃ k < bs.length, y = a + BitVec.ofNat 32 k := by
  induction bs generalizing m a with
  | nil => exact ⟨[], by simp⟩
  | cons b bs ih =>
    obtain ⟨new, hnew, hin⟩ := ih (m.store a b) (a + 1)
    refine ⟨a :: new, by rw [storeBytes_cons, hnew]; simp [store], ?_⟩
    intro y hy
    rcases List.mem_cons.mp hy with rfl | hy
    · exact ⟨0, by simp⟩
    · obtain ⟨k, hk, rfl⟩ := hin y hy
      exact ⟨k + 1, by simpa using hk, (add_ofNat_succ k).symm⟩

@[simp] theorem length_loadBytes : (m.loadBytes a n).length = n := by
  induction n generalizing a with
  | zero => rfl
  | succ n ih => simp only [loadBytes, List.length_cons, ih]

theorem getElem?_loadBytes {k : ℕ} (h : k < n) :
    (m.loadBytes a n)[k]? = some (m.bytes (a + BitVec.ofNat 32 k)) := by
  induction n generalizing a k with
  | zero => omega
  | succ n ih =>
    cases k with
    | zero => simp [loadBytes]
    | succ k => rw [loadBytes, List.getElem?_cons_succ, ih (by omega), add_ofNat_succ]

theorem load16_store16 (v : BitVec 16) : (m.store16 a v).load16 a = v := by
  have h1 : (a + 1 - a).toNat = 1 := by bv_omega
  simp only [load16, store16, bytes_storeBytes (show [_, _].length < 2 ^ 32 by simp), h1,
    BitVec.sub_self, BitVec.toNat_zero, List.getElem?_cons_zero, List.getElem?_cons_succ,
    Option.getD_some]
  apply BitVec.eq_of_getLsbD_eq
  intro i hi
  rw [BitVec.getLsbD_append]
  split
  · simp [*]
  · have hi8 : 8 + (i - 8) = i := by omega
    simp [hi8]
    omega

/-- A 16-bit store leaves alone what lies two or more bytes away. -/
theorem load16_store16_of_ne (v : BitVec 16) (h₁ : 2 ≤ (x - a).toNat)
    (h₂ : (x - a).toNat < 2 ^ 32 - 1) : (m.store16 a v).load16 x = m.load16 x := by
  have h3 : (x + 1 - a).toNat = (x - a).toNat + 1 := by bv_omega
  simp only [load16, store16, bytes_storeBytes (show [_, _].length < 2 ^ 32 by simp), h3]
  have hlen : ([v.setWidth 8, (v >>> 8).setWidth 8] : List Byte).length = 2 := rfl
  rw [List.getElem?_eq_none (by omega), List.getElem?_eq_none (by omega)]
  rfl

end Memory

end Prog
