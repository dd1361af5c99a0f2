import Jos.Lib.Scanning

/-! `lib/printfmt.c`: formatting into a buffer of limited size. -/
namespace Jos

open Prog

/-- `struct sprintbuf`. -/
structure SprintBuf where
  buf : Addr
  ebuf : Addr
  cnt : BitVec 32
deriving DecidableEq, Repr

def sprintputch (ch : BitVec 32) : SprintBuf × Memory → SprintBuf × Memory
  | (b, m) =>
    let b := { b with cnt := b.cnt + 1 }
    if b.buf < b.ebuf then ({ b with buf := b.buf + 1 }, m.store b.buf (ch.setWidth 8))
    else (b, m)

def eInval : BitVec 32 := 3

/-- The count that is returned, and the memory. -/
def vsnprintf (fuel : ℕ) (buf : Addr) (n : BitVec 32) (fmt : List Byte) (ap : VaList)
    (m : Memory) : Res (BitVec 32 × Memory) :=
  let b : SprintBuf := ⟨buf, buf + n - 1, 0⟩
  if buf = 0 ∨ n.slt 1 then pure (-eInval, m)
  else do
    let (b, m) ← vprintfmt sprintputch fuel fmt ap (b, m)
    -- null terminate the buffer
    pure (b.cnt, m.store b.buf 0)

variable {m m' : Memory} {buf p e : Addr} {cnt n : BitVec 32} {out : List (BitVec 32)}

/-- Characters as they are stored. -/
def lowBytes (out : List (BitVec 32)) : List Byte := out.map (BitVec.setWidth 8)

/-- From `m` to `m'` a buffer of `n` bytes got as much of `out` as fits, a NUL, and nothing else. -/
structure Truncates (out : List (BitVec 32)) (buf : Addr) (n : ℕ) (m m' : Memory) : Prop where
  inside : ∃ new, m'.stores = m.stores ++ new ∧ ∀ a ∈ new, (a - buf).toNat < n
  text : ∀ j c, j < min out.length (n - 1) → out[j]? = some c →
    m'.bytes (buf + BitVec.ofNat 32 j) = c.setWidth 8
  nul : m'.bytes (buf + BitVec.ofNat 32 (min out.length (n - 1))) = 0
  rest : ∀ x : Addr, min out.length (n - 1) < (x - buf).toNat → m'.bytes x = m.bytes x

/-- The cursor stops at the end pointer, the count goes on. -/
theorem emit_sprintputch (hpe : p ≤ e) :
    emit sprintputch out (⟨p, e, cnt⟩, m) =
      (⟨p + BitVec.ofNat 32 (min out.length (e - p).toNat), e, cnt + BitVec.ofNat 32 out.length⟩,
        m.storeBytes p (lowBytes (out.take (e - p).toNat))) := by
  induction out generalizing p cnt m with
  | nil => simp [lowBytes]
  | cons c out ih =>
    have hcnt : cnt + 1 + BitVec.ofNat 32 out.length = cnt + BitVec.ofNat 32 (out.length + 1) := by
      rw [Memory.add_ofNat_succ]
    change emit sprintputch out (sprintputch c (⟨p, e, cnt⟩, m)) = _
    by_cases hlt : p < e
    · have hroom : (e - p).toNat = (e - (p + 1)).toNat + 1 := by bv_omega
      have hnext : p + 1 ≤ e := by bv_omega
      have hput : sprintputch c (⟨p, e, cnt⟩, m) =
          (⟨p + 1, e, cnt + 1⟩, m.store p (c.setWidth 8)) := if_pos hlt
      have hmin : min (c :: out).length ((e - (p + 1)).toNat + 1) =
          min out.length (e - (p + 1)).toNat + 1 := by
        rw [List.length_cons]
        omega
      rw [hput, ih hnext, hcnt, hroom, hmin, Memory.add_ofNat_succ (a := p)]
      rfl
    · have hroom : (e - p).toNat = 0 := by bv_omega
      have hput : sprintputch c (⟨p, e, cnt⟩, m) = (⟨p, e, cnt + 1⟩, m) := if_neg hlt
      rw [hput, ih hpe, hcnt, hroom]
      simp [lowBytes]

/-- Storing the characters that fit, and a NUL after them. -/
theorem truncates_storeBytes {n : ℕ} (hn : 1 ≤ n) (hbuf : buf.toNat + n ≤ 2 ^ 32) :
    Truncates out buf n m ((m.storeBytes buf (lowBytes (out.take (n - 1)))).store
      (buf + BitVec.ofNat 32 (min out.length (n - 1))) 0) := by
  have hlen : (lowBytes (out.take (n - 1))).length = min out.length (n - 1) := by
    rw [lowBytes, List.length_map, List.length_take, Nat.min_comm]
  have hlt : (lowBytes (out.take (n - 1))).length < 2 ^ 32 := by omega
  have hbytes := fun x => Memory.bytes_storeBytes (m := m) (a := buf) (x := x) hlt
  generalize hk : min out.length (n - 1) = k at *
  have hkn : k < n := by omega
  refine ⟨?_, ?_, ?_, ?_⟩
  · obtain ⟨new, hnew, hin⟩ := Memory.stores_storeBytes m buf
      (lowBytes (out.take (n - 1)))
    refine ⟨new ++ [buf + BitVec.ofNat 32 k], by simp [Memory.store, hnew], ?_⟩
    intro a ha
    rcases List.mem_append.mp ha with ha | ha
    · obtain ⟨j, hj, rfl⟩ := hin a ha
      bv_omega
    · obtain rfl := List.mem_singleton.mp ha
      bv_omega
  · intro j c hj hc
    rw [hk] at hj
    have hne : buf + BitVec.ofNat 32 j ≠ buf + BitVec.ofNat 32 k := by bv_omega
    have hdist : (buf + BitVec.ofNat 32 j - buf).toNat = j := by bv_omega
    have hget : (lowBytes (out.take (n - 1)))[j]? = some (c.setWidth 8) := by
      rw [lowBytes, List.getElem?_map, List.getElem?_take_of_lt (by omega), hc]
      rfl
    simp only [Memory.store, Function.update_of_ne hne, hbytes, hdist, hget, Option.getD_some]
  · rw [hk]
    simp only [Memory.store, Function.update_self]
  · intro x hx
    rw [hk] at hx
    have hne : x ≠ buf + BitVec.ofNat 32 k := by bv_omega
    have hget : (lowBytes (out.take (n - 1)))[(x - buf).toNat]? = none :=
      List.getElem?_eq_none (by omega)
    simp only [Memory.store, Function.update_of_ne hne, hbytes, hget, Option.getD_none]

variable {fmt : List Byte} {ap : VaList}

/-- What `vsnprintf` does when the format prints `out`. -/
theorem vsnprintf_settles (h : Settles (fun fuel => vprintfmt collect fuel fmt ap []) (.ok out))
    (hbuf : buf ≠ 0) (hn : 0 < n.toInt) (hroom : buf.toNat + n.toNat ≤ 2 ^ 32) :
    ∃ m', Settles (fun fuel => vsnprintf fuel buf n fmt ap m)
      (.ok (BitVec.ofNat 32 out.length, m')) ∧ Truncates out buf n.toNat m m' := by
  have hsize : n.toNat < 2 ^ 31 ∧ 0 < n.toNat := by
    rw [BitVec.toInt_eq_toNat_cond] at hn
    omega
  have hcond : ¬ (buf = 0 ∨ n.slt 1) := by
    rw [BitVec.slt_iff_toInt_lt, show (1 : BitVec 32).toInt = 1 from rfl]
    simp only [hbuf, false_or]
    omega
  have hdist : (buf + n - 1 - buf).toNat = n.toNat - 1 := by bv_omega
  have hrun := (h.view fun out => emit sprintputch out (⟨buf, buf + n - 1, 0⟩, m)).congr
    fun fuel => vprintfmt_eq_emit sprintputch fuel fmt ap _
  have hcnt : (0 : BitVec 32) + BitVec.ofNat 32 out.length = BitVec.ofNat 32 out.length :=
    BitVec.zero_add _
  rw [emit_sprintputch (by bv_omega), hdist, hcnt] at hrun
  refine ⟨_, ?_, truncates_storeBytes hsize.2 hroom⟩
  simp only [vsnprintf, if_neg hcond]
  exact hrun.bind (Settles.const _)

/-- Nothing is written where there is no room. -/
theorem vsnprintf_refuses (h : buf = 0 ∨ n.toInt < 1) (fuel : ℕ) :
    vsnprintf fuel buf n fmt ap m = .ok (-eInval, m) := by
  have hcond : buf = 0 ∨ n.slt 1 := by
    rw [BitVec.slt_iff_toInt_lt]
    exact h
  simp only [vsnprintf, if_pos hcond]
  rfl

end Jos
