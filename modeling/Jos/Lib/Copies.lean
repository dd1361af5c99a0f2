import Jos.Prog.CString

/-! `lib/string.c`: strings copied from one place of memory to another. -/
namespace Jos

open Prog Prog.Memory

/-- `for (n = 0; *s != '\0'; s++) n++`. -/
def strlenBody (m : Memory) : BitVec 32 × Addr → Res (BitVec 32 × Addr ⊕ BitVec 32)
  | (n, s) => if m.bytes s ≠ 0 then pure (.inl (n + 1, s + 1)) else pure (.inr n)

def strlen (fuel : ℕ) (m : Memory) (s : Addr) : Res (BitVec 32) :=
  loop (strlenBody m) fuel (0, s)

/-- `while ((*dst++ = *src++) != '\0')`. -/
def strcpyBody : Memory × Addr × Addr → Res (Memory × Addr × Addr ⊕ Memory)
  | (m, dst, src) =>
    let b := m.bytes src
    if b ≠ 0 then pure (.inl (m.store dst b, dst + 1, src + 1)) else pure (.inr (m.store dst b))

def strcpy (fuel : ℕ) (m : Memory) (dst src : Addr) : Res (Memory × Addr) := do
  let ret := dst
  let m ← loop strcpyBody fuel (m, dst, src)
  pure (m, ret)

def strcat (fuel : ℕ) (m : Memory) (dst src : Addr) : Res (Memory × Addr) := do
  let len ← strlen fuel m dst
  let (m, _) ← strcpy fuel m (dst + len) src
  pure (m, dst)

/-- `for (i = 0; i < size; i++)`; `*src` is read a second time after the store. -/
def strncpyBody (size : BitVec 32) : Memory × BitVec 32 × Addr × Addr →
    Res (Memory × BitVec 32 × Addr × Addr ⊕ Memory)
  | (m, i, dst, src) =>
    if i < size then
      let m := m.store dst (m.bytes src)
      let dst := dst + 1
      let src := if m.bytes src ≠ 0 then src + 1 else src
      pure (.inl (m, i + 1, dst, src))
    else pure (.inr m)

def strncpy (fuel : ℕ) (m : Memory) (dst src : Addr) (size : BitVec 32) : Res (Memory × Addr) := do
  let ret := dst
  let m ← loop (strncpyBody size) fuel (m, 0, dst, src)
  pure (m, ret)

/-- `while (--size > 0 && *src != '\0') *dst++ = *src++`. -/
def strlcpyBody : Memory × BitVec 32 × Addr × Addr →
    Res (Memory × BitVec 32 × Addr × Addr ⊕ Memory × Addr)
  | (m, size, dst, src) =>
    let size := size - 1
    if 0 < size ∧ m.bytes src ≠ 0 then
      pure (.inl (m.store dst (m.bytes src), size, dst + 1, src + 1))
    else pure (.inr (m, dst))

def strlcpy (fuel : ℕ) (m : Memory) (dst src : Addr) (size : BitVec 32) :
    Res (Memory × BitVec 32) := do
  let dst_in := dst
  if 0 < size then
    let (m, dst) ← loop strlcpyBody fuel (m, size, dst, src)
    pure (m.store dst 0, dst - dst_in)
  else pure (m, dst - dst_in)

/-- `for (; s < ends; s++)`, where pointers compare unsigned. -/
def memfindBody (m : Memory) (c : BitVec 32) (ends : Addr) (s : Addr) : Res (Addr ⊕ Addr) :=
  if s < ends then
    if m.bytes s = c.setWidth 8 then pure (.inr s) else pure (.inl (s + 1))
  else pure (.inr s)

def memfind (fuel : ℕ) (m : Memory) (s : Addr) (c n : BitVec 32) : Res Addr :=
  let ends := s + n
  loop (memfindBody m c ends) fuel s

variable {m : Memory} {dst src a : Addr} {s t : List Byte} {size : BitVec 32}

/-! ### `strlen` -/

theorem strlen_run (h : StringAt m a s) (n : BitVec 32) :
    Settles (fun k => loop (strlenBody m) k (n, a)) (.ok (n + BitVec.ofNat 32 s.length)) := by
  induction s generalizing a n with
  | nil =>
    have hnul : m.bytes a = 0 := h
    refine .loop_exit ?_
    rw [strlenBody, if_neg (not_not_intro hnul)]
    simp
  | cons b s ih =>
    obtain ⟨hb, ha, hs⟩ := h
    rw [List.length_cons, add_ofNat_succ]
    exact .loop_next (if_pos (ha ▸ hb)) (ih hs (n + 1))

theorem strlen_settles (h : StringAt m a s) :
    Settles (fun k => strlen k m a) (.ok (BitVec.ofNat 32 s.length)) := by
  simpa [strlen] using strlen_run h 0

theorem strlen_forever (h : ∀ s, ¬ StringAt m a s) (n : ℕ) : strlen n m a = .error .fuel := by
  refine loop_forever (I := fun p => ∃ k, p.2 = a + BitVec.ofNat 32 k) ?_ ⟨0, by simp⟩ n
  rintro ⟨n, x⟩ ⟨k, rfl⟩
  refine ⟨_, if_pos (bytes_ne_of_forall_not h k), k + 1, ?_⟩
  rw [BitVec.ofNat_add, ← BitVec.add_assoc]
  rfl

/-! ### `strcpy` -/

theorem strcpy_run (hs : StringAt m src s) (h : ReadsAhead dst src s.length) :
    Settles (fun n => loop strcpyBody n (m, dst, src)) (.ok (m.storeBytes dst (cstr s))) := by
  induction s generalizing m dst src with
  | nil =>
    have hnul : m.bytes src = 0 := hs
    refine .loop_exit ?_
    simp only [strcpyBody, hnul, ne_eq, not_true_eq_false, if_false]
    rfl
  | cons b s ih =>
    obtain ⟨hb, hsrc, -⟩ := id hs
    refine .loop_next ?_ (ih (hs.copied h b) (h.next (Nat.le_succ _)))
    simp only [strcpyBody, hsrc, ne_eq, hb, not_false_eq_true, if_true]
    rfl

/-- There is nothing but characters from `src` to `dst`, or in all of memory. -/
def NoEnd : Memory × Addr × Addr → Prop
  | (m, dst, src) => (∀ x, m.bytes x ≠ 0) ∨
    dst ≠ src ∧ ∀ k < (dst - src).toNat, m.bytes (src + BitVec.ofNat 32 k) ≠ 0

/-- Where it runs into its own copy, the loop never finds a NUL. -/
theorem noEnd_step (h : NoEnd (m, dst, src)) :
    ∃ u, strcpyBody (m, dst, src) = .ok (.inl u) ∧ NoEnd u := by
  have hb : m.bytes src ≠ 0 := by
    rcases h with hall | ⟨hne, hwin⟩
    · exact hall src
    · simpa using hwin 0 (by bv_omega)
  refine ⟨(m.store dst (m.bytes src), dst + 1, src + 1), if_pos hb, ?_⟩
  have hkeep : ∀ x, m.bytes x ≠ 0 → (m.store dst (m.bytes src)).bytes x ≠ 0 := by
    intro x hx
    by_cases hd : x = dst
    · rw [hd, bytes_store_self]
      exact hb
    · rw [bytes_store_of_ne hd]
      exact hx
  rcases h with hall | ⟨hne, hwin⟩
  · exact .inl fun x => hkeep x (hall x)
  · refine .inr ⟨by bv_omega, fun k hk => ?_⟩
    have hsub : dst + 1 - (src + 1) = dst - src := by bv_omega
    rw [hsub] at hk
    rw [← add_ofNat_succ]
    by_cases hlast : k + 1 = (dst - src).toNat
    · -- the last of them is the character just stored
      have hd : src + BitVec.ofNat 32 (k + 1) = dst := by bv_omega
      rw [hd, bytes_store_self]
      exact hb
    · exact hkeep _ (hwin (k + 1) (by omega))

theorem strcpy_forever (h : NoEnd (m, dst, src)) (n : ℕ) : strcpy n m dst src = .error .fuel := by
  have hloop : loop strcpyBody n (m, dst, src) = .error .fuel :=
    loop_forever (fun ⟨_, _, _⟩ hp => noEnd_step hp) h n
  rw [strcpy, hloop]
  rfl

/-- Without a string that is read ahead of the copy there is no end. -/
theorem noEnd_of_forall_not (h : ∀ s, StringAt m src s → ¬ ReadsAhead dst src s.length) :
    NoEnd (m, dst, src) := by
  by_cases hex : ∃ s, StringAt m src s
  · obtain ⟨s, hs⟩ := hex
    have hahead : ¬ (dst = src ∨ s.length < (dst - src).toNat) := h s hs
    obtain ⟨hne, hlt⟩ := not_or.mp hahead
    exact .inr ⟨hne, fun k hk => hs.bytes_ne (by omega)⟩
  · left
    intro x
    have hx : x = src + BitVec.ofNat 32 (x - src).toNat := by
      rw [BitVec.ofNat_toNat, BitVec.setWidth_eq]
      bv_omega
    rw [hx]
    exact bytes_ne_of_forall_not (not_exists.mp hex) _

theorem strcpy_settles (hs : StringAt m src s) (h : ReadsAhead dst src s.length) :
    Settles (fun n => strcpy n m dst src) (.ok (m.storeBytes dst (cstr s), dst)) :=
  (strcpy_run hs h).bind (.const _)

/-- `strcpy` ends exactly when a string starts at `src` and the copy does not start inside it or
at its NUL, other than at its first character; then it has copied the string. -/
theorem strcpy_settles_iff {r : Memory × Addr} : Settles (fun n => strcpy n m dst src) (.ok r) ↔
    ∃ s, StringAt m src s ∧ ReadsAhead dst src s.length ∧
      r = (m.storeBytes dst (cstr s), dst) := by
  constructor
  · intro h
    by_cases hex : ∃ s, StringAt m src s ∧ ReadsAhead dst src s.length
    · obtain ⟨s, hs, hahead⟩ := hex
      exact ⟨s, hs, hahead, Except.ok.inj (h.unique (strcpy_settles hs hahead))⟩
    · have hend := strcpy_forever (noEnd_of_forall_not fun s hs hahead => hex ⟨s, hs, hahead⟩)
      cases h.unique ⟨0, fun n _ => hend n⟩
  · rintro ⟨s, hs, hahead, rfl⟩
    exact strcpy_settles hs hahead

/-! ### `strcat` -/

/-- The end of the destination is inside the source only where both strings end together. -/
theorem readsAhead_end (hs : StringAt m dst s) (ht : StringAt m src t) :
    ReadsAhead (dst + BitVec.ofNat 32 s.length) src t.length ↔
      t = [] ∨ dst + BitVec.ofNat 32 s.length ≠ src + BitVec.ofNat 32 t.length := by
  have hend := hs.bytes_end
  have hlen := ht.length_lt
  generalize hd : dst + BitVec.ofNat 32 s.length = d at hend ⊢
  constructor
  · rintro (rfl | hfar)
    · cases t with
      | nil => exact .inl rfl
      | cons b t => exact absurd (ht.2.1.symm.trans hend) ht.1
    · refine .inr fun h => ?_
      rw [h] at hfar
      bv_omega
  · intro h
    by_contra hnot
    obtain ⟨hne, hle⟩ := not_or.mp hnot
    have hin : src + BitVec.ofNat 32 (d - src).toNat = d := by
      rw [BitVec.ofNat_toNat, BitVec.setWidth_eq]
      bv_omega
    by_cases hlast : (d - src).toNat = t.length
    · rcases h with rfl | h
      · rw [List.length_nil] at hlast
        exact hne (by bv_omega)
      · exact h (hlast ▸ hin.symm)
    · exact ht.bytes_ne (k := (d - src).toNat) (by omega) (by rw [hin, hend])

theorem stringAt_strcat (hs : StringAt m dst s) (ht : StringAt m src t)
    (hlen : s.length + t.length + 1 < 2 ^ 32) :
    StringAt (m.storeBytes (dst + BitVec.ofNat 32 s.length) (cstr t)) dst (s ++ t) := by
  refine hs.append (stringAt_storeBytes ht.noNul ht.length_lt m _) fun k hk => ?_
  have hsize : (cstr t).length = t.length + 1 := List.length_append
  exact bytes_storeBytes_of_le (by omega) (by bv_omega)

theorem strcat_settles (hs : StringAt m dst s) (ht : StringAt m src t)
    (h : ReadsAhead (dst + BitVec.ofNat 32 s.length) src t.length) :
    Settles (fun n => strcat n m dst src)
      (.ok (m.storeBytes (dst + BitVec.ofNat 32 s.length) (cstr t), dst)) := by
  have hcpy := strcpy_settles ht h
  exact (strlen_settles hs).bind (hcpy.bind (.const _))

/-- Without an end of either loop there is none of `strcat`. -/
theorem strcat_forever (h : ∀ s, StringAt m dst s → ∀ t, StringAt m src t →
    ¬ ReadsAhead (dst + BitVec.ofNat 32 s.length) src t.length) :
    Settles (fun n => strcat n m dst src) (.error .fuel) := by
  by_cases hex : ∃ s, StringAt m dst s
  · obtain ⟨s, hs⟩ := hex
    have hcpy := strcpy_forever (noEnd_of_forall_not (h s hs))
    refine (strlen_settles hs).bind ⟨0, fun n _ => ?_⟩
    simp only [hcpy n, error_bind]
  · have hlen := strlen_forever (not_exists.mp hex)
    refine ⟨0, fun n _ => ?_⟩
    simp only [strcat, hlen n, error_bind]

/-- `strcat` ends exactly when both arguments are strings and they do not end at the same NUL,
unless the second is empty; then the second is stored where the first ended. -/
theorem strcat_settles_iff {r : Memory × Addr} : Settles (fun n => strcat n m dst src) (.ok r) ↔
    ∃ s t, StringAt m dst s ∧ StringAt m src t ∧
      (t = [] ∨ dst + BitVec.ofNat 32 s.length ≠ src + BitVec.ofNat 32 t.length) ∧
      r = (m.storeBytes (dst + BitVec.ofNat 32 s.length) (cstr t), dst) ∧
      (s.length + t.length + 1 < 2 ^ 32 → StringAt r.1 dst (s ++ t)) := by
  constructor
  · intro h
    by_cases hex : ∃ s t, StringAt m dst s ∧ StringAt m src t ∧
        ReadsAhead (dst + BitVec.ofNat 32 s.length) src t.length
    · obtain ⟨s, t, hs, ht, hahead⟩ := hex
      obtain rfl := Except.ok.inj (h.unique (strcat_settles hs ht hahead))
      have hends := (readsAhead_end hs ht).mp hahead
      exact ⟨s, t, hs, ht, hends, rfl, stringAt_strcat hs ht⟩
    · have hend : Settles (fun n => strcat n m dst src) (.error .fuel) :=
        strcat_forever fun s hs t ht hahead => hex ⟨s, t, hs, ht, hahead⟩
      cases h.unique hend
  · rintro ⟨s, t, hs, ht, hends, rfl, -⟩
    exact strcat_settles hs ht ((readsAhead_end hs ht).mpr hends)

/-! ### `strlcpy` -/

theorem strlcpy_run (m : Memory) (dst src : Addr) {k : ℕ} (hk : size.toNat = k + 1) : ∃ bs,
    Settles (fun n => loop strlcpyBody n (m, size, dst, src))
      (.ok (m.storeBytes dst bs, dst + BitVec.ofNat 32 bs.length)) ∧
    0 ∉ bs ∧ bs.length ≤ k ∧ ∀ s : List Byte, s.length < 2 ^ 32 → StartsAt m k src s →
      ReadsAhead dst src (min s.length (k - 1)) → bs = s.take k := by
  induction k generalizing m size dst src with
  | zero =>
    have hsize : ¬ 0 < size - 1 := by bv_omega
    refine ⟨[], .loop_exit ?_, List.not_mem_nil, Nat.le_refl _, fun s _ _ _ => rfl⟩
    simp only [strlcpyBody, hsize, false_and, if_false]
    simp
  | succ k ih =>
    have hsize : 0 < size - 1 := by bv_omega
    by_cases hb : m.bytes src = 0
    · refine ⟨[], .loop_exit ?_, List.not_mem_nil, Nat.zero_le _, fun s _ hs _ => ?_⟩
      · simp only [strlcpyBody, hb, ne_eq, not_true_eq_false, and_false, if_false]
        simp
      · cases s with
        | nil => exact List.take_nil.symm
        | cons b s => exact absurd (hs.2.1.symm.trans hb) hs.1
    · have hk' : (size - 1).toNat = k + 1 := by bv_omega
      obtain ⟨bs, hrun, hnul, hlen, htake⟩ := ih (m.store dst (m.bytes src)) (dst + 1) (src + 1) hk'
      refine ⟨m.bytes src :: bs, ?_, ?_, Nat.succ_le_succ hlen,
        fun s hs32 hs hahead => ?_⟩
      · rw [List.length_cons, add_ofNat_succ]
        exact .loop_next (if_pos ⟨hsize, hb⟩) hrun
      · intro hmem
        rcases List.mem_cons.mp hmem with h0 | hmem
        · exact hb h0.symm
        · exact hnul hmem
      · cases s with
        | nil => exact absurd hs hb
        | cons b s =>
          have hnext := hahead.next (j := min s.length (k - 1)) (by rw [List.length_cons]; omega)
          rw [List.take_succ_cons, ← hs.2.1,
            htake s (Nat.lt_of_succ_lt hs32) (hs.copied hs32 hahead _) hnext]

/-- `strlcpy` always ends. Where the destination has room at all, it then holds a string of fewer
than `size` characters, of which the length is returned: as much of the source as fits, if what is
read of it is read ahead of the copy. -/
theorem strlcpy_settles (m : Memory) (dst src : Addr) (size : BitVec 32) : ∃ bs m',
    Settles (fun n => strlcpy n m dst src size) (.ok (m', BitVec.ofNat 32 bs.length)) ∧
    (size = 0 → bs = [] ∧ m' = m) ∧
    (0 < size → bs.length < size.toNat ∧ m' = m.storeBytes dst (cstr bs) ∧ StringAt m' dst bs) ∧
    ∀ s, StringAt m src s → ReadsAhead dst src (min s.length (size.toNat - 2)) →
      bs = s.take (size.toNat - 1) := by
  by_cases hsize : 0 < size
  · have hk : size.toNat = size.toNat - 1 + 1 := by bv_omega
    obtain ⟨bs, hrun, hnul, hlen, htake⟩ := strlcpy_run m dst src hk
    have hlt := size.isLt
    have hroom : bs.length < size.toNat := by bv_omega
    have hcopy := stringAt_storeBytes hnul (by omega) m dst
    refine ⟨bs, m.storeBytes dst (cstr bs), ?_, fun h0 => ?_, fun _ => ⟨hroom, rfl, hcopy⟩,
      fun s hs => htake s hs.length_lt (hs.startsAt _)⟩
    · have hstore : (m.storeBytes dst bs).store (dst + BitVec.ofNat 32 bs.length) 0 =
          m.storeBytes dst (cstr bs) := (storeBytes_append m dst bs [0]).symm
      have hret : dst + BitVec.ofNat 32 bs.length - dst = BitVec.ofNat 32 bs.length := by
        rw [BitVec.add_comm, BitVec.add_sub_cancel]
      simp only [strlcpy, if_pos hsize]
      refine hrun.bind ?_
      simp only [hstore, hret]
      exact .const _
    · exact absurd h0 (by bv_omega)
  · have h0 : size = 0 := by bv_omega
    refine ⟨[], m, ?_, fun _ => ⟨rfl, rfl⟩, fun h => absurd h hsize, fun s _ _ => ?_⟩
    · simp only [strlcpy, if_neg hsize, BitVec.sub_self]
      exact .const _
    · rw [h0]
      rfl

/-! ### `strncpy` -/

/-- The second read of `*src`, after the store of what the first gave. -/
theorem bytes_store_same (m : Memory) (dst src : Addr) :
    (m.store dst (m.bytes src)).bytes src = m.bytes src := by
  by_cases h : src = dst
  · rw [h, bytes_store_self]
  · rw [bytes_store_of_ne h]

/-- From the NUL on, `dst` is null-padded. -/
theorem strncpy_pads {i : BitVec 32} {k : ℕ} (hk : i.toNat + k = size.toNat)
    (hb : m.bytes src = 0) : Settles (fun n => loop (strncpyBody size) n (m, i, dst, src))
      (.ok (m.storeBytes dst (List.replicate k 0))) := by
  induction k generalizing m i dst with
  | zero =>
    have hi : ¬ i < size := by bv_omega
    exact .loop_exit (if_neg hi)
  | succ k ih =>
    have hi : i < size := by bv_omega
    have hb' : (m.store dst 0).bytes src = 0 := by
      have h := bytes_store_same m dst src
      rwa [hb] at h
    rw [List.replicate_succ, storeBytes_cons]
    have hk' : (i + 1).toNat + k = size.toNat := by bv_omega
    refine .loop_next ?_ (ih hk' hb')
    simp only [strncpyBody, if_pos hi, hb, hb', ne_eq, not_true_eq_false, if_false]
    rfl

theorem strncpy_run {i : BitVec 32} {k : ℕ} (hk : i.toNat + k = size.toNat)
    (hlen : s.length < 2 ^ 32) (hs : StartsAt m k src s)
    (h : ReadsAhead dst src (min s.length (k - 1))) :
    Settles (fun n => loop (strncpyBody size) n (m, i, dst, src))
      (.ok (m.storeBytes dst ((s ++ List.replicate k 0).take k))) := by
  induction s generalizing m i dst src k with
  | nil =>
    rw [List.nil_append, List.take_of_length_le (Nat.le_of_eq List.length_replicate)]
    cases k with
    | zero =>
      have hi : ¬ i < size := by bv_omega
      exact .loop_exit (if_neg hi)
    | succ k => exact strncpy_pads hk hs
  | cons b s ih =>
    cases k with
    | zero =>
      have hi : ¬ i < size := by bv_omega
      exact .loop_exit (if_neg hi)
    | succ k =>
      have hi : i < size := by bv_omega
      have hk' : (i + 1).toNat + k = size.toNat := by bv_omega
      have hahead := h.next (j := min s.length (k - 1)) (by rw [List.length_cons]; omega)
      have hnext := ih hk' (Nat.lt_of_succ_lt hlen) (hs.copied hlen h b) hahead
      have htake : ((b :: s) ++ List.replicate (k + 1) 0).take (k + 1) =
          b :: (s ++ List.replicate k 0).take k := by
        rw [List.cons_append, List.take_succ_cons, List.replicate_succ', ← List.append_assoc,
          List.take_append_of_le_length (by simp)]
      rw [htake, storeBytes_cons]
      refine .loop_next ?_ hnext
      have hread := bytes_store_same m dst src
      obtain ⟨hb, hsrc, -⟩ := hs
      rw [hsrc] at hread
      simp only [strncpyBody, if_pos hi, hsrc, hread, ne_eq, hb, not_false_eq_true, if_true]
      rfl

theorem stringAt_strncpy (hs : StringAt m src s) (h : s.length < size.toNat) :
    StringAt (m.storeBytes dst ((s ++ List.replicate size.toNat 0).take size.toNat)) dst s := by
  obtain ⟨k, hk⟩ : ∃ k, size.toNat = s.length + (1 + k) := ⟨size.toNat - s.length - 1, by omega⟩
  have hlt := size.isLt
  have hbytes : (s ++ List.replicate size.toNat 0).take size.toNat =
      cstr s ++ List.replicate k (0 : Byte) := by
    have hmin : min (s.length + (1 + k) - s.length) (s.length + (1 + k)) = 1 + k := by omega
    rw [hk, List.take_append, List.take_of_length_le (Nat.le_add_right _ _), List.take_replicate,
      hmin, ← List.replicate_append_replicate, cstr, List.append_assoc]
    rfl
  rw [hbytes, storeBytes_append]
  refine (stringAt_storeBytes hs.noNul hs.length_lt m dst).congr fun j hj => ?_
  have hsize : (cstr s).length = s.length + 1 := List.length_append
  have hpad : (List.replicate k (0 : Byte)).length = k := List.length_replicate
  exact bytes_storeBytes_of_le (by omega) (by rw [hpad, hsize]; bv_omega)

/-- `strncpy` stores `size` bytes, however long the source is. They hold its string where it is
shorter than `size`, and no NUL otherwise. -/
theorem strncpy_settles (hs : StringAt m src s)
    (h : ReadsAhead dst src (min s.length (size.toNat - 1))) : ∃ bs m',
    Settles (fun n => strncpy n m dst src size) (.ok (m', dst)) ∧
    m' = m.storeBytes dst bs ∧ bs.length = size.toNat ∧
    (s.length < size.toNat → StringAt m' dst s) ∧
    (size.toNat ≤ s.length → bs = s.take size.toNat ∧ 0 ∉ bs) := by
  have hk : (0 : BitVec 32).toNat + size.toNat = size.toNat := Nat.zero_add _
  have hrun := strncpy_run hk hs.length_lt (hs.startsAt _) h
  refine ⟨_, _, hrun.bind (.const _), rfl, by simp, stringAt_strncpy hs, fun hle => ?_⟩
  rw [List.take_append_of_le_length hle]
  exact ⟨rfl, fun hmem => hs.noNul (List.mem_of_mem_take hmem)⟩

/-- `strncpy` of a string that is shorter than its room, and of the start of one, over its end. -/
theorem strncpy_settles_jos :
    (∃ m', Settles (fun n => strncpy n ((⟨fun _ => 0, []⟩ : Memory).storeBytes 256
      (cstr (lit "jos"))) 512 256 8) (.ok (m', 512)) ∧ StringAt m' 512 (lit "jos")) ∧
    Settles (fun n => strncpy n ((⟨fun _ => 0, []⟩ : Memory).storeBytes 256
      (cstr (lit "jos"))) 258 256 2)
      (.ok (((⟨fun _ => 0, []⟩ : Memory).storeBytes 256 (cstr (lit "jos"))).storeBytes 258
        (lit "jo"), 258)) := by
  have hnul : 0 ∉ lit "jos" := by decide
  have hs := stringAt_storeBytes hnul (by decide) ⟨fun _ => 0, []⟩ 256
  constructor
  · have hahead : ReadsAhead 512 256 (min (lit "jos").length ((8 : BitVec 32).toNat - 1)) := by
      decide
    obtain ⟨bs, m', hrun, -, -, hshort, -⟩ := strncpy_settles hs hahead
    exact ⟨m', hrun, hshort (by decide)⟩
  · have hahead : ReadsAhead 258 256 (min (lit "jos").length ((2 : BitVec 32).toNat - 1)) := by
      decide
    obtain ⟨bs, m', hrun, hm, -, -, hlong⟩ := strncpy_settles hs hahead
    obtain ⟨hbs, -⟩ := hlong (by decide)
    have hjo : (lit "jos").take (2 : BitVec 32).toNat = lit "jo" := by decide
    rwa [hm, hbs, hjo] at hrun

/-! ### `memfind` -/

theorem memfind_run (c : BitVec 32) {ends : Addr} {k : ℕ} (hk : a.toNat + k = ends.toNat) :
    Settles (fun n => loop (memfindBody m c ends) n a)
      (.ok (a + BitVec.ofNat 32 ((m.loadBytes a k).takeWhile (· ≠ c.setWidth 8)).length)) := by
  induction k generalizing a with
  | zero =>
    have ha : ¬ a < ends := by bv_omega
    refine .loop_exit ((if_neg ha).trans ?_)
    simp [loadBytes]
  | succ k ih =>
    have ha : a < ends := by bv_omega
    rw [loadBytes]
    by_cases hc : m.bytes a = c.setWidth 8
    · rw [List.takeWhile_cons_of_neg (by simpa using hc)]
      refine .loop_exit ?_
      rw [memfindBody, if_pos ha, if_pos hc]
      simp
    · have hk' : (a + 1).toNat + k = ends.toNat := by bv_omega
      rw [List.takeWhile_cons_of_pos (by simpa using hc), List.length_cons, add_ofNat_succ]
      refine .loop_next ?_ (ih hk')
      rw [memfindBody, if_pos ha, if_neg hc]
      rfl

/-- The first byte that is `c`, or the end of the range; but a range that reaches the top of
memory is not searched at all. -/
theorem memfind_settles (m : Memory) (a : Addr) (c n : BitVec 32) :
    Settles (fun k => memfind k m a c n) (.ok (if a.toNat + n.toNat < 2 ^ 32 then
      a + BitVec.ofNat 32 ((m.loadBytes a n.toNat).takeWhile (· ≠ c.setWidth 8)).length
      else a)) := by
  by_cases h : a.toNat + n.toNat < 2 ^ 32
  · have hends : a.toNat + n.toNat = (a + n).toNat := by bv_omega
    rw [if_pos h]
    exact memfind_run c hends
  · have ha : ¬ a < a + n := by bv_omega
    rw [if_neg h]
    exact .loop_exit (if_neg ha)

end Jos
