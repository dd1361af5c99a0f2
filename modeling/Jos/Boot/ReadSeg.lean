import Jos.Boot.Main

/-! What `readseg` reads, which sectors it asks for, and when it ends. -/
namespace Jos

open Prog

variable {d : Disk} {m : Memory} {pa count offset : BitVec 32} {n : ℕ}

/-- `readseg` calls `readsect(dst, sector)`. -/
def Asks (d : Disk) (m : Memory) (pa count offset : BitVec 32) (dst : Addr) (sector : BitVec 32) :
    Prop :=
  ∃ m', Reaches (readsegBody d (pa + count))
    (pa &&& ~~~(BitVec.ofNat 32 sectSize - 1), offset / BitVec.ofNat 32 sectSize + 1, m)
    (dst, sector, m') ∧ dst < pa + count

/-- What holds at the head of the loop while the address does not wrap. -/
structure Reading (pa endPa offset : ℕ) (s : Addr × BitVec 32 × Memory) : Prop where
  aligned : s.1.toNat % sectSize = 0
  start_le : down pa ≤ s.1.toNat
  le_end : s.1.toNat ≤ max (down pa) (up endPa)
  sector : s.2.1.toNat = 1 + (down offset + (s.1.toNat - down pa)) / sectSize

theorem aligned_start (pa : BitVec 32) :
    (pa &&& ~~~(BitVec.ofNat 32 sectSize - 1)).toNat % sectSize = 0 := by
  rw [toNat_and_sector, down]
  exact Nat.mul_mod_left ..

theorem Reading.start (endPa : ℕ) (m : Memory) : Reading pa.toNat endPa offset.toNat
    (pa &&& ~~~(BitVec.ofNat 32 sectSize - 1), offset / BitVec.ofNat 32 sectSize + 1, m) where
  aligned := aligned_start pa
  start_le := by rw [toNat_and_sector]
  le_end := by
    rw [toNat_and_sector]
    exact Nat.le_max_left ..
  sector := by
    rw [toNat_and_sector, toNat_first_sector, down, down, Nat.sub_self, Nat.add_zero,
      Nat.mul_div_cancel _ (by decide)]

theorem Reading.step {endPa : Addr} {s t : Addr × BitVec 32 × Memory}
    (h : Reading pa.toNat endPa.toNat offset.toNat s) (hend : endPa.toNat ≤ 2 ^ 32 - sectSize)
    (hstep : readsegBody d endPa s = .ok (.inl t)) :
    Reading pa.toNat endPa.toNat offset.toNat t := by
  obtain ⟨a, sector, m⟩ := s
  obtain ⟨haligned, hstart, hle, hsector⟩ := h
  have hpa := pa.isLt
  have hoff := offset.isLt
  have hlt : a < endPa := by
    by_contra hge
    rw [readsegBody, if_neg hge] at hstep
    cases hstep
  rw [readsegBody, if_pos hlt] at hstep
  obtain rfl := Sum.inl.inj (Except.ok.inj hstep)
  simp only [sectSize, up, down] at *
  have hnext : (a + BitVec.ofNat 32 512).toNat = a.toNat + 512 := by bv_omega
  have hsucc : (sector + 1).toNat = sector.toNat + 1 := by
    rw [BitVec.toNat_add]
    change (sector.toNat + 1) % 2 ^ 32 = sector.toNat + 1
    omega
  have hlt' : a.toNat < endPa.toNat := hlt
  constructor <;> simp only [sectSize, up, down, hnext, hsucc] <;> omega

theorem Asks.reading {dst : Addr} {sector : BitVec 32} (h : Asks d m pa count offset dst sector)
    (hend : (pa + count).toNat ≤ 2 ^ 32 - sectSize) :
    ∃ m', Reading pa.toNat (pa + count).toNat offset.toNat (dst, sector, m') ∧
      dst < pa + count := by
  obtain ⟨m', hreach, hlt⟩ := h
  refine ⟨m', ?_, hlt⟩
  exact hreach.invariant (fun s t hs hstep => hs.step hend hstep) (.start _ m)

/-- `readseg` leaves the bytes of the image, changes nothing outside their sectors, and asks for
the sector of the image that belongs where it is put, by a number of 28 bits. -/
theorem readseg_correct (d : Disk) (m : Memory) (pa count offset : BitVec 32)
    (hmod : pa.toNat % sectSize = offset.toNat % sectSize)
    (h : pa.toNat + count.toNat ≤ 2 ^ 32 - sectSize) :
    (∃ m', Settles (fun n => readseg n d pa count offset m) (.ok m') ∧
      (∀ i < count.toNat, m'.bytes (pa + BitVec.ofNat 32 i) = d.image (offset.toNat + i)) ∧
      ∀ a : Addr, ¬ (down pa.toNat ≤ a.toNat ∧ a.toNat < up (pa.toNat + count.toNat)) →
        m'.bytes a = m.bytes a) ∧
    ∀ dst sector, Asks d m pa count offset dst sector →
      sector.toNat < 2 ^ 28 ∧ (lba sector).toNat = sector.toNat ∧
        sector.toNat = 1 + (down offset.toNat + (dst.toNat - down pa.toNat)) / sectSize := by
  constructor
  · obtain ⟨m', hrun, hbytes⟩ := readseg_settles d m offset h
    refine ⟨m', hrun, fun i hi => ?_, fun a ha => ?_⟩
    · have hoff := offset.isLt
      have haddr : (pa + BitVec.ofNat 32 i).toNat = pa.toNat + i := by
        simp only [sectSize] at h
        bv_omega
      have hin : down pa.toNat ≤ pa.toNat + i ∧ pa.toNat + i < up (pa.toNat + count.toNat) := by
        simp only [down, up, sectSize]
        omega
      have hplace : down offset.toNat + (pa.toNat + i - down pa.toNat) = offset.toNat + i := by
        simp only [down, sectSize] at *
        omega
      rw [hbytes, haddr, if_pos hin, hplace]
    · rw [hbytes, if_neg ha]
  · intro dst sector hasks
    have hend : (pa + count).toNat = pa.toNat + count.toNat := by
      simp only [sectSize] at h
      bv_omega
    obtain ⟨m', hreading, hlt⟩ := hasks.reading (by rw [hend]; exact h)
    have hsector : sector.toNat =
        1 + (down offset.toNat + (dst.toNat - down pa.toNat)) / sectSize := hreading.sector
    have hdst := dst.isLt
    have hoff := offset.isLt
    have hsmall : sector.toNat < 2 ^ 28 := by
      rw [hsector]
      simp only [down, sectSize]
      omega
    exact ⟨hsmall, toNat_lba hsmall, hsector⟩

theorem readseg_correct_page :
    (0x10000 : BitVec 32).toNat % sectSize = (0 : BitVec 32).toNat % sectSize ∧
    ∃ m', Settles (fun n => readseg n (fun s k => BitVec.ofNat 8 (s + k)) 0x10000 4096 0
        ⟨fun _ => 0, []⟩) (.ok m') ∧
      ∀ i < 4096, m'.bytes (0x10000 + BitVec.ofNat 32 i) =
        BitVec.ofNat 8 (1 + i / sectSize + i % sectSize) := by
  obtain ⟨⟨m', hrun, hbytes, -⟩, -⟩ := readseg_correct (fun s k => BitVec.ofNat 8 (s + k))
    ⟨fun _ => 0, []⟩ 0x10000 4096 0 (by decide) (by decide)
  refine ⟨by decide, m', hrun, fun i hi => ?_⟩
  have hzero : (0 : BitVec 32).toNat + i = i := Nat.zero_add i
  rw [hbytes i hi, Disk.image, hzero]

/-! ### When it ends -/

/-- The last sector starts below such an end, and the address after it is 0. -/
theorem readseg_forever (d : Disk) (m : Memory) (pa count offset : BitVec 32)
    (h : 2 ^ 32 - sectSize < (pa + count).toNat) (n : ℕ) :
    readseg n d pa count offset m = .error .fuel := by
  refine loop_forever (I := fun s => s.1.toNat % sectSize = 0) (fun s hs => ?_)
    (aligned_start pa) n
  have hlt := s.1.isLt
  have hgo : s.1 < pa + count := by
    rw [BitVec.lt_def]
    simp only [sectSize] at hs h
    omega
  refine ⟨_, if_pos hgo, ?_⟩
  simp only [sectSize] at hs ⊢
  rw [BitVec.toNat_add]
  change (s.1.toNat + 512) % 2 ^ 32 % 512 = 0
  omega

/-- The loop of `readseg` ends exactly when the end does not lie in the last sector of memory. -/
theorem readseg_ends_iff (d : Disk) (m : Memory) (pa count offset : BitVec 32) :
    (∃ m', Settles (fun n => readseg n d pa count offset m) (.ok m')) ↔
      (pa + count).toNat ≤ 2 ^ 32 - sectSize := by
  constructor
  · rintro ⟨m', hrun⟩
    by_contra hend
    have hloop := readseg_forever d m pa count offset (Nat.lt_of_not_le hend)
    exact nomatch hrun.unique ((Settles.const _).congr hloop)
  · intro hend
    have hstep : ∀ s : Addr × BitVec 32 × Memory, s.1.toNat % sectSize = 0 →
        Total (Sum.elim (fun t => t.1.toNat % sectSize = 0 ∧
          (pa + count).toNat - t.1.toNat < (pa + count).toNat - s.1.toNat) fun _ => True)
          (readsegBody d (pa + count) s) := by
      rintro ⟨a, sector, m⟩ hs
      dsimp only at hs
      by_cases hgo : a < pa + count
      · rw [readsegBody, if_pos hgo]
        rw [BitVec.lt_def] at hgo
        simp only [sectSize] at hs hend
        have hnext : (a + BitVec.ofNat 32 512).toNat = a.toNat + 512 := by bv_omega
        change (a + BitVec.ofNat 32 512).toNat % 512 = 0 ∧
          (pa + count).toNat - (a + BitVec.ofNat 32 512).toNat < (pa + count).toNat - a.toNat
        omega
      · rw [readsegBody, if_neg hgo]
        trivial
    obtain ⟨m', -, hrun⟩ := loop_settles _ hstep
      (s := (_, offset / BitVec.ofNat 32 sectSize + 1, m)) (aligned_start pa)
    exact ⟨m', hrun⟩

/-- A segment of `0xFFFFFFFF` bytes at 0 is read for ever. -/
theorem readseg_never_ends :
    ¬ ∃ m', Settles (fun n => readseg n (fun _ _ => 0) 0 0xFFFFFFFF 0 ⟨fun _ => 0, []⟩)
      (.ok m') := by
  rintro ⟨m', hrun⟩
  have hloop := readseg_forever (fun _ _ => 0) ⟨fun _ => 0, []⟩ 0 0xFFFFFFFF 0 (by decide)
  exact nomatch hrun.unique ((Settles.const _).congr hloop)

end Jos
