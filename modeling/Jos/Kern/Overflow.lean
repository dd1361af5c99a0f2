import Jos.Kern.Input

/-! What is left in the input buffer when a device delivers more than fits. -/
namespace Jos

open Prog

namespace Input

/-- The bytes that `cons_getc` can still return, in the order in which it does. -/
def unread (s : Input) : List Byte := s.cons.unread consBufSize

/-- An interrupt routine drains its device, which delivers `bs`. -/
inductive Drain : Input → List Byte → Input → Prop
  | serialIntr {s t : Input} {cs : List (BitVec 32)} {e : Devices} :
      SerialGives s.devices cs e → Settles (fun n => Jos.serialIntr n s) (.ok t) →
      Drain s (delivered cs) t
  | kbdIntr {s t : Input} {cs : List (BitVec 32)} {e : Devices} :
      Gives kbdProcData s.devices cs e → Settles (fun n => Jos.kbdIntr n s) (.ok t) →
      Drain s (delivered cs) t

/-- When more bytes are unread than the buffer has room for, as many as there is room for can
still be read, in the order in which they were delivered: the oldest or the newest. -/
def KeepsBacklog (s : Input) (bs : List Byte) (t : Input) : Prop :=
  consBufSize - 1 < (s.unread ++ bs).length →
    consBufSize - 1 ≤ t.unread.length ∧
      (t.unread <+: s.unread ++ bs ∨ t.unread <:+ s.unread ++ bs)

variable {s t : Input} {bs xs : List Byte}

/-- A drain leaves what does not fill a whole lap of the buffer. -/
theorem Drain.unread_eq (h : Drain s bs t) (hs : s.Sound) :
    t.unread = RingBuffer.latest consBufSize (s.unread ++ bs) := by
  obtain ⟨xs, hs⟩ := hs
  have hxs : s.unread = xs := hs.unread_eq
  rw [hxs]
  cases h with
  | serialIntr hg hrun =>
    obtain ⟨u, hu, -, hholds⟩ := hg.pushes hs
    obtain rfl := Except.ok.inj (hrun.unique hu)
    exact hholds.unread_eq
  | kbdIntr hg hrun =>
    obtain ⟨u, hu, -, hholds⟩ := Gives.pushes hg hs
    obtain rfl := Except.ok.inj (hrun.unique hu)
    exact hholds.unread_eq

/-- In every run, a drain that finds too little room keeps as much as fits exactly when the
backlog is one byte short of a whole number of laps. -/
theorem drain_keeps_backlog_iff (d : Devices) (s t : Input) (bs : List Byte)
    (hrun : Moves (.start d) s) (hdrain : Drain s bs t) :
    KeepsBacklog s bs t ↔ (s.unread ++ bs).length ≤ consBufSize - 1 ∨
      (s.unread ++ bs).length % consBufSize = consBufSize - 1 := by
  have hlatest := hdrain.unread_eq hrun.sound
  rw [KeepsBacklog, hlatest, RingBuffer.length_latest]
  have hsuffix := RingBuffer.latest_suffix consBufSize (s.unread ++ bs)
  have hmod : (s.unread ++ bs).length % consBufSize < consBufSize := Nat.mod_lt _ (by decide)
  constructor
  · intro h
    rcases Nat.lt_or_ge (consBufSize - 1) (s.unread ++ bs).length with hfull | hroom
    · have hkept := (h hfull).1
      right
      omega
    · left
      exact hroom
  · rintro (hroom | hlap) hfull
    · omega
    · exact ⟨Nat.le_of_eq hlap.symm, .inr hsuffix⟩

/-- Devices whose serial port has received `us`. -/
def received (us : List Byte) : Devices := ⟨us, true, [], 0, .zeroed 0⟩

theorem delivered_bytes {us : List Byte} (h : 0 ∉ us) :
    delivered (us.map (·.setWidth 32)) = us := by
  induction us with
  | nil => rfl
  | cons b us ih =>
    obtain ⟨hb, hus⟩ := not_or.mp (mt List.mem_cons.mpr h)
    have hne : (b.setWidth 32 : BitVec 32) ≠ 0 := by
      intro he
      exact hb (by bv_omega)
    rw [List.map_cons, delivered_cons hne, ih hus]
    congr 1
    bv_omega

theorem exists_drain_received (us : List Byte) (h : 0 ∉ us) :
    ∃ t, Drain (.start (received us)) us t := by
  have hg : SerialGives (received us) (us.map (·.setWidth 32)) (received []) :=
    serial_gives (received us)
  obtain ⟨t, ht, -⟩ := hg.pushes (s := .start (received us)) (RingBuffer.holds_nil (by decide))
  have hdrain := Drain.serialIntr hg ht
  rw [delivered_bytes h] at hdrain
  exact ⟨t, hdrain⟩

theorem zero_notMem_replicate (n : ℕ) : 0 ∉ List.replicate n (chr 'a' : Byte) := by
  intro h0
  exact absurd (List.eq_of_mem_replicate h0) (by decide)

/-- Of 1023 bytes at once the last 511 are kept. -/
theorem drain_keeps_backlog_iff_lap : ∃ t,
    Drain (.start (received (List.replicate 1023 (chr 'a')))) (List.replicate 1023 (chr 'a')) t ∧
      KeepsBacklog (.start (received (List.replicate 1023 (chr 'a'))))
        (List.replicate 1023 (chr 'a')) t ∧
      t.unread.length = 511 := by
  obtain ⟨t, ht⟩ := exists_drain_received _ (zero_notMem_replicate 1023)
  have hiff := drain_keeps_backlog_iff _ _ t _ .refl ht
  have hlen : ((start (received (List.replicate 1023 (chr 'a')))).unread ++
      List.replicate 1023 (chr 'a')).length = 1023 := List.length_replicate
  refine ⟨t, ht, hiff.mpr (.inr ?_), ?_⟩
  · rw [hlen]
    rfl
  · rw [ht.unread_eq (sound_start _), RingBuffer.length_latest, hlen]
    rfl

/-- 512 bytes at once are all lost. -/
theorem drain_loses_backlog : ¬ ∀ d s t bs, Moves (.start d) s → Drain s bs t →
    KeepsBacklog s bs t := by
  intro h
  obtain ⟨t, ht⟩ := exists_drain_received _ (zero_notMem_replicate consBufSize)
  have hstart : (start (received (List.replicate consBufSize (chr 'a')))).unread = [] := rfl
  have hlatest := ht.unread_eq (sound_start _)
  have hlen : t.unread.length = 0 := by
    rw [hlatest, RingBuffer.length_latest, hstart, List.nil_append, List.length_replicate,
      Nat.mod_self]
  have hkept := h _ _ t _ .refl ht (by simp [hstart])
  rw [hlen] at hkept
  exact absurd hkept.1 (by decide)

end Input

end Jos
