import Jos.Kern.Input

/-! What the bytes of the mouse do to the keyboard input. -/
namespace Jos

open Prog

/-- The keyboard controller has no byte from the keyboard at the head of its queue. -/
def Blocked (q : List KbcByte) : Prop := ∀ k ∈ q.head?, k.fromMouse

/-- No byte from the keyboard comes after one from the mouse. -/
def KeysFirst (q : List KbcByte) : Prop :=
  ∀ pre b post, q = pre ++ ⟨true, b⟩ :: post → ∀ k ∈ post, k.fromMouse

namespace Input

/-- `n` calls of `kbd_intr` put the bytes `bs` in the buffer. -/
inductive KbdIntrs : ℕ → Input → List Byte → Input → Prop
  | zero {s : Input} : KbdIntrs 0 s [] s
  | succ {n : ℕ} {s t u : Input} {cs : List (BitVec 32)} {e : Devices} {bs : List Byte} :
      Gives kbdProcData s.devices cs e → Settles (fun n => kbdIntr n s) (.ok t) →
      KbdIntrs n t bs u → KbdIntrs (n + 1) s (delivered cs ++ bs) u

/-- The same input, had nothing come from the mouse. -/
def withoutMouse (s : Input) : Input :=
  s.withDevices { s.devices with kbc := s.devices.kbc.filter (!·.fromMouse) }

/-- After enough calls the bytes in the buffer are those that there would be without the mouse,
and no byte from the keyboard is left in the controller. -/
def MouseIgnored (s : Input) : Prop :=
  ∃ bs N, ∀ n, N ≤ n →
    (∃ t, KbdIntrs n s bs t ∧ ∀ k ∈ t.devices.kbc, k.fromMouse) ∧
      ∃ u, KbdIntrs n s.withoutMouse bs u

end Input

variable {d e d' : Devices} {c : BitVec 32} {cs : List (BitVec 32)} {b : Byte}
  {keys rest rest' pre post : List KbcByte} {s t : Input} {bs : List Byte} {n : ℕ}

/-! ### A queue of keys and what comes after it -/

theorem Blocked.gives (h : Blocked d.kbc) : Gives kbdProcData d [] d := by
  rcases hk : d.kbc with _ | ⟨⟨m, b⟩, rest⟩
  · exact .done ((Settles.const _).congr (kbdProcData_empty hk))
  · have hm : m = true := h ⟨m, b⟩ (by simp [hk])
    subst hm
    exact .done ((Settles.const _).congr (kbdProcData_mouse hk))

/-- Two controllers that hold the same keys deliver the same, whatever comes after the keys. -/
theorem gives_keys (hkeys : ∀ k ∈ keys, ¬ k.fromMouse) (hd : d.kbc = keys ++ rest)
    (hd' : d'.kbc = keys ++ rest') (hshift : d.shift = d'.shift) (hrest : Blocked rest)
    (hrest' : Blocked rest') :
    ∃ cs e e', Gives kbdProcData d cs e ∧ Gives kbdProcData d' cs e' ∧
      e.kbc = rest ∧ e'.kbc = rest' := by
  induction keys generalizing d d' with
  | nil =>
    rw [List.nil_append] at hd hd'
    rw [← hd] at hrest
    rw [← hd'] at hrest'
    exact ⟨[], d, d', hrest.gives, hrest'.gives, hd, hd'⟩
  | cons k keys ih =>
    obtain ⟨m, b⟩ := k
    have hm : m = false := by simpa using hkeys ⟨m, b⟩ List.mem_cons_self
    subst hm
    obtain ⟨sh, c, hb, hlt⟩ := kbdByte_total d.shift b
    have hne : c ≠ -1 := by
      rintro rfl
      exact absurd hlt (by decide)
    obtain ⟨con, hkey⟩ := kbdProcData_key hd hb
    rw [hshift] at hb
    obtain ⟨con', hkey'⟩ := kbdProcData_key hd' hb
    have hkeys' : ∀ k ∈ keys, ¬ k.fromMouse := fun k hk => hkeys k (List.mem_cons_of_mem _ hk)
    have hnext : ({ d with kbc := keys ++ rest, shift := sh, console := con } : Devices).kbc =
      keys ++ rest := rfl
    have hnext' : ({ d' with kbc := keys ++ rest', shift := sh, console := con' } : Devices).kbc =
      keys ++ rest' := rfl
    obtain ⟨cs, e, e', hg, hg', he⟩ := ih hkeys' hnext hnext' rfl
    exact ⟨c :: cs, e, e', .more hkey hne hg, .more hkey' hne hg', he⟩

/-- A byte from the mouse is never read, and nothing after it is. -/
theorem kbdProcData_keeps (h : Settles (fun n => kbdProcData n d) (.ok (c, e)))
    (hd : d.kbc = pre ++ ⟨true, b⟩ :: post) : ∃ pre', e.kbc = pre' ++ ⟨true, b⟩ :: post := by
  rcases pre with _ | ⟨⟨m, a⟩, pre⟩
  · have hn := (Settles.const _).congr (kbdProcData_mouse hd)
    obtain ⟨-, rfl⟩ := Prod.mk.inj (Except.ok.inj (h.unique hn))
    exact ⟨[], hd⟩
  · cases m with
    | true =>
      have hn := (Settles.const _).congr (kbdProcData_mouse hd)
      obtain ⟨-, rfl⟩ := Prod.mk.inj (Except.ok.inj (h.unique hn))
      exact ⟨_, hd⟩
    | false =>
      obtain ⟨sh, c', hb, -⟩ := kbdByte_total d.shift a
      obtain ⟨con, hkey⟩ := kbdProcData_key hd hb
      obtain ⟨-, rfl⟩ := Prod.mk.inj (Except.ok.inj (h.unique hkey))
      exact ⟨pre, rfl⟩

theorem Gives.keeps (h : Gives kbdProcData d cs e) (hd : d.kbc = pre ++ ⟨true, b⟩ :: post) :
    ∃ pre', e.kbc = pre' ++ ⟨true, b⟩ :: post := by
  induction h generalizing pre with
  | done hend => exact kbdProcData_keeps hend hd
  | more hc _ _ ih =>
    obtain ⟨pre', hpre⟩ := kbdProcData_keeps hc hd
    exact ih hpre

theorem KeysFirst.split {q : List KbcByte} (h : KeysFirst q) :
    ∃ keys mice, q = keys ++ mice ∧ (∀ k ∈ keys, ¬ k.fromMouse) ∧ ∀ k ∈ mice, k.fromMouse := by
  induction q with
  | nil => exact ⟨[], [], rfl, by simp, by simp⟩
  | cons k q ih =>
    obtain ⟨m, b⟩ := k
    cases m with
    | true =>
      refine ⟨[], ⟨true, b⟩ :: q, rfl, by simp, ?_⟩
      intro k hk
      rcases List.mem_cons.mp hk with rfl | hk
      · rfl
      · exact h [] b q rfl k hk
    | false =>
      have hq : KeysFirst q := by
        rintro pre b' post rfl
        exact h (⟨false, b⟩ :: pre) b' post rfl
      obtain ⟨keys, mice, rfl, hkeys, hmice⟩ := ih hq
      refine ⟨⟨false, b⟩ :: keys, mice, rfl, ?_, hmice⟩
      intro k hk
      rcases List.mem_cons.mp hk with rfl | hk
      · simp
      · exact hkeys k hk

/-! ### Calls of `kbd_intr` -/

namespace Input

theorem Sound.kbdIntr (hs : s.Sound) (hg : Gives kbdProcData s.devices cs e) :
    ∃ t, Settles (fun n => Jos.kbdIntr n s) (.ok t) ∧ t.devices = e ∧ t.Sound := by
  obtain ⟨xs, hs⟩ := hs
  obtain ⟨t, ht, hdev, hholds⟩ := hg.pushes hs
  exact ⟨t, ht, hdev, _, hholds⟩

theorem kbdIntrs_blocked (hs : s.Sound) (hb : Blocked s.devices.kbc) (n : ℕ) :
    ∃ t, KbdIntrs n s [] t ∧ t.devices = s.devices := by
  induction n generalizing s with
  | zero => exact ⟨s, .zero, rfl⟩
  | succ n ih =>
    obtain ⟨t, ht, hdev, hsound⟩ := hs.kbdIntr hb.gives
    obtain ⟨u, hu, hu'⟩ := ih hsound (by rwa [hdev])
    exact ⟨u, .succ hb.gives ht hu, hu'.trans hdev⟩

/-- The first call puts all in the buffer that any number of calls does. -/
theorem kbdIntrs_of_gives (hs : s.Sound) (hg : Gives kbdProcData s.devices cs e)
    (hb : Blocked e.kbc) (hn : 1 ≤ n) : ∃ t, KbdIntrs n s (delivered cs) t ∧ t.devices = e := by
  obtain ⟨n, rfl⟩ : ∃ k, n = k + 1 := ⟨n - 1, by omega⟩
  obtain ⟨t, ht, hdev, hsound⟩ := hs.kbdIntr hg
  obtain ⟨u, hu, hu'⟩ := kbdIntrs_blocked hsound (by rwa [hdev]) n
  have hrun := KbdIntrs.succ hg ht hu
  rw [List.append_nil] at hrun
  exact ⟨u, hrun, hu'.trans hdev⟩

theorem KbdIntrs.keeps (h : KbdIntrs n s bs t) (hs : s.Sound)
    (hd : s.devices.kbc = pre ++ ⟨true, b⟩ :: post) :
    ∃ pre', t.devices.kbc = pre' ++ ⟨true, b⟩ :: post := by
  induction h generalizing pre with
  | zero => exact ⟨pre, hd⟩
  | succ hg ht _ ih =>
    obtain ⟨t, ht', hdev, hsound⟩ := hs.kbdIntr hg
    obtain rfl := Except.ok.inj (ht.unique ht')
    obtain ⟨pre', hpre⟩ := hg.keeps hd
    rw [← hdev] at hpre
    exact ih hsound hpre

theorem blocked_of_forall {q : List KbcByte} (h : ∀ k ∈ q, k.fromMouse) : Blocked q := by
  intro k hk
  exact h k (List.mem_of_mem_head? hk)

theorem MouseIgnored.of_keysFirst (hs : s.Sound) (h : KeysFirst s.devices.kbc) :
    s.MouseIgnored := by
  obtain ⟨keys, mice, hq, hkeys, hmice⟩ := h.split
  have hfilter : s.withoutMouse.devices.kbc = keys ++ [] := by
    change s.devices.kbc.filter _ = _
    rw [hq, List.filter_append]
    congr 1
    · exact List.filter_eq_self.mpr fun k hk => by simpa using hkeys k hk
    · exact List.filter_eq_nil_iff.mpr fun k hk => by simp [hmice k hk]
  have hmice' := blocked_of_forall hmice
  have hnil : Blocked [] := blocked_of_forall fun _ hk => absurd hk List.not_mem_nil
  obtain ⟨cs, e, e', hg, hg', he, he'⟩ := gives_keys hkeys hq hfilter rfl hmice' hnil
  refine ⟨delivered cs, 1, ?_⟩
  intro n hn
  constructor
  · obtain ⟨t, ht, hdev⟩ := kbdIntrs_of_gives hs hg (by rwa [he]) hn
    refine ⟨t, ht, ?_⟩
    rwa [hdev, he]
  · have hs' : s.withoutMouse.Sound := hs
    obtain ⟨u, hu, -⟩ := kbdIntrs_of_gives hs' hg' (by rwa [he']) hn
    exact ⟨u, hu⟩

theorem MouseIgnored.keysFirst (hs : s.Sound) (h : s.MouseIgnored) :
    KeysFirst s.devices.kbc := by
  obtain ⟨bs, N, h⟩ := h
  obtain ⟨⟨t, ht, hmouse⟩, -⟩ := h N (Nat.le_refl N)
  intro pre b post hq k hk
  obtain ⟨pre', hpre⟩ := ht.keeps hs hq
  exact hmouse k (by simp [hpre, hk])

/-- Bytes from the mouse are ignored exactly when none of them comes before a byte from the
keyboard. -/
theorem mouse_ignored_iff (s : Input) (hs : s.Sound) :
    s.MouseIgnored ↔ KeysFirst s.devices.kbc := by
  constructor
  · exact MouseIgnored.keysFirst hs
  · exact MouseIgnored.of_keysFirst hs

/-- A keyboard controller in which `q` waits. -/
def waiting (q : List KbcByte) : Devices := ⟨[], true, q, 0, .zeroed 0⟩

/-- A key before a byte from the mouse. -/
theorem mouse_ignored_iff_after : (start (waiting [⟨false, 0x1E⟩, ⟨true, 0x08⟩])).MouseIgnored ↔
    KeysFirst [⟨false, 0x1E⟩, ⟨true, 0x08⟩] :=
  mouse_ignored_iff (start (waiting [⟨false, 0x1E⟩, ⟨true, 0x08⟩])) (sound_start _)

/-- A key after a byte from the mouse is never delivered. -/
theorem mouse_blocks_key : ¬ (start (waiting [⟨true, 0x08⟩, ⟨false, 0x1E⟩])).MouseIgnored := by
  intro h
  have hkey := h.keysFirst (sound_start _) [] 0x08 [⟨false, 0x1E⟩] rfl ⟨false, 0x1E⟩ (by simp)
  exact absurd hkey (by decide)

end Input

end Jos
