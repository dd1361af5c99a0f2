import Jos.Boot.Main

/-! What `bootmain` leaves in memory, and which kernel images it loads intact. -/
namespace Jos

open Prog

/-! ### The image -/

/-- Little-endian words of a file. -/
def le16 (f : ℕ → Byte) (k : ℕ) : BitVec 16 := f (k + 1) ++ f k

def le32 (f : ℕ → Byte) (k : ℕ) : BitVec 32 := f (k + 3) ++ f (k + 2) ++ f (k + 1) ++ f k

/-- The program header at byte `k`. -/
def proghdr (f : ℕ → Byte) (k : ℕ) : Proghdr where
  offset := le32 f (k + 4)
  pa := le32 f (k + 12)
  filesz := le32 f (k + 16)
  memsz := le32 f (k + 20)

/-- `n` program headers, from the `i`th on. -/
def proghdrs (f : ℕ → Byte) (i n : ℕ) : List Proghdr :=
  (List.range' i n).map fun i => proghdr f ((le32 f 28).toNat + 32 * i)

/-- All segments of a kernel image. -/
def loadSegments (f : ℕ → Byte) : List Proghdr := proghdrs f 0 (le16 f 44).toNat

/-- A segment whose destination does not wrap and leaves the scratch page alone. -/
structure Proghdr.Placed (s : Proghdr) : Prop where
  filesz_le : s.filesz ≤ s.memsz
  congr : s.pa.toNat % 4096 = s.offset.toNat % 4096
  no_wrap : s.pa.toNat + s.memsz.toNat ≤ 2 ^ 32 - sectSize
  away : s.pa.toNat + s.memsz.toNat ≤ 0x10000 ∨ 0x11000 ≤ s.pa.toNat

/-- A kernel image that the loader accepts, with its segments in increasing order. -/
structure Kernel (f : ℕ → Byte) : Prop where
  magic : le32 f 0 = elfMagic
  headers : (le32 f 28).toNat + 32 * (le16 f 44).toNat ≤ 4096
  placed : ∀ s ∈ loadSegments f, s.Placed
  ordered : (loadSegments f).Pairwise fun s t => s.pa.toNat + s.memsz.toNat ≤ t.pa.toNat

/-- The sectors that loading the segment writes to. -/
def Proghdr.Covers (s : Proghdr) (a : ℕ) : Prop :=
  down s.pa.toNat ≤ a ∧ a < up (s.pa.toNat + s.memsz.toNat)

instance (s : Proghdr) (a : ℕ) : Decidable (s.Covers a) :=
  inferInstanceAs (Decidable (_ ∧ _))

/-- What loading the segment puts at an address. -/
def Proghdr.layer (f : ℕ → Byte) (s : Proghdr) (a : Addr) : Option Byte :=
  if s.Covers a.toNat then some (f (down s.offset.toNat + (a.toNat - down s.pa.toNat))) else none

/-- Every byte of every segment is in memory as it is in the file. -/
def Intact (f : ℕ → Byte) (mem : Addr → Byte) : Prop :=
  ∀ s ∈ loadSegments f, ∀ x < s.filesz.toNat,
    mem (s.pa + BitVec.ofNat 32 x) = f (s.offset.toNat + x)

/-- Where a byte of a segment lies in a sector that a later segment is loaded to as well, the last
such segment has the same byte in front of it in the file. -/
def EdgesAgree (f : ℕ → Byte) : Prop :=
  ∀ us s vs t ws, loadSegments f = us ++ s :: (vs ++ t :: ws) → ∀ x < s.filesz.toNat,
    t.Covers (s.pa.toNat + x) → (∀ w ∈ ws, ¬ w.Covers (s.pa.toNat + x)) →
    f (t.offset.toNat + (s.pa.toNat + x) - t.pa.toNat) = f (s.offset.toNat + x)

variable {d : Disk} {m : Memory} {f g : ℕ → Byte} {mem : Addr → Byte} {s : Proghdr} {a : Addr}
  {i n k x : ℕ}

/-! ### Layers -/

theorem Proghdr.layer_of_not_covers (h : ¬ s.Covers a.toNat) : s.layer f a = none := if_neg h

theorem Proghdr.layer_of_covers (hs : s.Placed) (h : s.Covers a.toNat) :
    s.layer f a = some (f (s.offset.toNat + a.toNat - s.pa.toNat)) := by
  have hcongr := hs.congr
  have hidx : down s.offset.toNat + (a.toNat - down s.pa.toNat) =
      s.offset.toNat + a.toNat - s.pa.toNat := by
    have hlow := h.1
    simp only [down, sectSize] at *
    omega
  rw [layer, if_pos h, hidx]

/-- The address of a byte of a segment does not wrap. -/
theorem Proghdr.Placed.toNat_add (hs : s.Placed) (hx : x < s.filesz.toNat) :
    (s.pa + BitVec.ofNat 32 x).toNat = s.pa.toNat + x := by
  have hle := hs.filesz_le
  have hwrap := hs.no_wrap
  simp only [sectSize] at hwrap
  bv_omega

theorem Proghdr.Placed.covers_own (hs : s.Placed) (hx : x < s.filesz.toNat) :
    s.Covers (s.pa.toNat + x) := by
  have hle : s.filesz.toNat ≤ s.memsz.toNat := hs.filesz_le
  simp only [Covers, down, up, sectSize]
  omega

theorem Proghdr.Placed.layer_own (hs : s.Placed) (hx : x < s.filesz.toNat) :
    s.layer f (s.pa + BitVec.ofNat 32 x) = some (f (s.offset.toNat + x)) := by
  have ha := hs.toNat_add hx
  have hcovers := hs.covers_own hx
  rw [← ha] at hcovers
  have hidx : s.offset.toNat + (s.pa.toNat + x) - s.pa.toNat = s.offset.toNat + x := by omega
  rw [layer_of_covers hs hcovers, ha, hidx]

/-- The last segment that is loaded over a byte decides what it is. -/
theorem intact_iff (hplaced : ∀ s ∈ loadSegments f, s.Placed) :
    Intact f (paint (Proghdr.layer f) mem (loadSegments f)) ↔ EdgesAgree f := by
  constructor
  · intro h us s vs t ws hsplit x hx hcovers hlast
    have hs : s ∈ loadSegments f := by simp [hsplit]
    have ht : t ∈ loadSegments f := by simp [hsplit]
    have ha := (hplaced s hs).toNat_add hx
    rw [← ha] at hcovers hlast ⊢
    have hseen : paint (Proghdr.layer f) mem ((us ++ s :: vs) ++ t :: ws)
        (s.pa + BitVec.ofNat 32 x) = _ :=
      paint_of_last (Proghdr.layer_of_covers (hplaced t ht) hcovers)
        fun w hw => Proghdr.layer_of_not_covers (hlast w hw)
    rw [List.append_assoc, List.cons_append, ← hsplit] at hseen
    rw [← hseen, h s hs x hx]
  · intro h s hs x hx
    obtain ⟨us, rest, hsplit⟩ := List.append_of_mem hs
    have hown := (hplaced s hs).layer_own (f := f) hx
    have ha := (hplaced s hs).toNat_add hx
    rcases none_or_last (Proghdr.layer f) rest (s.pa + BitVec.ofNat 32 x) with
      hnone | ⟨vs, t, ws, b, rfl, ht, hws⟩
    · rw [hsplit, paint_of_last hown hnone]
    · have htmem : t ∈ loadSegments f := by simp [hsplit]
      have hcovers : t.Covers (s.pa + BitVec.ofNat 32 x).toNat := by
        by_contra hout
        rw [Proghdr.layer_of_not_covers hout] at ht
        cases ht
      rw [Proghdr.layer_of_covers (hplaced t htmem) hcovers, Option.some_inj] at ht
      have hlast : ∀ w ∈ ws, ¬ w.Covers (s.pa.toNat + x) := by
        intro w hw hin
        rw [← ha] at hin
        have hwmem : w ∈ loadSegments f := by simp [hsplit, hw]
        have hnone := hws w hw
        rw [Proghdr.layer_of_covers (hplaced w hwmem) hin] at hnone
        cases hnone
      have hseen : paint (Proghdr.layer f) mem ((us ++ s :: vs) ++ t :: ws)
          (s.pa + BitVec.ofNat 32 x) = b :=
        paint_of_last (by rw [Proghdr.layer_of_covers (hplaced t htmem) hcovers, ht]) hws
      rw [List.append_assoc, List.cons_append, ← hsplit] at hseen
      rw [ha] at hcovers ht
      rw [hseen, ← ht]
      exact h us s vs t ws hsplit x hx hcovers hlast

/-! ### The run of the loader -/

/-- The first page of the image is in the scratch page. -/
def HeaderIn (f : ℕ → Byte) (m : Memory) : Prop :=
  ∀ k < 4096, m.bytes (elfHdr + BitVec.ofNat 32 k) = f k

theorem hdr_add (k j : ℕ) : elfHdr + BitVec.ofNat 32 k + BitVec.ofNat 32 j =
    elfHdr + BitVec.ofNat 32 (k + j) := by
  rw [BitVec.add_assoc, BitVec.ofNat_add]

theorem HeaderIn.load32 (h : HeaderIn f m) (hk : k + 4 ≤ 4096) :
    m.load32 (elfHdr + BitVec.ofNat 32 k) = le32 f k := by
  have h1 := hdr_add k 1
  have h2 := hdr_add k 2
  have h3 := hdr_add k 3
  rw [Memory.load32, le32, ← h k (by omega), ← h (k + 1) (by omega), ← h (k + 2) (by omega),
    ← h (k + 3) (by omega), ← h1, ← h2, ← h3]
  rfl

theorem HeaderIn.load16 (h : HeaderIn f m) (hk : k + 2 ≤ 4096) :
    m.load16 (elfHdr + BitVec.ofNat 32 k) = le16 f k := by
  have h1 := hdr_add k 1
  rw [Memory.load16, le16, ← h k (by omega), ← h (k + 1) (by omega), ← h1]
  rfl

/-- Segments are not loaded to the scratch page. -/
theorem Proghdr.Placed.not_covers_header (hs : s.Placed) (hk : k < 4096) :
    ¬ s.Covers (0x10000 + k) := by
  have haway := hs.away
  simp only [Covers, down, up, sectSize]
  omega

theorem toNat_hdr (hk : k < 4096) : (elfHdr + BitVec.ofNat 32 k).toNat = 0x10000 + k := by
  simp only [elfHdr]
  bv_omega

/-- One segment is loaded. -/
theorem load_segment (d : Disk) (hm : HeaderIn d.image m) (hs : s.Placed) :
    ∃ m', Settles (fun n => readseg n d s.pa s.memsz s.offset m) (.ok m') ∧
      m'.bytes = (fun a => (s.layer d.image a).getD (m.bytes a)) ∧ HeaderIn d.image m' := by
  obtain ⟨m', hrun, hbytes⟩ := readseg_settles d m s.offset hs.no_wrap
  have hlayer : ∀ a, m'.bytes a = (s.layer d.image a).getD (m.bytes a) := by
    intro a
    rw [hbytes, Proghdr.layer]
    by_cases ha : s.Covers a.toNat
    · rw [if_pos ha]
      exact if_pos ha
    · rw [if_neg ha]
      exact if_neg ha
  refine ⟨m', hrun, funext hlayer, fun k hk => ?_⟩
  have hout := hs.not_covers_header hk
  rw [← toNat_hdr hk] at hout
  rw [hlayer, Proghdr.layer_of_not_covers hout]
  exact hm k hk

theorem bootmainBody_next (hm : HeaderIn d.image m) (hk : k + 32 ≤ 4096)
    (hn : k + 32 ≤ n ∧ n ≤ 4096) (hs : (proghdr d.image k).Placed) :
    ∃ m', Settles (fun fuel => bootmainBody fuel d (elfHdr + BitVec.ofNat 32 n)
        (elfHdr + BitVec.ofNat 32 k, m)) (.ok (.inl (elfHdr + BitVec.ofNat 32 (k + 32), m'))) ∧
      m'.bytes = (fun a => ((proghdr d.image k).layer d.image a).getD (m.bytes a)) ∧
      HeaderIn d.image m' := by
  obtain ⟨m', hrun, hm'⟩ := load_segment d hm hs
  refine ⟨m', ?_, hm'⟩
  have hlt : elfHdr + BitVec.ofNat 32 k < elfHdr + BitVec.ofNat 32 n := by
    simp only [elfHdr]
    bv_omega
  have hpa : m.load32 (elfHdr + BitVec.ofNat 32 k + 12) = (proghdr d.image k).pa :=
    hdr_add k 12 ▸ hm.load32 (k := k + 12) (by omega)
  have hmemsz : m.load32 (elfHdr + BitVec.ofNat 32 k + 20) = (proghdr d.image k).memsz :=
    hdr_add k 20 ▸ hm.load32 (k := k + 20) (by omega)
  have hoffset : m.load32 (elfHdr + BitVec.ofNat 32 k + 4) = (proghdr d.image k).offset :=
    hdr_add k 4 ▸ hm.load32 (k := k + 4) (by omega)
  refine (hrun.view fun m => (Sum.inl (elfHdr + BitVec.ofNat 32 (k + 32), m) :
    Addr × Memory ⊕ Memory)).congr fun fuel => ?_
  rw [bootmainBody, if_pos hlt, hpa, hmemsz, hoffset, ← hdr_add]
  rfl

/-- The loop over the program headers, when `n` of them remain. -/
theorem bootmain_loop (n i : ℕ) (hm : HeaderIn d.image m)
    (hfit : (le32 d.image 28).toNat + 32 * (i + n) ≤ 4096)
    (hplaced : ∀ s ∈ proghdrs d.image i n, s.Placed) :
    ∃ m', LoopSettles (fun fuel => bootmainBody fuel d
        (elfHdr + BitVec.ofNat 32 ((le32 d.image 28).toNat + 32 * (i + n))))
        (elfHdr + BitVec.ofNat 32 ((le32 d.image 28).toNat + 32 * i), m) (.ok m') ∧
      m'.bytes = paint (Proghdr.layer d.image) m.bytes (proghdrs d.image i n) ∧
      HeaderIn d.image m' := by
  induction n generalizing i m with
  | zero =>
    refine ⟨m, .exit ((Settles.const _).congr fun fuel => ?_), rfl, hm⟩
    rw [bootmainBody, Nat.add_zero, if_neg (BitVec.lt_irrefl _)]
    rfl
  | succ n ih =>
    have hcons : proghdrs d.image i (n + 1) =
        proghdr d.image ((le32 d.image 28).toNat + 32 * i) :: proghdrs d.image (i + 1) n := by
      rw [proghdrs, List.range'_succ, List.map_cons]
      rfl
    rw [hcons] at hplaced ⊢
    have hsum : i + (n + 1) = i + 1 + n := by omega
    have hnext : (le32 d.image 28).toNat + 32 * i + 32 = (le32 d.image 28).toNat + 32 * (i + 1) :=
      by omega
    obtain ⟨m₁, hrun, hbytes, hm₁⟩ := bootmainBody_next (n := (le32 d.image 28).toNat +
      32 * (i + (n + 1))) hm (by omega) (by omega) (hplaced _ List.mem_cons_self)
    rw [hnext] at hrun
    rw [hsum] at hfit hrun ⊢
    obtain ⟨m', hrest, hpaint, hm'⟩ := ih (i + 1) hm₁ hfit
      fun s hs => hplaced s (List.mem_cons_of_mem _ hs)
    rw [hbytes] at hpaint
    exact ⟨m', .next hrun hrest, hpaint, hm'⟩

/-- The first page is read to the scratch page. -/
theorem read_header (d : Disk) (m : Memory) :
    ∃ m', Settles (fun n => readseg n d elfHdr (BitVec.ofNat 32 (sectSize * 8)) 0 m) (.ok m') ∧
      HeaderIn d.image m' := by
  have hroom : elfHdr.toNat + (BitVec.ofNat 32 (sectSize * 8)).toNat ≤ 2 ^ 32 - sectSize := by
    decide
  obtain ⟨m', hrun, hbytes⟩ := readseg_settles d m 0 hroom
  refine ⟨m', hrun, fun k hk => ?_⟩
  have hdown : down elfHdr.toNat = 0x10000 := by decide
  have hup : up (elfHdr.toNat + (BitVec.ofNat 32 (sectSize * 8)).toNat) = 0x11000 := by decide
  have hzero : down (0 : BitVec 32).toNat = 0 := by decide
  rw [hbytes, hdown, hup, hzero, toNat_hdr hk, if_pos (by omega), Nat.zero_add,
    Nat.add_sub_cancel_left]

/-- The loader ends at the entry point, with the segments painted over memory in their order. -/
theorem bootmain_settles (d : Disk) (m : Memory) (h : Kernel d.image) :
    ∃ m' mem, Settles (fun n => bootmain n d m) (.ok (some (le32 d.image 24), m')) ∧
      m'.bytes = paint (Proghdr.layer d.image) mem (loadSegments d.image) := by
  obtain ⟨m₁, hhdr, hm₁⟩ := read_header d m
  have hmagic : m₁.load32 elfHdr = elfMagic := (hm₁.load32 (k := 0) (by decide)).trans h.magic
  have hphoff : m₁.load32 (elfHdr + 28) = le32 d.image 28 := hm₁.load32 (k := 28) (by decide)
  have hphnum : m₁.load16 (elfHdr + 44) = le16 d.image 44 := hm₁.load16 (k := 44) (by decide)
  have hfit := h.headers
  have hph : elfHdr + le32 d.image 28 =
      elfHdr + BitVec.ofNat 32 ((le32 d.image 28).toNat + 32 * 0) := by simp
  have heph : elfHdr + le32 d.image 28 + 32 * (le16 d.image 44).setWidth 32 =
      elfHdr + BitVec.ofNat 32 ((le32 d.image 28).toNat + 32 * (0 + (le16 d.image 44).toNat)) := by
    bv_omega
  obtain ⟨m', hloop, hpaint, hm'⟩ := bootmain_loop (le16 d.image 44).toNat 0 hm₁
    (by rwa [Nat.zero_add]) h.placed
  have hentry : m'.load32 (elfHdr + 24) = le32 d.image 24 := hm'.load32 (k := 24) (by decide)
  rw [← hph, ← heph] at hloop
  have hrun := hloop.settles.view fun m => (some (m.load32 (elfHdr + 24)), m)
  rw [hentry] at hrun
  refine ⟨m', m₁.bytes, hhdr.bind (hrun.congr fun fuel => ?_), hpaint⟩
  rw [if_neg (not_not_intro hmagic), hphoff, hphnum]
  rfl

/-- Every segment is loaded intact exactly when the sectors that segments share agree. -/
theorem bootmain_loads_iff (d : Disk) (m : Memory) (h : Kernel d.image) :
    (∃ m', Settles (fun n => bootmain n d m) (.ok (some (le32 d.image 24), m')) ∧
      Intact d.image m'.bytes) ↔ EdgesAgree d.image := by
  obtain ⟨m', mem, hrun, hpaint⟩ := bootmain_settles d m h
  have hiff : Intact d.image (paint (Proghdr.layer d.image) mem (loadSegments d.image)) ↔
      EdgesAgree d.image := intact_iff h.placed
  rw [← hiff, ← hpaint]
  constructor
  · rintro ⟨u, hu, hintact⟩
    obtain ⟨-, rfl⟩ := Prod.mk.inj (Except.ok.inj (hu.unique hrun))
    exact hintact
  · intro hintact
    exact ⟨m', hrun, hintact⟩

/-- A disk with a kernel of two segments of 16 bytes, at 0x100000 and 0x100010 in memory and at
0x1000 and 0x2010 in the file, where only the first segment's first byte is not 0. -/
def sharedSector : Disk := fun sector j =>
  ([(0, 0x7F), (1, 0x45), (2, 0x4C), (3, 0x46), (28, 52), (44, 2),
    (57, 0x10), (66, 0x10), (68, 0x10), (72, 0x10),
    (88, 0x10), (89, 0x20), (96, 0x10), (98, 0x10), (100, 0x10), (104, 0x10),
    (0x1000, 1)].lookup ((sector - 1) * sectSize + j)).getD 0

theorem loadSegments_sharedSector : loadSegments sharedSector.image =
    [proghdr sharedSector.image 52, proghdr sharedSector.image 84] := by
  have hphnum : (le16 sharedSector.image 44).toNat = 2 := by decide
  have hphoff : (le32 sharedSector.image 28).toNat = 52 := by decide
  rw [loadSegments, proghdrs, hphnum, hphoff]
  rfl

theorem kernel_sharedSector : Kernel sharedSector.image where
  magic := by decide
  headers := by decide
  placed := by
    rw [loadSegments_sharedSector]
    intro s hs
    simp only [List.mem_cons, List.not_mem_nil, or_false] at hs
    rcases hs with rfl | rfl
    · exact ⟨by decide, by decide, by decide, by decide⟩
    · exact ⟨by decide, by decide, by decide, by decide⟩
  ordered := by
    rw [loadSegments_sharedSector]
    exact List.pairwise_pair.mpr (by decide)

theorem bootmain_loads_iff_sharedSector :
    (∃ m', Settles (fun n => bootmain n sharedSector ⟨fun _ => 0, []⟩)
        (.ok (some (le32 sharedSector.image 24), m')) ∧
      Intact sharedSector.image m'.bytes) ↔ EdgesAgree sharedSector.image :=
  bootmain_loads_iff sharedSector ⟨fun _ => 0, []⟩ kernel_sharedSector

/-- The first byte of the first segment is lost. -/
theorem bootmain_overwrites : ¬ ∀ (d : Disk) (m : Memory), Kernel d.image →
    ∃ m', Settles (fun n => bootmain n d m) (.ok (some (le32 d.image 24), m')) ∧
      Intact d.image m'.bytes := by
  intro h
  have hkernel := kernel_sharedSector
  obtain ⟨m₁, hrun₁, hintact⟩ := h sharedSector ⟨fun _ => 0, []⟩ hkernel
  obtain ⟨m₂, mem, hrun₂, hpaint⟩ := bootmain_settles sharedSector ⟨fun _ => 0, []⟩ hkernel
  obtain ⟨-, rfl⟩ := Prod.mk.inj (Except.ok.inj (hrun₁.unique hrun₂))
  rw [hpaint] at hintact
  have hedge := (intact_iff hkernel.placed).mp hintact [] _ [] _ [] loadSegments_sharedSector 0
    (by decide) (by decide) (by simp)
  exact absurd hedge (by decide)

end Jos
