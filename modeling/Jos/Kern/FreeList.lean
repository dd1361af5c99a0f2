import Jos.Inc.Mmu
import Jos.Kern.Pmap
import Jos.Prog.LinkedList

/-! The list of free pages in `kern/pmap.c`: `page_init`, and how `check_page_free_list` moves the
pages with lower addresses first. -/
namespace Jos

open Prog

/-- A pointer to an entry of `pages`, by the number of the entry; NULL is `none`. -/
abbrev PagePtr := Option (BitVec 32)

structure PageInfo where
  ppLink : PagePtr
  ppRef : BitVec 16
deriving DecidableEq, Repr

/-- The array `pages`, and `page_free_list`. -/
structure FreePages where
  pages : List PageInfo
  pageFreeList : PagePtr
deriving DecidableEq, Repr

/-- `*pp`, which must be an entry of the array. -/
def pageEntry (pages : List PageInfo) (pp : BitVec 32) : Res PageInfo :=
  match pages[pp.toNat]? with
  | some e => .ok e
  | none => .error .fault

/-! ### `page_init` -/

def pageInitBody (npages : BitVec 32) :
    BitVec 32 × FreePages → Res ((BitVec 32 × FreePages) ⊕ FreePages)
  | (i, f) =>
    if i < npages then do
      let pages ← poke f.pages i.toNat { ppLink := f.pageFreeList, ppRef := 0 }
      pure (.inl (i + 1, { pages, pageFreeList := some i }))
    else pure (.inr f)

def pageInit (fuel : ℕ) (m : Pmap) (f : FreePages) : Res FreePages :=
  loop (pageInitBody m.npages) fuel (0, f)

/-! ### `check_page_free_list` for low memory only -/

/-- A `struct PageInfo **`: the variables `pp1` and `pp2` are the heads `false` and `true`. -/
abbrev LinkPtr := LinkCell Bool (BitVec 32)

/-- The array and the locals while the list is linked anew. -/
structure Relink where
  pages : List PageInfo
  /-- `pp1` and `pp2`. -/
  heads : Bool → PagePtr
  tp : Bool → LinkPtr

/-- `*t = v`. -/
def Relink.store (s : Relink) (t : LinkPtr) (v : PagePtr) : Res Relink :=
  match t with
  | .head k => pure { s with heads := Function.update s.heads k v }
  | .link pp => do
    let e ← pageEntry s.pages pp
    let pages ← poke s.pages pp.toNat { e with ppLink := v }
    pure { s with pages }

/-- `pagetype` of the page, with the `pdx_limit` of low memory. -/
def pagetype (m : Pmap) (pp : BitVec 32) : Bool := decide (1 ≤ pdx (m.page2pa (m.page pp)))

def relinkBody (m : Pmap) : Relink × PagePtr → Res ((Relink × PagePtr) ⊕ Relink)
  | (s, none) => pure (.inr s)
  | (s, some pp) => do
    let s ← s.store (s.tp (pagetype m pp)) (some pp)
    let s := { s with tp := Function.update s.tp (pagetype m pp) (.link pp) }
    -- `pp = pp->pp_link`, after the store that may have gone to a link
    let e ← pageEntry s.pages pp
    pure (.inl (s, e.ppLink))

/-- The pages with lower addresses are moved first. `pp1` and `pp2` start with any values. -/
def relinkFreeList (fuel : ℕ) (m : Pmap) (heads : Bool → PagePtr) (f : FreePages) :
    Res FreePages := do
  let s ← loop (relinkBody m) fuel ({ pages := f.pages, heads, tp := .head }, f.pageFreeList)
  let s ← s.store (s.tp true) none
  let s ← s.store (s.tp false) (s.heads true)
  pure { pages := s.pages, pageFreeList := s.heads false }

/-- The pointer leads through the entries of `l`, each once, to NULL. -/
inductive PageList (pages : List PageInfo) : PagePtr → List (BitVec 32) → Prop
  | nil : PageList pages none []
  | cons {pp : BitVec 32} {e : PageInfo} {l : List (BitVec 32)} :
    pages[pp.toNat]? = some e → PageList pages e.ppLink l → PageList pages (some pp) (pp :: l)

/-- The page lies below 4 MB. -/
def Below4MB (pp : BitVec 32) : Prop := 4096 * pp.toNat < 4 * 2 ^ 20

instance : DecidablePred Below4MB := fun _ => inferInstanceAs (Decidable (_ < _))

/-- The pages of `l` below 4 MB, then the others, each in their order. -/
def lowFirst (l : List (BitVec 32)) : List (BitVec 32) :=
  l.filter (Below4MB ·) ++ l.filter (¬ Below4MB ·)

variable {m : Pmap} {pages pages' : List PageInfo} {f : FreePages} {s : Relink} {p v : PagePtr}
  {pp i : BitVec 32} {l done rest : List (BitVec 32)} {e : PageInfo} {t : LinkPtr}

/-! ### Links -/

/-- The link of an entry, NULL outside the array. -/
def linkOf (pages : List PageInfo) (pp : BitVec 32) : PagePtr :=
  pages[pp.toNat]?.bind PageInfo.ppLink

theorem pageList_iff :
    PageList pages p l ↔ Listed (linkOf pages) p l ∧ ∀ i ∈ l, i.toNat < pages.length := by
  constructor
  · intro h
    induction h with
    | nil => exact ⟨.nil, fun i hi => nomatch hi⟩
    | @cons pp e l he _ ih =>
      have hlink : linkOf pages pp = e.ppLink := by rw [linkOf, he, Option.bind_some]
      refine ⟨.cons (hlink ▸ ih.1), fun i hi => ?_⟩
      rcases List.mem_cons.mp hi with rfl | hi
      · exact (List.getElem?_eq_some_iff.mp he).1
      · exact ih.2 i hi
  · rintro ⟨h, hin⟩
    induction h with
    | nil => exact .nil
    | @cons i l _ ih =>
      obtain ⟨e, he⟩ : ∃ e, pages[i.toNat]? = some e :=
        ⟨_, List.getElem?_eq_getElem (hin i List.mem_cons_self)⟩
      refine .cons he ?_
      have hlink : linkOf pages i = e.ppLink := by rw [linkOf, he, Option.bind_some]
      exact hlink ▸ ih fun j hj => hin j (List.mem_cons_of_mem i hj)

theorem PageList.nodup (h : PageList pages p l) : l.Nodup := (pageList_iff.mp h).1.nodup

theorem pageEntry_of_lt (h : pp.toNat < pages.length) :
    pageEntry pages pp = .ok pages[pp.toNat] := by
  rw [pageEntry, List.getElem?_eq_getElem h]

theorem linkOf_set_self (h : pp.toNat < pages.length) :
    linkOf (pages.set pp.toNat e) pp = e.ppLink := by
  rw [linkOf, List.getElem?_set_self h, Option.bind_some]

theorem linkOf_set_of_ne (h : i ≠ pp) : linkOf (pages.set pp.toNat e) i = linkOf pages i := by
  have hne : pp.toNat ≠ i.toNat := fun he => h (BitVec.eq_of_toNat_eq he).symm
  rw [linkOf, List.getElem?_set_ne hne, linkOf]

/-! ### All pages on the list -/

/-- The pages before `i` are on the list. -/
def PagesBefore (n : ℕ) (i : BitVec 32) (f : FreePages) : Prop :=
  f.pages.length = n ∧ ∃ l, PageList f.pages f.pageFreeList l ∧ ∀ j, j ∈ l ↔ j < i

/-- An entry that is not on the list is put before it. -/
theorem PageList.push (h : PageList pages p l) (hlt : pp.toNat < pages.length) (hpp : pp ∉ l)
    (he : e.ppLink = p) : PageList (pages.set pp.toNat e) (some pp) (pp :: l) := by
  obtain ⟨hlist, hin⟩ := pageList_iff.mp h
  refine pageList_iff.mpr ⟨.cons ?_, fun i hi => ?_⟩
  · rw [linkOf_set_self hlt, he]
    refine hlist.congr fun i hi => linkOf_set_of_ne fun hne => ?_
    exact hpp (hne ▸ hi)
  · rw [List.length_set]
    rcases List.mem_cons.mp hi with rfl | hi
    · exact hlt
    · exact hin i hi

theorem pagesBefore_step (h : PagesBefore m.npages.toNat i f) (hi : i < m.npages) :
    ∃ f', pageInitBody m.npages (i, f) = .ok (.inl (i + 1, f')) ∧
      PagesBefore m.npages.toNat (i + 1) f' := by
  obtain ⟨hlen, l, hl, hmem⟩ := h
  have hlt : i.toNat < f.pages.length := hlen ▸ hi
  have hbody : pageInitBody m.npages (i, f) = .ok (.inl (i + 1,
      ⟨f.pages.set i.toNat ⟨f.pageFreeList, 0⟩, some i⟩)) := by
    rw [pageInitBody, if_pos hi, poke, if_pos hlt]
    rfl
  refine ⟨_, hbody, ?_, i :: l, ?_, fun j => ?_⟩
  · rw [List.length_set, hlen]
  · exact hl.push hlt (fun hin => absurd ((hmem i).mp hin) (BitVec.lt_irrefl i)) rfl
  · rw [List.mem_cons, hmem j]
    bv_omega

theorem pageInit_settles (h : f.pages.length = m.npages.toNat) (hf : f.pageFreeList = none) :
    ∃ f', Settles (fun n => pageInit n m f) (.ok f') ∧
      PagesBefore m.npages.toNat m.npages f' := by
  let inv : BitVec 32 × FreePages → Prop := fun s =>
    s.1 ≤ m.npages ∧ PagesBefore m.npages.toNat s.1 s.2
  have hstart : inv (0, f) := by
    refine ⟨BitVec.le_def.mpr (Nat.zero_le _), h, [], hf ▸ .nil, fun j => ?_⟩
    exact iff_of_false List.not_mem_nil BitVec.not_lt_zero
  let left : BitVec 32 × FreePages → ℕ := fun s => m.npages.toNat - s.1.toNat
  have hpass : ∀ s, inv s → Total (Sum.elim (fun t => inv t ∧ left t < left s)
      (PagesBefore m.npages.toNat m.npages)) (pageInitBody m.npages s) := by
    rintro ⟨i, f⟩ ⟨hle, hbefore⟩
    by_cases hi : i < m.npages
    · obtain ⟨f', hbody, hnext⟩ := pagesBefore_step hbefore hi
      have hsucc : (i + 1).toNat = i.toNat + 1 := by bv_omega
      rw [hbody]
      refine ⟨⟨?_, hnext⟩, ?_⟩
      · exact BitVec.le_def.mpr (hsucc ▸ hi)
      · change m.npages.toNat - (i + 1).toNat < m.npages.toNat - i.toNat
        rw [hsucc]
        exact Nat.sub_succ_lt_self _ _ hi
    · have hend : i = m.npages := BitVec.le_antisymm hle (BitVec.not_lt.mp hi)
      rw [pageInitBody, if_neg hi]
      exact hend ▸ hbefore
  obtain ⟨f', hf', hrun⟩ := loop_settles left hpass hstart
  exact ⟨f', hrun, hf'⟩

/-! ### The cells while the list is linked anew -/

namespace Relink

/-- What the cell holds. -/
def val (s : Relink) : LinkPtr → PagePtr
  | .head k => s.heads k
  | .link pp => linkOf s.pages pp

theorem store_ok (s : Relink) (v : PagePtr)
    (ht : ∀ pp, t = .link pp → pp.toNat < s.pages.length) :
    ∃ s', s.store t v = .ok s' ∧ s'.val = Function.update s.val t v ∧ s'.tp = s.tp ∧
      s'.pages.length = s.pages.length := by
  cases t with
  | head k =>
    refine ⟨_, rfl, ?_, rfl, rfl⟩
    funext x
    cases x with
    | head k' => simp only [val, Function.update_apply, LinkCell.head.injEq]
    | link pp =>
      rw [Function.update_of_ne (LinkCell.link_ne_head k pp)]
      rfl
  | link pp =>
    have hlt := ht pp rfl
    refine ⟨{ s with pages := s.pages.set pp.toNat { s.pages[pp.toNat] with ppLink := v } },
      ?_, ?_, rfl, List.length_set⟩
    · rw [store, pageEntry_of_lt hlt, ok_bind, poke, if_pos hlt]
      rfl
    · funext x
      cases x with
      | head k =>
        rw [Function.update_of_ne (LinkCell.head_ne_link k pp)]
        rfl
      | link i =>
        by_cases hi : i = pp
        · subst hi
          rw [Function.update_self]
          exact linkOf_set_self hlt
        · have hne : LinkCell.link i ≠ (LinkCell.link pp : LinkPtr) := fun he =>
            hi (LinkCell.link.inj he)
          rw [Function.update_of_ne hne]
          exact linkOf_set_of_ne hi

end Relink

/-- The pages of `done` are linked by their type, those of `rest` are still to come. -/
structure Relinks (m : Pmap) (s : Relink) (p : PagePtr) (done rest : List (BitVec 32)) : Prop where
  splits : Splits (pagetype m) s.val s.tp p done rest
  inside : ∀ i ∈ done ++ rest, i.toNat < s.pages.length

theorem Relinks.tp_inside {k : Bool} (h : Relinks m s p done rest) (hpp : s.tp k = .link pp) :
    pp.toNat < s.pages.length := by
  rcases h.splits.tp_cases k with ht | ⟨i, hi, -, ht⟩
  · exact absurd (ht.symm.trans hpp) (LinkCell.head_ne_link k pp)
  · obtain rfl := LinkCell.link.inj (ht.symm.trans hpp)
    exact h.inside i (List.mem_append_left rest hi)

/-- The store through a tail pointer. -/
theorem Relinks.store_ok (h : Relinks m s p done rest) (k : Bool) (v : PagePtr) :
    ∃ s', s.store (s.tp k) v = .ok s' ∧ s'.val = Function.update s.val (s.tp k) v ∧
      s'.tp = s.tp ∧ s'.pages.length = s.pages.length :=
  s.store_ok v fun _ hpp => h.tp_inside hpp

theorem Relinks.step (h : Relinks m s (some pp) done rest) :
    ∃ s' p' rest', rest = pp :: rest' ∧ relinkBody m (s, some pp) = .ok (.inl (s', p')) ∧
      Relinks m s' p' (done ++ [pp]) rest' := by
  obtain ⟨s', hstore, hval, htp, hlen⟩ := h.store_ok (pagetype m pp) (some pp)
  obtain ⟨rest', hrest, hsplits⟩ := h.splits.step hval
  subst hrest
  have hinside : ∀ i ∈ done ++ [pp] ++ rest', i.toNat < s'.pages.length := by
    rw [List.append_assoc, hlen]
    exact h.inside
  have hpp := hinside pp (by simp)
  have hbody : relinkBody m (s, some pp) = .ok (.inl
      ({ s' with tp := Function.update s.tp (pagetype m pp) (.link pp) },
        s'.pages[pp.toNat].ppLink)) := by
    rw [relinkBody, hstore, ok_bind]
    change pageEntry s'.pages pp >>= _ = _
    rw [pageEntry_of_lt hpp, ok_bind, htp]
    rfl
  have hlink : s'.val (.link pp) = s'.pages[pp.toNat].ppLink := by
    change linkOf s'.pages pp = _
    rw [linkOf, List.getElem?_eq_getElem hpp, Option.bind_some]
  exact ⟨_, _, rest', rfl, hbody, ⟨hlink ▸ hsplits, hinside⟩⟩

theorem Relinks.run (h : Relinks m s p done rest) :
    ∃ s', Settles (fun n => loop (relinkBody m) n (s, p)) (.ok s') ∧
      Relinks m s' none (done ++ rest) [] := by
  induction rest generalizing s p done with
  | nil =>
    obtain rfl : p = none := by
      generalize hr : ([] : List (BitVec 32)) = r at h
      cases p with
      | none => rfl
      | some pp =>
        obtain ⟨_, _, rest', hrest, -⟩ := h.step
        exact nomatch hr.trans hrest
    rw [List.append_nil]
    exact ⟨s, .loop_exit rfl, h⟩
  | cons i rest ih =>
    cases p with
    | none => exact nomatch h.splits.listed
    | some pp =>
      obtain ⟨s', p', rest', hrest, hbody, hnext⟩ := h.step
      obtain ⟨rfl, rfl⟩ := List.cons.inj hrest
      obtain ⟨s'', hrun, hend⟩ := ih hnext
      rw [List.append_assoc] at hend
      exact ⟨s'', .loop_next hbody hrun, hend⟩

/-- The list is that of `pp1` with that of `pp2` behind it. -/
theorem relinkFreeList_settles (heads : Bool → PagePtr) (h : PageList f.pages f.pageFreeList l) :
    ∃ f', Settles (fun n => relinkFreeList n m heads f) (.ok f') ∧
      PageList f'.pages f'.pageFreeList
        ((l.filter fun i => pagetype m i = false) ++ l.filter fun i => pagetype m i = true) := by
  obtain ⟨hlist, hin⟩ := pageList_iff.mp h
  have hstart : Relinks m ⟨f.pages, heads, .head⟩ f.pageFreeList [] l := ⟨.start hlist, hin⟩
  obtain ⟨s, hloop, hs⟩ := hstart.run
  rw [List.nil_append] at hs
  obtain ⟨s₁, hstore₁, hval₁, htp₁, hlen₁⟩ := hs.store_ok true none
  have hin₁ : ∀ pp, s₁.tp false = .link pp → pp.toNat < s₁.pages.length := by
    rw [htp₁, hlen₁]
    exact fun pp hpp => hs.tp_inside hpp
  obtain ⟨s₂, hstore₂, hval₂, -, hlen₂⟩ := s₁.store_ok (s₁.heads true) hin₁
  rw [htp₁] at hval₂
  have hjoin := hs.splits.join Bool.false_ne_true hval₁ hval₂
  refine ⟨⟨s₂.pages, s₂.heads false⟩, ?_, pageList_iff.mpr ⟨hjoin, fun i hi => ?_⟩⟩
  · refine hloop.bind ((Settles.const _).congr fun n => ?_)
    rw [hstore₁, ok_bind, hstore₂, ok_bind]
    rfl
  · rw [hlen₂, hlen₁]
    refine hs.inside i (List.mem_append_left [] ?_)
    rcases List.mem_append.mp hi with hi | hi
    · exact (List.mem_filter.mp hi).1
    · exact (List.mem_filter.mp hi).1

/-! ### The two groups -/

theorem pagetype_iff (hi : i.toNat < 2 ^ 20) : pagetype m i = true ↔ ¬ Below4MB i := by
  have hpdx : (pdx (m.page2pa (m.page i))).toNat = 4096 * i.toNat / 2 ^ 22 := by
    rw [toNat_pdx, Pmap.page2pa_page hi, Pmap.toNat_shiftLeft_pgShift hi]
  rw [pagetype, decide_eq_true_eq, BitVec.le_def, hpdx, Below4MB]
  change 1 ≤ _ ↔ _
  omega

theorem lowFirst_perm (l : List (BitVec 32)) : (lowFirst l).Perm l := by
  have hnot : l.filter (¬ Below4MB ·) = l.filter (fun i => !decide (Below4MB i)) :=
    List.filter_congr fun i _ => decide_not
  rw [lowFirst, hnot]
  exact List.filter_append_perm _ l

theorem filter_pagetype (hin : ∀ i ∈ l, i.toNat < 2 ^ 20) :
    (l.filter fun i => pagetype m i = false) ++ (l.filter fun i => pagetype m i = true) =
      lowFirst l := by
  have hlow : (l.filter fun i => pagetype m i = false) = l.filter (Below4MB ·) := by
    refine List.filter_congr fun i hi => ?_
    rw [decide_eq_decide, ← Bool.not_eq_true, pagetype_iff (hin i hi), not_not]
  have hhigh : (l.filter fun i => pagetype m i = true) = l.filter (¬ Below4MB ·) := by
    refine List.filter_congr fun i hi => ?_
    rw [decide_eq_decide, pagetype_iff (hin i hi)]
  rw [hlow, hhigh, lowFirst]

/-- `page_init` puts every page on the free list once, and the pages below 4 MB are moved before
the others without any loss. -/
theorem free_list_partition (m : Pmap) (f : FreePages) (hmax : m.npages.toNat ≤ 2 ^ 20)
    (hlen : f.pages.length = m.npages.toNat) :
    (f.pageFreeList = none → ∃ f' l, Settles (fun n => pageInit n m f) (.ok f') ∧
      PageList f'.pages f'.pageFreeList l ∧ l.Nodup ∧ ∀ i, i ∈ l ↔ i < m.npages) ∧
    ∀ heads l, PageList f.pages f.pageFreeList l →
      ∃ f', Settles (fun n => relinkFreeList n m heads f) (.ok f') ∧
        PageList f'.pages f'.pageFreeList (lowFirst l) ∧ (lowFirst l).Nodup ∧ (lowFirst l).Perm l := by
  refine ⟨fun hf => ?_, fun heads l hl => ?_⟩
  · obtain ⟨f', hrun, -, l, hl, hmem⟩ := pageInit_settles hlen hf
    exact ⟨f', l, hrun, hl, hl.nodup, hmem⟩
  · have hin : ∀ i ∈ l, i.toNat < 2 ^ 20 := fun i hi => by
      have hi := (pageList_iff.mp hl).2 i hi
      omega
    obtain ⟨f', hrun, hpages⟩ := relinkFreeList_settles (m := m) heads hl
    rw [filter_pagetype hin] at hpages
    exact ⟨f', hrun, hpages, hpages.nodup, lowFirst_perm l⟩

/-- The first page above 4 MB, and the first of all behind it. -/
def twoFree : FreePages where
  pages := List.replicate 1024 ⟨none, 0⟩ ++ [⟨some 0, 0⟩]
  pageFreeList := some 1024

theorem twoFree_length : twoFree.pages.length = 1025 := by
  rw [twoFree, List.length_append, List.length_replicate, List.length_singleton]

theorem twoFree_pageList : PageList twoFree.pages twoFree.pageFreeList [1024, 0] := by
  have hsize : (List.replicate 1024 (⟨none, 0⟩ : PageInfo)).length = 1024 := List.length_replicate
  have hlast : twoFree.pages[1024]? = some ⟨some 0, 0⟩ := by
    rw [twoFree, List.getElem?_append_right (Nat.le_of_eq hsize), hsize]
    rfl
  have hfirst : twoFree.pages[0]? = some ⟨none, 0⟩ := by
    rw [twoFree, List.getElem?_append_left (by rw [hsize]; decide)]
    exact List.getElem?_replicate_of_lt (by decide)
  exact .cons hlast (.cons hfirst .nil)

/-- All of 1025 pages are put on the list, and the first page comes before one above 4 MB. -/
theorem free_list_partition_first :
    (∃ f' l, Settles (fun n => pageInit n ⟨1025, 0, 0⟩ ⟨List.replicate 1025 ⟨none, 1⟩, none⟩)
      (.ok f') ∧ PageList f'.pages f'.pageFreeList l ∧ l.Nodup ∧ ∀ i, i ∈ l ↔ i < 1025) ∧
    ∃ f', Settles (fun n => relinkFreeList n ⟨1025, 0, 0⟩ (fun _ => none) twoFree) (.ok f') ∧
      PageList f'.pages f'.pageFreeList [0, 1024] := by
  constructor
  · exact (free_list_partition ⟨1025, 0, 0⟩ ⟨List.replicate 1025 ⟨none, 1⟩, none⟩ (by decide)
      List.length_replicate).1 rfl
  · obtain ⟨f', hrun, hpages, -⟩ := (free_list_partition ⟨1025, 0, 0⟩ twoFree (by decide)
      twoFree_length).2 (fun _ => none) [1024, 0] twoFree_pageList
    have hfirst : lowFirst [1024, 0] = [0, 1024] := by decide
    exact ⟨f', hrun, hfirst ▸ hpages⟩

end Jos
