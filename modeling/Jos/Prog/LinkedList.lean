import Mathlib.Logic.Function.Basic
import Mathlib.Tactic.Common

/-!
Linked lists that are cut up and joined in place. A cell is a variable or the link of a node; a
list is what the links lead to. Nothing here depends on the program that is verified.
-/
namespace Prog

universe u v

/-- What holds a pointer to a node: one of the variables, or the link of a node. -/
inductive LinkCell (κ : Type u) (α : Type v) where
  | head (k : κ)
  | link (i : α)
deriving DecidableEq, Repr

/-- The nodes of `l` one after the other, from a pointer to the first up to the end. -/
inductive Listed {α : Type v} (next : α → Option α) : Option α → List α → Prop
  | nil : Listed next none []
  | cons {i : α} {l : List α} : Listed next (next i) l → Listed next (some i) (i :: l)

/-- From the one cell, the links lead through the nodes of `l` to the other. -/
inductive Leads {κ : Type u} {α : Type v} (val : LinkCell κ α → Option α) :
    LinkCell κ α → List α → LinkCell κ α → Prop
  | nil (s : LinkCell κ α) : Leads val s [] s
  | cons {s t : LinkCell κ α} {i : α} {l : List α} :
    val s = some i → Leads val (.link i) l t → Leads val s (i :: l) t

variable {κ : Type u} {α : Type v} {next next' : α → Option α} {p : Option α} {i : α}
  {l l' : List α} {val : LinkCell κ α → Option α} {s t x : LinkCell κ α} {v : Option α}

@[simp] theorem LinkCell.head_ne_link (k : κ) (i : α) : head k ≠ link i := nofun

@[simp] theorem LinkCell.link_ne_head (k : κ) (i : α) : link i ≠ head k := nofun

/-! ### Lists -/

theorem Listed.unique (h : Listed next p l) (h' : Listed next p l') : l = l' := by
  induction h generalizing l' with
  | nil =>
    cases h'
    rfl
  | cons _ ih =>
    cases h' with
    | cons h' => rw [ih h']

theorem Listed.suffix (h : Listed next p (l ++ i :: l')) : Listed next (next i) l' := by
  induction l generalizing p with
  | nil =>
    cases h with
    | cons h => exact h
  | cons j l ih =>
    cases h with
    | cons h => exact ih h

/-- A list that ends does not come back to a node. -/
theorem Listed.nodup (h : Listed next p l) : l.Nodup := by
  induction h with
  | nil => exact List.nodup_nil
  | @cons i l h ih =>
    refine List.nodup_cons.mpr ⟨fun hi => ?_, ih⟩
    obtain ⟨before, after, hl⟩ := List.append_of_mem hi
    have hafter : Listed next (next i) after := (hl ▸ h).suffix
    have hlen := congrArg List.length (hafter.unique h)
    rw [hl, List.length_append, List.length_cons] at hlen
    omega

theorem Listed.congr (h : Listed next p l) (hn : ∀ i ∈ l, next' i = next i) :
    Listed next' p l := by
  induction h with
  | nil => exact .nil
  | @cons i l _ ih =>
    refine .cons ?_
    rw [hn i List.mem_cons_self]
    exact ih fun j hj => hn j (List.mem_cons_of_mem i hj)

/-! ### Cells -/

theorem Leads.snoc (h : Leads val s l t) (ht : val t = some i) :
    Leads val s (l ++ [i]) (.link i) := by
  induction h with
  | nil s => exact .cons ht (.nil _)
  | cons hs _ ih => exact .cons hs (ih ht)

theorem Leads.listed (h : Leads val s l t) (ht : Listed (fun i => val (.link i)) (val t) l') :
    Listed (fun i => val (.link i)) (val s) (l ++ l') := by
  induction h with
  | nil s => exact ht
  | cons hs _ ih =>
    rw [hs]
    exact .cons (ih ht)

theorem Leads.end_cases (h : Leads val s l t) : t = s ∨ ∃ i ∈ l, t = .link i := by
  induction h with
  | nil s => exact .inl rfl
  | @cons s t i l _ _ ih =>
    right
    rcases ih with rfl | ⟨j, hj, rfl⟩
    · exact ⟨i, List.mem_cons_self, rfl⟩
    · exact ⟨j, List.mem_cons_of_mem i hj, rfl⟩

section Stores

variable [DecidableEq κ] [DecidableEq α]

/-- A store to any other cell. -/
theorem Leads.frame (h : Leads val s l t) (hs : x ≠ s) (hl : ∀ i ∈ l, x ≠ .link i) :
    Leads (Function.update val x v) s l t := by
  induction h with
  | nil s => exact .nil s
  | @cons s t i l hval _ ih =>
    refine .cons ?_ (ih (hl i List.mem_cons_self) fun j hj => hl j (List.mem_cons_of_mem i hj))
    rw [Function.update_of_ne hs.symm, hval]

/-- A store to the cell at the end, which holds no part of the list. -/
theorem Leads.store (h : Leads val s l t) (hs : ∀ i ∈ l, s ≠ .link i) (hl : l.Nodup) :
    Leads (Function.update val t v) s l t := by
  induction h with
  | nil s => exact .nil s
  | @cons s t i l hval h ih =>
    obtain ⟨hi, hl⟩ := List.nodup_cons.mp hl
    have hne : s ≠ t := by
      rcases h.end_cases with rfl | ⟨j, hj, rfl⟩
      · exact hs i List.mem_cons_self
      · exact hs j (List.mem_cons_of_mem i hj)
    refine .cons ?_ (ih ?_ hl)
    · rw [Function.update_of_ne hne, hval]
    · intro j hj hij
      obtain rfl := LinkCell.link.inj hij
      exact hi hj

end Stores

/-! ### A list that is split in place -/

/-- The nodes of `done` are linked by their kind, each kind from its variable up to the cell `tp`
of the kind; `rest` is still to come. -/
structure Splits [DecidableEq κ] (kind : α → κ) (val : LinkCell κ α → Option α)
    (tp : κ → LinkCell κ α) (p : Option α) (done rest : List α) : Prop where
  leads : ∀ k, Leads val (.head k) (done.filter fun i => kind i = k) (tp k)
  listed : Listed (fun i => val (.link i)) p rest
  nodup : (done ++ rest).Nodup

variable [DecidableEq κ] {kind : α → κ} {tp : κ → LinkCell κ α} {done rest : List α}

theorem Splits.start (h : Listed (fun i => val (.link i)) p l) :
    Splits kind val .head p [] l :=
  ⟨fun _ => .nil _, h, h.nodup⟩

theorem Splits.nodup_kind (h : Splits kind val tp p done rest) (k : κ) :
    (done.filter fun i => kind i = k).Nodup :=
  List.filter_sublist.nodup (List.nodup_append.mp h.nodup).1

theorem Splits.tp_cases (h : Splits kind val tp p done rest) (k : κ) :
    tp k = .head k ∨ ∃ i ∈ done, kind i = k ∧ tp k = .link i := by
  rcases (h.leads k).end_cases with ht | ⟨i, hi, ht⟩
  · exact .inl ht
  · rw [List.mem_filter, decide_eq_true_eq] at hi
    exact .inr ⟨i, hi.1, hi.2, ht⟩

theorem Splits.tp_ne_link {k : κ} (h : Splits kind val tp p done rest) (hi : kind i ≠ k) :
    tp k ≠ .link i := by
  rcases h.tp_cases k with ht | ⟨j, -, hj, ht⟩ <;> rw [ht]
  · exact LinkCell.head_ne_link k i
  · intro he
    obtain rfl := LinkCell.link.inj he
    exact hi hj

/-- The links of the nodes that are still to come are not stored to. -/
theorem Splits.link_ne {k : κ} (h : Splits kind val tp p done rest) (hi : i ∈ rest) :
    LinkCell.link i ≠ tp k := by
  rcases h.tp_cases k with ht | ⟨j, hj, -, ht⟩ <;> rw [ht]
  · exact LinkCell.link_ne_head k i
  · intro he
    obtain rfl := LinkCell.link.inj he
    exact (List.nodup_append.mp h.nodup).2.2 _ hj _ hi rfl

variable [DecidableEq α]

/-- The list of one kind, after a store at the end of the list of another. -/
theorem Splits.frame {k k' : κ} (h : Splits kind val tp p done rest) (hk : k' ≠ k) :
    Leads (Function.update val (tp k) v) (.head k') (done.filter fun i => kind i = k') (tp k') := by
  refine (h.leads k').frame ?_ fun i hi => ?_
  · rcases h.tp_cases k with ht | ⟨i, -, -, ht⟩ <;> rw [ht]
    · exact fun he => hk (LinkCell.head.inj he).symm
    · exact LinkCell.link_ne_head k' i
  · rw [List.mem_filter, decide_eq_true_eq] at hi
    exact h.tp_ne_link (hi.2 ▸ hk)

theorem Splits.store {k : κ} (h : Splits kind val tp p done rest) :
    Leads (Function.update val (tp k) v) (.head k) (done.filter fun i => kind i = k) (tp k) :=
  (h.leads k).store (fun i _ => LinkCell.head_ne_link _ i) (h.nodup_kind k)

/-- The next node is put at the end of its kind, and its own link becomes that end. The link is
read after the store, which has not changed it. -/
theorem Splits.step {val' : LinkCell κ α → Option α}
    (h : Splits kind val tp (some i) done rest)
    (hval : val' = Function.update val (tp (kind i)) (some i)) :
    ∃ rest', rest = i :: rest' ∧ Splits kind val' (Function.update tp (kind i) (.link i))
      (val' (.link i)) (done ++ [i]) rest' := by
  obtain ⟨rest', rfl, hnext⟩ :
      ∃ rest', rest = i :: rest' ∧ Listed (fun i => val (.link i)) (val (.link i)) rest' := by
    generalize hp : some i = p at h
    cases h.listed with
    | nil => cases hp
    | cons hr =>
      obtain rfl := Option.some.inj hp
      exact ⟨_, rfl, hr⟩
  have hkeep : ∀ j ∈ i :: rest', val' (.link j) = val (.link j) := fun j hj => by
    rw [hval, Function.update_of_ne (h.link_ne hj)]
  refine ⟨rest', rfl, fun k => ?_, ?_, ?_⟩
  · rw [List.filter_append, hval]
    by_cases hk : kind i = k
    · subst hk
      rw [Function.update_self, List.filter_cons_of_pos (by simp), List.filter_nil]
      exact h.store.snoc (Function.update_self ..)
    · have hk' : k ≠ kind i := fun he => hk he.symm
      rw [Function.update_of_ne hk', List.filter_cons_of_neg (by simp [hk]), List.filter_nil,
        List.append_nil]
      exact h.frame hk'
  · rw [hkeep i List.mem_cons_self]
    exact hnext.congr fun j hj => hkeep j (List.mem_cons_of_mem i hj)
  · rw [List.append_assoc]
    exact h.nodup

/-- The list of `b` is ended, and put behind the list of `a`. -/
theorem Splits.join {a b : κ} (h : Splits kind val tp p done []) (hab : a ≠ b)
    {val₁ val₂ : LinkCell κ α → Option α} (h₁ : val₁ = Function.update val (tp b) none)
    (h₂ : val₂ = Function.update val₁ (tp a) (val₁ (.head b))) :
    Listed (fun i => val₂ (.link i)) (val₂ (.head a))
      ((done.filter fun i => kind i = a) ++ done.filter fun i => kind i = b) := by
  have hb : Listed (fun i => val₁ (.link i)) (val₁ (.head b))
      (done.filter fun i => kind i = b) := by
    have hleads := h.store (v := none) (k := b)
    rw [← h₁] at hleads
    have hend : val₁ (tp b) = none := by rw [h₁, Function.update_self]
    have hlist := hleads.listed (hend ▸ Listed.nil)
    rwa [List.append_nil] at hlist
  have ha : Leads val₂ (.head a) (done.filter fun i => kind i = a) (tp a) := by
    have hleads := h.frame (v := none) hab
    rw [← h₁] at hleads
    rw [h₂]
    exact hleads.store (fun i _ => LinkCell.head_ne_link _ i) (h.nodup_kind a)
  refine ha.listed ?_
  rw [h₂, Function.update_self]
  refine hb.congr fun i hi => ?_
  rw [List.mem_filter, decide_eq_true_eq] at hi
  exact Function.update_of_ne (h.tp_ne_link (hi.2 ▸ hab.symm)).symm ..

end Prog
