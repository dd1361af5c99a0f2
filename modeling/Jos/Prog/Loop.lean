import Mathlib.Algebra.Group.Nat.Defs
import Mathlib.Tactic.Common

/-!
Results of a run that may stop early, and loops that are given a bound on their
passes. Nothing here depends on the program that is verified.
-/
namespace Prog

universe u

/-- Why a run stops without a result. -/
inductive Stop where
  /-- An access outside its object, or an argument of the wrong type. -/
  | fault
  /-- The program gave up by itself, with a message. -/
  | panic (message : String)
  /-- The bound on the passes of a loop was reached. -/
  | fuel
deriving DecidableEq, Repr

abbrev Res := Except Stop

variable {α β γ σ ρ : Type u} {x y : Res α} {f g : α → Res β} {P Q : α → Prop}

@[simp] theorem pure_eq_ok (a : α) : (pure a : Res α) = .ok a := rfl

@[simp] theorem ok_bind (a : α) (f : α → Res β) : (Except.ok a >>= f : Res β) = f a := rfl

@[simp] theorem error_bind (e : Stop) (f : α → Res β) :
    (Except.error e >>= f : Res β) = .error e := rfl

theorem bind_eq_ok {b : β} : x >>= f = .ok b ↔ ∃ a, x = .ok a ∧ f a = .ok b := by
  cases x <;> simp

theorem bind_assoc_ok (x : Res α) (f : α → Res β) (h : β → Res γ) :
    (x >>= f) >>= h = x >>= fun a => f a >>= h := by
  cases x <;> rfl

/-! ### Total correctness -/

/-- Total correctness: the run ends with a result that satisfies `P`. -/
def Total (P : α → Prop) : Res α → Prop
  | .ok a => P a
  | .error _ => False

@[simp] theorem total_ok {a : α} : Total P (.ok a) ↔ P a := Iff.rfl

@[simp] theorem total_error {e : Stop} : ¬ Total P (.error e) := id

theorem total_iff : Total P x ↔ ∃ a, x = .ok a ∧ P a := by
  cases x <;> simp

theorem Total.bind {R : β → Prop} (h : Total P x) (hf : ∀ a, P a → Total R (f a)) :
    Total R (x >>= f) := by
  cases x with
  | ok a => exact hf a h
  | error e => exact h.elim

/-! ### More fuel changes nothing once a run has ended -/

/-- `x` is what `y` computes, cut off earlier. -/
def Approx (x y : Res α) : Prop := x = .error .fuel ∨ x = y

theorem Approx.refl (x : Res α) : Approx x x := .inr rfl

theorem Approx.eq_of_ne (h : Approx x y) (hx : x ≠ .error .fuel) : y = x :=
  (h.resolve_left hx).symm

theorem Approx.bind (hx : Approx x y) (hf : ∀ a, Approx (f a) (g a)) :
    Approx (x >>= f) (y >>= g) := by
  rcases hx with rfl | rfl
  · exact .inl rfl
  · cases x with
    | ok a => exact hf a
    | error e => exact .inr rfl

/-! ### Loops -/

/-- Repeat `body` until it leaves the loop with a result, at most `n` times. -/
def loop (body : σ → Res (σ ⊕ ρ)) : ℕ → σ → Res ρ
  | 0, _ => .error .fuel
  | n + 1, s => do
    match ← body s with
    | .inl t => loop body n t
    | .inr r => pure r

variable {body body' : σ → Res (σ ⊕ ρ)} {I : σ → Prop} {R : ρ → Prop} {s t : σ} {n m : ℕ}

theorem loop_of_inl (h : body s = .ok (.inl t)) : loop body (n + 1) s = loop body n t := by
  simp [loop, h]

theorem loop_of_inr {r : ρ} (h : body s = .ok (.inr r)) : loop body (n + 1) s = .ok r := by
  simp [loop, h]

theorem loop_of_error {e : Stop} (h : body s = .error e) : loop body (n + 1) s = .error e := by
  simp [loop, h]

/-- A loop whose body keeps `I` and lowers `μ` ends, given more passes than `μ` allows. -/
theorem loop_total (μ : σ → ℕ)
    (h : ∀ s, I s → Total (Sum.elim (fun t => I t ∧ μ t < μ s) R) (body s))
    (hs : I s) (hn : μ s < n) : Total R (loop body n s) := by
  induction n generalizing s with
  | zero => omega
  | succ n ih =>
    refine (h s hs).bind fun u hu => ?_
    cases u with
    | inl t => exact ih hu.1 (by have := hu.2; omega)
    | inr r => exact hu

/-- What `body` keeps holds at the end, however many passes there are. -/
theorem loop_partial {r : ρ} (h : ∀ s u, I s → body s = .ok u → Sum.elim I R u) (hs : I s)
    (hr : loop body n s = .ok r) : R r := by
  induction n generalizing s with
  | zero => cases hr
  | succ n ih =>
    obtain ⟨u, hu, hrest⟩ := bind_eq_ok.mp hr
    cases u with
    | inl t => exact ih (h s _ hs hu) hrest
    | inr r' =>
      obtain rfl := Except.ok.inj hrest
      exact h s _ hs hu

/-- Bodies that agree as long as `I` holds make the same loop. -/
theorem loop_congr (h : ∀ s, I s → body' s = body s)
    (hstep : ∀ s t, I s → body s = .ok (.inl t) → I t) (hs : I s) (n : ℕ) :
    loop body' n s = loop body n s := by
  induction n generalizing s with
  | zero => rfl
  | succ n ih =>
    rw [loop, loop, h s hs]
    cases hb : body s with
    | error e => rfl
    | ok u =>
      cases u with
      | inl t => exact ih (hstep s t hs hb)
      | inr r => rfl

theorem loop_approx (h : ∀ s, Approx (body s) (body' s)) (hnm : n ≤ m) (s : σ) :
    Approx (loop body n s) (loop body' m s) := by
  induction n generalizing s m with
  | zero => exact .inl rfl
  | succ n ih =>
    obtain ⟨m, rfl⟩ : ∃ k, m = k + 1 := ⟨m - 1, by omega⟩
    refine (h s).bind fun u => ?_
    cases u with
    | inl t => exact ih (by omega) t
    | inr r => exact .refl _

theorem loop_mono {r : ρ} (h : loop body n s = .ok r) (hnm : n ≤ m) :
    loop body m s = .ok r := by
  have ha := loop_approx (fun s => Approx.refl (body s)) hnm s
  rw [ha.eq_of_ne (by simp [h]), h]

/-! ### The same run on another representation -/

/-- The result of `x`, seen through `h`. -/
def view (h : α → β) (x : Res α) : Res β := x >>= fun a => .ok (h a)

@[simp] theorem view_ok (h : α → β) (a : α) : view h (.ok a) = .ok (h a) := rfl

@[simp] theorem view_id (x : Res α) : view id x = x := by
  cases x <;> rfl

theorem view_bind (h : β → γ) (x : Res α) (f : α → Res β) :
    view h (x >>= f) = x >>= fun a => view h (f a) := by
  cases x <;> rfl

theorem bind_view {h : α → β} (x : Res α) (f : β → Res γ) :
    view h x >>= f = x >>= fun a => f (h a) := by
  cases x <;> rfl

theorem bind_eq_view {h : β → γ} {x : Res α} {f : α → Res β} {g : α → Res γ}
    (hfg : ∀ a, g a = view h (f a)) : x >>= g = view h (x >>= f) := by
  cases x with
  | ok a => exact hfg a
  | error e => rfl

theorem view_bind_eq_view {δ : Type u} {h : β → γ} {k : α → δ} {x : Res α} {f : α → Res β}
    {g : δ → Res γ} (hfg : ∀ a, g (k a) = view h (f a)) :
    view k x >>= g = view h (x >>= f) := by
  rw [bind_view]
  exact bind_eq_view hfg

theorem view_ite (h : α → β) (p : Prop) [Decidable p] (x y : Res α) :
    view h (if p then x else y) = if p then view h x else view h y := by
  split <;> rfl

theorem ite_eq_view {h : α → β} {p : Prop} [Decidable p] {x y : Res β} {a b : Res α}
    (hx : x = view h a) (hy : y = view h b) :
    (if p then x else y) = view h (if p then a else b) := by
  rw [view_ite, hx, hy]

/-- A loop whose body runs the same on both representations does so too. -/
theorem loop_view {τ υ : Type u} {body' : τ → Res (τ ⊕ υ)} {h : σ → τ} {k : ρ → υ}
    (hb : ∀ s, body' (h s) = view (Sum.map h k) (body s)) (n : ℕ) (s : σ) :
    loop body' n (h s) = view k (loop body n s) := by
  induction n generalizing s with
  | zero => rfl
  | succ n ih =>
    simp only [loop, hb s, bind_view, view_bind]
    congr 1
    funext u
    cases u with
    | inl t => exact ih t
    | inr r => rfl

/-! ### States at the head of a loop -/

/-- The loop can come from `s` to `t` by whole passes. -/
inductive Reaches (body : σ → Res (σ ⊕ ρ)) (s : σ) : σ → Prop
  | refl : Reaches body s s
  | step {t u : σ} : Reaches body s t → body t = .ok (.inl u) → Reaches body s u

/-- What one pass keeps holds whenever the loop is at its head. -/
theorem Reaches.invariant (h : ∀ s t, I s → body s = .ok (.inl t) → I t) (hs : I s)
    (ht : Reaches body s t) : I t := by
  induction ht with
  | refl => exact hs
  | step _ hstep ih => exact h _ _ ih hstep

/-- A loop whose body keeps `I` and never leaves uses up any number of passes. -/
theorem loop_forever (h : ∀ s, I s → ∃ t, body s = .ok (.inl t) ∧ I t) (hs : I s) (n : ℕ) :
    loop body n s = .error .fuel := by
  induction n generalizing s with
  | zero => rfl
  | succ n ih =>
    obtain ⟨t, hbody, ht⟩ := h s hs
    rw [loop_of_inl hbody, ih ht]

/-! ### Enough fuel -/

/-- With enough fuel, `f` gives `x` and goes on giving it. -/
def Settles (f : ℕ → Res α) (x : Res α) : Prop := ∃ N, ∀ n, N ≤ n → f n = x

theorem Settles.const (x : Res α) : Settles (fun _ => x) x := ⟨0, fun _ _ => rfl⟩

theorem Settles.unique {f : ℕ → Res α} (hx : Settles f x) (hy : Settles f y) : x = y := by
  obtain ⟨N, hN⟩ := hx
  obtain ⟨M, hM⟩ := hy
  rw [← hN (max N M) (Nat.le_max_left N M), hM (max N M) (Nat.le_max_right N M)]

theorem Settles.congr {f g : ℕ → Res α} (h : Settles f x) (hfg : ∀ n, g n = f n) : Settles g x := by
  obtain ⟨N, hN⟩ := h
  exact ⟨N, fun n hn => by rw [hfg, hN n hn]⟩

theorem Settles.bind {f : ℕ → Res α} {g : ℕ → α → Res β} {a : α} {z : Res β}
    (hf : Settles f (.ok a)) (hg : Settles (fun n => g n a) z) :
    Settles (fun n => f n >>= g n) z := by
  obtain ⟨N, hN⟩ := hf
  obtain ⟨M, hM⟩ := hg
  refine ⟨max N M, fun n hn => ?_⟩
  simp only [hN n (by omega), ok_bind]
  exact hM n (by omega)

theorem Settles.bind_error {f : ℕ → Res α} {g : ℕ → α → Res β} {e : Stop}
    (hf : Settles f (.error e)) : Settles (fun n => f n >>= g n) (.error e) := by
  obtain ⟨N, hN⟩ := hf
  exact ⟨N, fun n hn => by simp only [hN n hn, error_bind]⟩

theorem Settles.succ {f g : ℕ → Res α} (h : Settles f x) (hfg : ∀ n, g (n + 1) = f n) :
    Settles g x := by
  obtain ⟨N, hN⟩ := h
  refine ⟨N + 1, fun n hn => ?_⟩
  obtain ⟨n, rfl⟩ : ∃ k, n = k + 1 := ⟨n - 1, by omega⟩
  rw [hfg, hN n (by omega)]

theorem Settles.view {f : ℕ → Res α} {a : α} (hf : Settles f (.ok a)) (h : α → β) :
    Settles (fun n => view h (f n)) (.ok (h a)) := by
  obtain ⟨N, hN⟩ := hf
  exact ⟨N, fun n hn => by simp only [hN n hn, view_ok]⟩

/-- With enough fuel, `f` and `g` give the same. -/
def SettlesAs (f g : ℕ → Res α) : Prop := ∃ N, ∀ n, N ≤ n → f n = g n

theorem SettlesAs.trans {f g h : ℕ → Res α} (hfg : SettlesAs f g) (hgh : SettlesAs g h) :
    SettlesAs f h := by
  obtain ⟨N, hN⟩ := hfg
  obtain ⟨M, hM⟩ := hgh
  exact ⟨max N M, fun n hn => by rw [hN n (by omega), hM n (by omega)]⟩

theorem SettlesAs.of_eq {f g : ℕ → Res α} (h : ∀ n, f n = g n) : SettlesAs f g :=
  ⟨0, fun n _ => h n⟩

theorem SettlesAs.settles {f g : ℕ → Res α} (hfg : SettlesAs f g) (hg : Settles g x) :
    Settles f x := by
  obtain ⟨N, hN⟩ := hfg
  obtain ⟨M, hM⟩ := hg
  exact ⟨max N M, fun n hn => by rw [hN n (by omega), hM n (by omega)]⟩

/-- Once its first part has ended, a run is what comes after it. -/
theorem Settles.bind_as {f : ℕ → Res α} {g : ℕ → α → Res β} {a : α} (hf : Settles f (.ok a)) :
    SettlesAs (fun n => f n >>= g n) (fun n => g n a) := by
  obtain ⟨N, hN⟩ := hf
  exact ⟨N, fun n hn => by simp only [hN n hn, ok_bind]⟩

theorem Settles.loop_next {z : Res ρ} (hs : body s = .ok (.inl t))
    (ht : Settles (fun n => loop body n t) z) : Settles (fun n => loop body n s) z :=
  ht.succ fun _ => loop_of_inl hs

theorem Settles.loop_exit {r : ρ} (hs : body s = .ok (.inr r)) :
    Settles (fun n => loop body n s) (.ok r) :=
  (Settles.const (.ok r)).succ fun _ => loop_of_inr hs

/-- A loop whose body keeps `I` and lowers `μ` ends, once it has passes enough. -/
theorem loop_settles (μ : σ → ℕ)
    (h : ∀ s, I s → Total (Sum.elim (fun t => I t ∧ μ t < μ s) R) (body s)) (hs : I s) :
    ∃ r, R r ∧ Settles (fun n => loop body n s) (.ok r) := by
  obtain ⟨r, hr, hR⟩ := total_iff.mp (loop_total μ h hs (Nat.lt_succ_self (μ s)))
  exact ⟨r, hR, μ s + 1, fun n hn => loop_mono hr hn⟩

/-- The loop gives `x` from `s`, with enough fuel for the body and enough passes. -/
def LoopSettles (body : ℕ → σ → Res (σ ⊕ ρ)) (s : σ) (x : Res ρ) : Prop :=
  ∃ N, ∀ n k, N ≤ n → N ≤ k → loop (body n) k s = x

variable {step : ℕ → σ → Res (σ ⊕ ρ)} {z : Res ρ}

theorem LoopSettles.settles (h : LoopSettles step s z) :
    Settles (fun n => loop (step n) n s) z := by
  obtain ⟨N, hN⟩ := h
  exact ⟨N, fun n hn => hN n n hn hn⟩

theorem LoopSettles.next (hs : Settles (fun n => step n s) (.ok (.inl t)))
    (ht : LoopSettles step t z) : LoopSettles step s z := by
  obtain ⟨N, hN⟩ := hs
  obtain ⟨M, hM⟩ := ht
  refine ⟨max N M + 1, fun n k hn hk => ?_⟩
  obtain ⟨k, rfl⟩ : ∃ j, k = j + 1 := ⟨k - 1, by omega⟩
  rw [loop_of_inl (hN n (by omega)), hM n k (by omega) (by omega)]

/-- A first pass that is the same from another state. -/
theorem LoopSettles.of_eq (hst : ∀ n, step n s = step n t) (ht : LoopSettles step t z) :
    LoopSettles step s z := by
  obtain ⟨N, hN⟩ := ht
  refine ⟨N + 1, fun n k hn hk => ?_⟩
  obtain ⟨k, rfl⟩ : ∃ j, k = j + 1 := ⟨k - 1, by omega⟩
  rw [← hN n (k + 1) (by omega) (by omega), loop, loop, hst n]

theorem LoopSettles.exit {r : ρ} (hs : Settles (fun n => step n s) (.ok (.inr r))) :
    LoopSettles step s (.ok r) := by
  obtain ⟨N, hN⟩ := hs
  refine ⟨N + 1, fun n k hn hk => ?_⟩
  obtain ⟨k, rfl⟩ : ∃ j, k = j + 1 := ⟨k - 1, by omega⟩
  exact loop_of_inr (hN n (by omega))

theorem LoopSettles.fail {e : Stop} (hs : Settles (fun n => step n s) (.error e)) :
    LoopSettles step s (.error e) := by
  obtain ⟨N, hN⟩ := hs
  refine ⟨N + 1, fun n k hn hk => ?_⟩
  obtain ⟨k, rfl⟩ : ∃ j, k = j + 1 := ⟨k - 1, by omega⟩
  exact loop_of_error (hN n (by omega))

/-! ### Loops that do not end -/

/-- The loop comes from `s` to `t` by whole passes, each with enough fuel. -/
inductive Rounds (step : ℕ → σ → Res (σ ⊕ ρ)) (s : σ) : σ → Prop
  | refl : Rounds step s s
  | step {t u : σ} : Rounds step s t → Settles (fun n => step n t) (.ok (.inl u)) → Rounds step s u

theorem Rounds.trans {u : σ} (hs : Rounds step s t) (ht : Rounds step t u) : Rounds step s u := by
  induction ht with
  | refl => exact hs
  | step _ hstep ih => exact ih.step hstep

/-- What the loop does after some passes it does from the start. -/
theorem Rounds.settles (hs : Rounds step s t) (ht : LoopSettles step t z) :
    LoopSettles step s z := by
  induction hs with
  | refl => exact ht
  | step _ hstep ih => exact ih (ht.next hstep)

/-- What each whole pass keeps holds at the head of the loop. -/
theorem Rounds.invariant (h : ∀ t u, I t → Settles (fun n => step n t) (.ok (.inl u)) → I u)
    (hs : I s) (ht : Rounds step s t) : I t := by
  induction ht with
  | refl => exact hs
  | step _ hstep ih => exact h _ _ ih hstep

/-! ### Where one run has a result, another has it too -/

/-- If `x` ends with a result, `y` ends with the same one. -/
def Within (x y : Res α) : Prop := ∀ a, x = .ok a → y = .ok a

theorem Within.refl (x : Res α) : Within x x := fun _ h => h

theorem Within.of_error (e : Stop) (y : Res α) : Within (.error e) y := by
  intro a h
  cases h

theorem Within.bind {h : α → β} {k : γ → ρ} {x : Res α} {y : Res β} {f : α → Res γ}
    {g : β → Res ρ} (hxy : Within (Prog.view h x) y)
    (hfg : ∀ a, Within (Prog.view k (f a)) (g (h a))) :
    Within (Prog.view k (x >>= f)) (y >>= g) := by
  cases x with
  | error e => exact .of_error e _
  | ok a =>
    rw [hxy (h a) rfl]
    exact hfg a

/-- Both runs begin alike. -/
theorem Within.after {h : β → γ} (x : Res α) {f : α → Res β} {g : α → Res γ}
    (hfg : ∀ a, Within (Prog.view h (f a)) (g a)) :
    Within (Prog.view h (x >>= f)) (x >>= g) := by
  cases x with
  | error e => exact .of_error e _
  | ok a => exact hfg a

theorem Within.ite {h : α → β} {p : Prop} [Decidable p] {x x' : Res α} {y y' : Res β}
    (ht : Within (Prog.view h x) y) (hf : Within (Prog.view h x') y') :
    Within (Prog.view h (if p then x else x')) (if p then y else y') := by
  split
  · exact ht
  · exact hf

/-- A loop whose passes have their results on another representation too. -/
theorem Within.loop {τ υ : Type u} {body' : τ → Res (τ ⊕ υ)} {h : σ → τ} {k : ρ → υ}
    (hb : ∀ s, Within (Prog.view (Sum.map h k) (body s)) (body' (h s))) (n : ℕ) (s : σ) :
    Within (Prog.view k (loop body n s)) (loop body' n (h s)) := by
  induction n generalizing s with
  | zero => exact .of_error _ _
  | succ n ih =>
    refine Within.bind (hb s) fun u => ?_
    cases u with
    | inl t => exact ih t
    | inr r => exact .refl _

theorem Within.settles {f g : ℕ → Res α} {a : α} (hfg : ∀ n, Within (f n) (g n))
    (hf : Settles f (.ok a)) : Settles g (.ok a) := by
  obtain ⟨N, hN⟩ := hf
  exact ⟨N, fun n hn => hfg n a (hN n hn)⟩

end Prog
