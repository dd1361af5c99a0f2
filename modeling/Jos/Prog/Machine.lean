import Mathlib.Tactic.Common

/-! Machines that take one event at a time, their runs, invariants and simulations. -/
namespace Prog

/-- A machine with states `σ` that reacts to events `ε`. -/
structure Machine (σ ε : Type*) where
  step : σ → ε → σ

variable {σ τ ε : Type*} {M : Machine σ ε} {A : Machine τ ε}

/-- The state after the events of `es`, in order. -/
def Machine.run (M : Machine σ ε) (s : σ) (es : List ε) : σ := es.foldl M.step s

/-- What holds at first and is kept by each step holds after every run. -/
theorem Machine.run_invariant {I : σ → Prop} (h : ∀ s e, I s → I (M.step s e)) {s : σ}
    (hs : I s) (es : List ε) : I (M.run s es) := by
  induction es generalizing s with
  | nil => exact hs
  | cons e es ih => exact ih (h s e hs)

/-- `A` follows `M` step by step through the relation `R`. -/
def Simulates (M : Machine σ ε) (A : Machine τ ε) (R : σ → τ → Prop) : Prop :=
  ∀ s a e, R s a → R (M.step s e) (A.step a e)

/-- A step by step simulation carries over to runs of any length. -/
theorem Simulates.run {R : σ → τ → Prop} (h : Simulates M A R) {s : σ} {a : τ}
    (hR : R s a) (es : List ε) : R (M.run s es) (A.run a es) := by
  induction es generalizing s a with
  | nil => exact hR
  | cons e es ih => exact ih (h s a e hR)

/-- The labelled steps of `r` lead from `s` through the labels of `as` to `t`. -/
inductive Trace (r : σ → ε → σ → Prop) : σ → List ε → σ → Prop
  | nil {s : σ} : Trace r s [] s
  | snoc {s t u : σ} {as : List ε} {a : ε} : Trace r s as t → r t a u → Trace r s (as ++ [a]) u

variable {r : σ → ε → σ → Prop} {s t u : σ} {as : List ε} {a : ε}

theorem Trace.single (h : r s a t) : Trace r s [a] t :=
  show Trace r s ([] ++ [a]) t from .snoc .nil h

/-- What holds at first and is kept by each step holds after every trace, with what has happened
on the way. -/
theorem Trace.invariant {I : List ε → σ → Prop} (htrace : Trace r s as t) (hs : I [] s)
    (hstep : ∀ as a t u, I as t → r t a u → I (as ++ [a]) u) : I as t := by
  induction htrace with
  | nil => exact hs
  | snoc _ ha ih => exact hstep _ _ _ _ ih ha

/-- `C` holds of every step in a run from `s` through `as`. -/
def Throughout (r : σ → ε → σ → Prop) (C : σ → ε → σ → Prop) (s : σ) (as : List ε) : Prop :=
  ∀ bs b t u, bs ++ [b] <+: as → Trace r s bs t → r t b u → C t b u

variable {C : σ → ε → σ → Prop}

theorem Throughout.init (h : Throughout r C s (as ++ [a])) : Throughout r C s as :=
  fun bs b t u hbs => h bs b t u (hbs.trans (List.prefix_append as [a]))

theorem Throughout.last (h : Throughout r C s (as ++ [a])) (htrace : Trace r s as t)
    (ha : r t a u) : C t a u :=
  h as a t u (List.prefix_refl _) htrace ha

/-- What is kept by each step of which `C` holds. -/
theorem Trace.invariant_throughout {I : List ε → σ → Prop} (htrace : Trace r s as t)
    (hC : Throughout r C s as) (hs : I [] s)
    (hstep : ∀ as a t u, I as t → r t a u → C t a u → I (as ++ [a]) u) : I as t := by
  induction htrace with
  | nil => exact hs
  | snoc htrace ha ih => exact hstep _ _ _ _ (ih hC.init) ha (hC.last htrace ha)

end Prog
