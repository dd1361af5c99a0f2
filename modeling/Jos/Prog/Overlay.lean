import Mathlib.Tactic.Common

/-!
Layers that are painted over each other: where several have a value, the last one is
seen. Nothing here depends on the program that is verified.
-/
namespace Prog

universe u v w

variable {ι : Type u} {α : Type v} {β : Type w} {layer : ι → α → Option β} {f : α → β}
  {is us vs : List ι} {i : ι} {x : α} {b : β}

/-- What is seen at each place when the layers of `is` are painted over `f`, one after another. -/
def paint (layer : ι → α → Option β) (f : α → β) : List ι → α → β
  | [], x => f x
  | i :: is, x => paint layer (fun y => (layer i y).getD (f y)) is x

theorem paint_of_none (h : ∀ i ∈ is, layer i x = none) : paint layer f is x = f x := by
  induction is generalizing f with
  | nil => rfl
  | cons i is ih =>
    rw [paint, ih fun j hj => h j (List.mem_cons_of_mem i hj), h i List.mem_cons_self]
    rfl

/-- The last layer that has a value is seen. -/
theorem paint_of_last (hi : layer i x = some b) (hvs : ∀ j ∈ vs, layer j x = none) :
    paint layer f (us ++ i :: vs) x = b := by
  induction us generalizing f with
  | nil =>
    rw [List.nil_append, paint, paint_of_none hvs, hi]
    rfl
  | cons j us ih => exact ih

/-- Where some layer has a value, one is the last. -/
theorem none_or_last (layer : ι → α → Option β) (is : List ι) (x : α) :
    (∀ i ∈ is, layer i x = none) ∨
    ∃ us i vs b, is = us ++ i :: vs ∧ layer i x = some b ∧ ∀ j ∈ vs, layer j x = none := by
  induction is with
  | nil => exact .inl fun i hi => absurd hi List.not_mem_nil
  | cons i is ih =>
    rcases ih with hnone | ⟨us, j, vs, b, rfl, hj, hvs⟩
    · rcases hi : layer i x with _ | b
      · left
        intro j hj
        rcases List.mem_cons.mp hj with rfl | hj
        · exact hi
        · exact hnone j hj
      · exact .inr ⟨[], i, is, b, rfl, hi, hnone⟩
    · exact .inr ⟨i :: us, j, vs, b, rfl, hj, hvs⟩

end Prog
