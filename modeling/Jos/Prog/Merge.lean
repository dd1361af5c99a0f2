import Mathlib.Tactic.Common

/-!
Lists that are put together of two others, each in its order. Nothing here depends on the
program that is verified.
-/
namespace Prog

universe u

/-- All elements of `xs` and `ys` are in `zs`, those of each list in their order. -/
inductive Merges {α : Type u} : List α → List α → List α → Prop
  | nil : Merges [] [] []
  | left {x : α} {xs ys zs : List α} : Merges xs ys zs → Merges (x :: xs) ys (x :: zs)
  | right {y : α} {xs ys zs : List α} : Merges xs ys zs → Merges xs (y :: ys) (y :: zs)

namespace Merges

variable {α : Type u} {xs ys zs xs' ys' zs' : List α}

theorem of_left (xs : List α) : Merges xs [] xs := by
  induction xs with
  | nil => exact .nil
  | cons x xs ih => exact .left ih

theorem of_right (ys : List α) : Merges [] ys ys := by
  induction ys with
  | nil => exact .nil
  | cons y ys ih => exact .right ih

/-- What comes later of both lists comes behind what came earlier. -/
theorem append (h : Merges xs ys zs) (h' : Merges xs' ys' zs') :
    Merges (xs ++ xs') (ys ++ ys') (zs ++ zs') := by
  induction h with
  | nil => exact h'
  | left _ ih => exact .left ih
  | right _ ih => exact .right ih

theorem append_left (h : Merges xs ys zs) (xs' : List α) :
    Merges (xs ++ xs') ys (zs ++ xs') := by
  have happ := h.append (of_left xs')
  rwa [List.append_nil] at happ

theorem append_right (h : Merges xs ys zs) (ys' : List α) :
    Merges xs (ys ++ ys') (zs ++ ys') := by
  have happ := h.append (of_right ys')
  rwa [List.append_nil] at happ

end Merges

end Prog
