import Mathlib

/-!
# Combinations

Combinations of values by an operator that need not be associative or commutative.
-/

namespace Foundation

inductive Combination (ι : Type*) where
  | single (i : ι)
  | combine (a b : Combination ι)

namespace Combination

variable {ι α : Type*}

def eval (f : α → α → α) (v : ι → α) : Combination ι → α
  | single i => v i
  | combine a b => f (a.eval f v) (b.eval f v)

def leaves : Combination ι → List ι
  | single i => [i]
  | combine a b => a.leaves ++ b.leaves

def add (first : Combination ι) (rest : List (Combination ι)) : Combination ι :=
  rest.foldl combine first

theorem eval_add (f : α → α → α) (v : ι → α) (first : Combination ι) (rest : List (Combination ι)) :
    (first.add rest).eval f v = (rest.map (eval f v)).foldl f (first.eval f v) := by
  induction rest generalizing first with
  | nil => rfl
  | cons a rest ih => exact ih (first.combine a)

theorem leaves_add (first : Combination ι) (rest : List (Combination ι)) :
    (first.add rest).leaves = first.leaves ++ rest.flatMap leaves := by
  induction rest generalizing first with
  | nil => exact (List.append_nil _).symm
  | cons a rest ih =>
    rw [add, List.foldl_cons, ← add, ih, leaves, List.flatMap_cons, List.append_assoc]

theorem eval_eq_sum [AddCommMonoid α] (v : ι → α) (tree : Combination ι) :
    tree.eval (· + ·) v = (tree.leaves.map v).sum := by
  induction tree with
  | single i => exact List.sum_singleton.symm
  | combine a b iha ihb => rw [eval, iha, ihb, leaves, List.map_append, List.sum_append]

end Combination

end Foundation
