import Mathlib.Data.List.Sort
import Mathlib.Algebra.Order.Ring.Rat

/-! # Sorting with a comparison function

  A sort in the sense of the C library: it permutes the array and leaves it in
  ascending order, and nothing is said about elements that compare equal. -/

namespace Framework

open Std

/-- What `qsort` does, for every type of elements. -/
structure Sorter where
  sort : {α : Type} → (α → α → Ordering) → List α → List α
  perm : ∀ {α : Type} (cmp : α → α → Ordering) (l : List α), (sort cmp l).Perm l
  sorted : ∀ {α : Type} (cmp : α → α → Ordering) [TransCmp cmp] (l : List α),
    (sort cmp l).Pairwise fun a b => (cmp a b).isLE = true

/-- One such sort. -/
def insertion_sorter : Sorter where
  sort cmp l := l.insertionSort fun a b => (cmp a b).isLE = true
  perm cmp l := List.perm_insertionSort _ l
  sorted cmp inst l := by
    have htotal : Std.Total fun a b => (cmp a b).isLE = true := ⟨fun a b => by
      rw [show cmp b a = (cmp a b).swap from OrientedCmp.eq_swap]
      cases cmp a b <;> simp⟩
    have htrans : IsTrans _ fun a b => (cmp a b).isLE = true := ⟨fun _ _ _ => TransCmp.isLE_trans⟩
    exact List.pairwise_insertionSort _ l

end Framework
