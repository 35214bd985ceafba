import Mathlib.Algebra.BigOperators.Group.Finset.Piecewise
import Mathlib.Data.Fintype.Basic
import Mathlib.Tactic.Abel

/-!
# What finitely many threads have in total

The places of the threads of a program are a function, and each place has a weight in a commutative
monoid.

* `total`: the weights of all places together;
* **`total_of_ne`**: a step after which one thread alone has another weight;
* `total_eq_zero`: places without a weight.
-/

namespace Places

variable {ι π M : Type*} [Fintype ι] [AddCommMonoid M] (w : π → M) (threads threads' : ι → π)

/-- The weights of the places of all threads. -/
def total : M := ∑ t, w (threads t)

variable {w threads} in
theorem total_eq_zero (h : ∀ t, w (threads t) = 0) : total w threads = 0 :=
  Finset.sum_eq_zero fun t _ => h t

/-- **When the other threads keep their weight, the total changes by that of one thread.** -/
theorem total_of_ne (t : ι) (h : ∀ u, u ≠ t → w (threads' u) = w (threads u)) :
    total w threads' + w (threads t) = total w threads + w (threads' t) := by
  classical
  have hrest : ∑ u ∈ Finset.univ.erase t, w (threads' u) =
      ∑ u ∈ Finset.univ.erase t, w (threads u) :=
    Finset.sum_congr rfl fun u hu => h u (Finset.ne_of_mem_erase hu)
  rw [total, total, ← Finset.add_sum_erase _ _ (Finset.mem_univ t),
    ← Finset.add_sum_erase _ (fun u => w (threads u)) (Finset.mem_univ t), hrest]
  abel

end Places
