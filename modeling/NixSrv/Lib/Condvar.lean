import Mathlib.Logic.Function.Basic

/-!
# Threads that wait on a condition variable

The places of the threads of a program are a function. A waiting thread is at a place with an entry
in `wake`, which says where it goes on when it is notified.

* `notifyAll`, `notifyOne`: the places after a notification;
* `notifyAll_of_waiting`, `notifyOne_cases`: a notified thread goes on, the others stay.
-/

namespace Condvar

variable {ι π : Type*} {wake : π → Option π}

/-- Every thread that waits goes on. -/
def notifyAll (wake : π → Option π) (threads : ι → π) (t : ι) : π :=
  (wake (threads t)).getD (threads t)

theorem notifyAll_of_not_waiting {threads : ι → π} {t : ι} (h : wake (threads t) = none) :
    notifyAll wake threads t = threads t := by
  rw [notifyAll, h, Option.getD_none]

theorem notifyAll_of_waiting {threads : ι → π} {t : ι} {pc : π} (h : wake (threads t) = some pc) :
    notifyAll wake threads t = pc := by
  rw [notifyAll, h, Option.getD_some]

variable [DecidableEq ι]

/-- The given thread goes on, if there is one. -/
def notifyOne (wake : π → Option π) (threads : ι → π) : Option ι → ι → π
  | none => threads
  | some u => Function.update threads u ((wake (threads u)).getD (threads u))

theorem notifyOne_cases (threads : ι → π) (woken : Option ι) (t : ι) :
    notifyOne wake threads woken t = threads t ∨
      ∃ pc, wake (threads t) = some pc ∧ notifyOne wake threads woken t = pc := by
  cases woken with
  | none => exact Or.inl rfl
  | some u =>
    by_cases ht : t = u
    · subst ht
      rw [notifyOne, Function.update_self]
      cases h : wake (threads t) with
      | none => exact Or.inl rfl
      | some pc => exact Or.inr ⟨pc, rfl, rfl⟩
    · exact Or.inl (Function.update_of_ne ht _ _)

end Condvar
