import Mathlib.Algebra.Order.BigOperators.Group.Finset
import NixSrv.Queue.Wakeups

/-!
# Leaving a closed queue

On a closed queue nobody is made to wait any more, and each `push` that is under way still notifies
one thread.

* **`q_of_closed`**: a closed queue keeps its elements;
* `waiters`, `notifiers`: the callers of `pop` that wait or are about to, and the calls of `push`
  that have not notified;
* `Change`, **`change_of_step`**: what a step on a closed queue does to these numbers;
* **`waiters_of_change`**: callers that are too many for the notifications to come stay so;
* **`notifiers_of_change`**, `notifiers_of_holds`: there are enough notifications to come as long
  as the callers that are about to wait go first;
* `rank`, **`rank_of_step`**: each step brings the calls nearer to their ends.
-/

namespace NixSrv.Queue

open Transition

variable {D : ℕ} {α : Type*}

/-- The thread waits or is about to. -/
def Pc.waiter (pc : Pc α) : ℕ := pc.waits.toNat

/-- The thread is in a call of `push` that has not notified. -/
def Pc.notifier : Pc α → ℕ
  | .push _ | .pushUnlocked _ _ => 1
  | _ => 0

def waiters (s : Shared D α) : ℕ := Places.total Pc.waiter s.threads

def notifiers (s : Shared D α) : ℕ := Places.total Pc.notifier s.threads

theorem waiters_eq_zero {s : Shared D α} (h : ∀ t, (s.threads t).waits = false) :
    waiters s = 0 :=
  Places.total_eq_zero fun t => by rw [Pc.waiter, h t, Bool.toNat_false]

theorem waits_of_waiters {s : Shared D α} (h : waiters s = 0) (t : Fin D) :
    (s.threads t).waits = false := by
  have hle : (s.threads t).waiter ≤ waiters s :=
    Finset.single_le_sum (f := fun t => (s.threads t).waiter) (fun _ _ => Nat.zero_le _)
      (Finset.mem_univ t)
  rw [h, Pc.waiter] at hle
  cases hw : (s.threads t).waits with
  | false => rfl
  | true => rw [hw] at hle; exact absurd hle (by decide)

/-! ## Steps -/

section Steps

variable {s s' : Shared D α} {t : Fin D} {woken : Option (Fin D)}

/-- **A closed queue keeps its elements**, unless it is cleared. -/
theorem q_of_closed {n : ℕ} {e : Event D α} (h : (sharedQueue D α n).step s e s')
    (hc : s.queue.isClosed = true) (hclear : ∀ t, s.threads t ≠ .clear) :
    s'.queue.q = s.queue.q := by
  cases step_cases h with
  | accepted _ _ _ _ _ hr => rw [hr.1] at hc; cases hc
  | took _ _ _ _ _ _ _ _ hc' => rw [hc'] at hc; cases hc
  | cleared t _ hp => exact absurd hp (hclear t)
  | called | refused | notifiedOne | closed | foundEmpty | waited | stored | notifiedAll
  | expired | overtaken | woke => rfl

/-- The numbers of callers that wait and of notifications to come, after a step on a closed queue in
which no thread notifies all. -/
inductive Change (s s' : Shared D α) (t : Fin D) : Prop
  /-- The step is none of the next ones. -/
  | stays (hw : waiters s' = waiters s) (hn : notifiers s' = notifiers s)
  /-- A notification takes a caller out of its wait. -/
  | wakes (hw : waiters s' + 1 = waiters s) (hn : notifiers s' + 1 = notifiers s)
  /-- A notification finds nobody that waits. -/
  | vain (hnone : ∀ u, (s.threads u).wake = none) (hw : waiters s' = waiters s)
      (hn : notifiers s' + 1 = notifiers s)

theorem change_goto {s₀ : Shared D α} (hth : s₀.threads = s.threads) {pc : Pc α}
    (hw : (s.threads t).waiter = pc.waiter) (hn : (s.threads t).notifier = pc.notifier) :
    Change s (s₀.goto t pc) t := by
  have htw := total_goto Pc.waiter hth pc (t := t)
  have htn := total_goto Pc.notifier hth pc (t := t)
  rw [← waiters, ← waiters] at htw
  rw [← notifiers, ← notifiers] at htn
  exact .stays (by omega) (by omega)

/-- **What a step on a closed queue does to the callers that wait.** -/
theorem change_of_step {n : ℕ} (h : (sharedQueue D α n).step s (.run t woken) s')
    (hc : s.queue.isClosed = true) (hst : s.threads t ≠ .stored) (hcl : s.threads t ≠ .cleared) :
    Change s s' t := by
  cases step_cases h with
  | accepted t woken elem hp ho hr => rw [hr.1] at hc; cases hc
  | took _ _ _ _ _ _ hp ho hc' | foundEmpty _ _ _ _ hp ho hc' => rw [hc'] at hc; cases hc
  | notifiedAll t woken hp => rcases hp with hp | hp <;> contradiction
  | notifiedOne t woken elem success hp hw =>
    rcases total_notifyOne (M := ℕ) hp hw rfl with ⟨hnone, htotal⟩ | ⟨timeout, htotal⟩
    · exact .vain hnone (htotal Pc.waiter) (htotal Pc.notifier)
    · exact .wakes (htotal Pc.waiter) (htotal Pc.notifier)
  | refused _ _ _ hp | closed _ _ _ _ hp | waited _ _ _ hp | stored _ _ _ hp | cleared _ _ hp =>
    refine change_goto ?_ ?_ ?_ <;> simp [hp, Pc.waiter, Pc.waits, Pc.holds, Pc.wake, Pc.notifier]

/-- **No caller gets out of its wait without a notification.** -/
theorem waiters_of_change (h : Change s s' t) (hlt : notifiers s < waiters s) :
    notifiers s' < waiters s' := by
  cases h with
  | stays hw hn | wakes hw hn | vain _ hw hn => omega

/-- **No notification is made in vain** where the callers that are about to wait go first. -/
theorem notifiers_of_change (h : Change s s' t) (hle : waiters s ≤ notifiers s)
    (hheld : (∀ u, (s.threads u).holds = false) ∨ notifiers s' = notifiers s) :
    waiters s' ≤ notifiers s' := by
  cases h with
  | stays hw hn | wakes hw hn => omega
  | vain hnone hw hn =>
    have hholds := hheld.resolve_right (by omega)
    have hzero : waiters s = 0 := waiters_eq_zero fun u => by simp [Pc.waits, hholds u, hnone u]
    omega

/-- A caller that is about to wait makes no notification. -/
theorem notifiers_of_holds {n : ℕ} (h : (sharedQueue D α n).step s (.run t woken) s')
    (hh : (s.threads t).holds = true) : notifiers s' = notifiers s := by
  obtain ⟨timeout, hpc⟩ := Pc.holds_iff.mp hh
  cases step_cases h with
  | waited t woken timeout' hp =>
    have hthreads : (Shared.threads { s with owner := none }) = s.threads := rfl
    have htotal := total_goto Pc.notifier hthreads (.waiting timeout') (t := t)
    rw [hp] at htotal
    exact htotal
  | accepted _ _ _ hp | refused _ _ _ hp | notifiedOne _ _ _ _ hp | closed _ _ _ _ hp
  | took _ _ _ _ _ _ hp | foundEmpty _ _ _ _ hp | stored _ _ _ hp | cleared _ _ hp =>
    rw [hpc] at hp
    cases hp
  | notifiedAll t woken hp => rcases hp with hp | hp <;> rw [hpc] at hp <;> cases hp

/-- How far a thread is from the end of its call. -/
def Pc.rank : Pc α → ℕ
  | .out => 0
  | .pushed _ _ | .popped _ | .stored | .cleared => 1
  | .pop _ _ | .pushUnlocked _ _ | .setEnabled _ | .clear => 2
  | .waiting _ | .push _ => 3
  | .popEmpty _ => 4

def rank (s : Shared D α) : ℕ := Places.total Pc.rank s.threads

/-- **On a closed queue each step brings the calls nearer to their ends.** -/
theorem rank_of_step {n : ℕ} (h : (sharedQueue D α n).step s (.run t woken) s')
    (hc : s.queue.isClosed = true) (hst : s.threads t ≠ .stored) (hcl : s.threads t ≠ .cleared) :
    rank s' < rank s := by
  have hgoto : ∀ {s₀ : Shared D α} {pc : Pc α}, s₀.threads = s.threads →
      pc.rank < (s.threads t).rank → rank (s₀.goto t pc) < rank s := by
    intro s₀ pc hth hlt
    have htotal := total_goto Pc.rank hth pc (t := t)
    rw [← rank, ← rank] at htotal
    omega
  cases step_cases h with
  | accepted t woken elem hp ho hr => rw [hr.1] at hc; cases hc
  | took _ _ _ _ _ _ hp ho hc' | foundEmpty _ _ _ _ hp ho hc' => rw [hc'] at hc; cases hc
  | notifiedAll t woken hp => rcases hp with hp | hp <;> contradiction
  | notifiedOne t woken elem success hp hw =>
    rcases total_notifyOne (M := ℕ) hp hw rfl with ⟨-, htotal⟩ | ⟨timeout, htotal⟩
    · have hle : _ + 2 = _ + 1 := htotal Pc.rank
      simp only [rank]
      omega
    · have hle : _ + 2 + 3 = _ + 1 + 2 := htotal Pc.rank
      simp only [rank]
      omega
  | refused _ _ _ hp | closed _ _ _ _ hp | waited _ _ _ hp | stored _ _ _ hp | cleared _ _ hp =>
    refine hgoto ?_ ?_ <;> simp [hp, Pc.rank]

end Steps

end NixSrv.Queue
