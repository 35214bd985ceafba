import Mathlib.Data.Fin.Basic
import Mathlib.Data.Fintype.Basic
import NixSrv.Lib.Cell
import NixSrv.Lib.Condvar
import NixSrv.Lib.Transition
import NixSrv.Queue

/-!
# A queue shared by threads

The members of `nix::Queue` called by `D` threads. A step of a thread is a stretch of code under the
mutex, the store or a notification made without it. `pop` holds the mutex from its test of the queue
until it waits, and these are two steps.

* `Pc`, `Shared`, `Event`, `Shared.next`, **`sharedQueue`**: places, states, events and runs;
* `StepCase`, **`step_cases`**: everything a step can be;
* `lastStore`, **`isClosed_of_run`**: the flag is the one stored last.
-/

namespace NixSrv.Queue

open Transition

/-- A call of a member. -/
inductive Op (α : Type*) where
  | push (elem : α)
  | pop (timeout : ℤ)
  | setEnabled (state : Bool)
  | clear

/-- Where a thread is. `elem` and `ptr` are what its pointer holds after the call. -/
inductive Pc (α : Type*) where
  | out
  | push (elem : α)
  /-- Before `notify_one`. -/
  | pushUnlocked (elem : Option α) (success : Bool)
  | pushed (elem : Option α) (success : Bool)
  /-- Before the test of the loop, at first or after a wait. -/
  | pop (timeout : ℤ) (waited : Bool)
  /-- The queue was found open and empty, and the mutex is held. -/
  | popEmpty (timeout : ℤ)
  | waiting (timeout : ℤ)
  | popped (ptr : Option α)
  | setEnabled (state : Bool)
  /-- Before the `notify_all` of `set_enabled`. -/
  | stored
  | clear
  /-- Before the `notify_all` of `clear`. -/
  | cleared
  deriving DecidableEq

namespace Pc

variable {α : Type*}

/-- The thread is in no call. -/
def returned : Pc α → Bool
  | out | pushed _ _ | popped _ => true
  | _ => false

/-- Where a thread that waits goes on when it is notified. -/
def wake : Pc α → Option (Pc α)
  | waiting timeout => some (pop timeout true)
  | _ => none

end Pc

/-- Where a call begins. -/
def Op.start {α : Type*} : Op α → Pc α
  | push elem => .push elem
  | pop timeout => .pop timeout false
  | setEnabled state => .setEnabled state
  | clear => .clear

/-- The queue, the thread that holds the mutex between two steps, and the threads. -/
structure Shared (D : ℕ) (α : Type*) where
  queue : Queue α
  owner : Option (Fin D) := none
  threads : Fin D → Pc α

inductive Event (D : ℕ) (α : Type*) where
  | call (t : Fin D) (op : Op α)
  /-- A thread makes a step; `notify_one` wakes `woken`. -/
  | run (t : Fin D) (woken : Option (Fin D) := none)
  /-- The wait of a thread is reported as timed out, also when the thread was woken before. -/
  | expire (t : Fin D)
  /-- A thread wakes up without being notified. -/
  | spurious (t : Fin D)

namespace Shared

variable {D : ℕ} {α : Type*} (s : Shared D α)

/-- Thread `t` goes to `pc`. -/
def goto (t : Fin D) (pc : Pc α) : Shared D α :=
  { s with threads := Function.update s.threads t pc }

@[simp] theorem queue_goto (t : Fin D) (pc : Pc α) : (s.goto t pc).queue = s.queue := rfl

@[simp] theorem owner_goto (t : Fin D) (pc : Pc α) : (s.goto t pc).owner = s.owner := rfl

@[simp] theorem threads_goto_self (t : Fin D) (pc : Pc α) : (s.goto t pc).threads t = pc := by
  simp [goto]

theorem threads_goto_ne {t u : Fin D} (h : u ≠ t) (pc : Pc α) :
    (s.goto t pc).threads u = s.threads u := by
  simp [goto, h]

/-- `notify_all`, after which thread `t` has returned. -/
def notifyAll (t : Fin D) : Shared D α :=
  { s with threads := Function.update (Condvar.notifyAll Pc.wake s.threads) t .out }

/-- `notify_one` wakes a thread if there is one that waits. -/
def MayWake : Option (Fin D) → Prop
  | none => ∀ u, (s.threads u).wake = none
  | some u => (s.threads u).wake ≠ none

instance (woken : Option (Fin D)) : Decidable (s.MayWake woken) := by
  unfold MayWake; split <;> infer_instance

/-- One step of a thread. -/
def step (t : Fin D) (woken : Option (Fin D)) : Option (Shared D α) :=
  match s.threads t with
  | .push elem =>
    if s.owner = none then
      let (queue, success) := s.queue.push elem
      some (Shared.goto { s with queue := queue } t
        (.pushUnlocked (if success then none else some elem) success))
    else none
  | .pushUnlocked elem success =>
    if s.MayWake woken then some { s with
      threads := Function.update (Condvar.notifyOne Pc.wake s.threads woken) t
        (.pushed elem success) }
    else none
  | .pop timeout _ =>
    if s.owner = none then
      match s.queue.pop with
      | .closed => some (s.goto t (.popped none))
      | .item ptr rest => some (Shared.goto { s with queue := rest } t (.popped (some ptr)))
      | .waits => some (Shared.goto { s with owner := some t } t (.popEmpty timeout))
    else none
  | .popEmpty timeout => some (Shared.goto { s with owner := none } t (.waiting timeout))
  | .setEnabled state =>
    some (Shared.goto { s with queue := s.queue.setEnabled state } t .stored)
  | .clear =>
    if s.owner = none then some (Shared.goto { s with queue := s.queue.clear } t .cleared)
    else none
  | .stored | .cleared => some (s.notifyAll t)
  | .out | .pushed _ _ | .waiting _ | .popped _ => none

def next : Event D α → Option (Shared D α)
  | .call t op => if (s.threads t).returned then some (s.goto t op.start) else none
  | .run t woken => s.step t woken
  | .expire t =>
    match s.threads t with
    | .waiting timeout | .pop timeout true =>
      if timeout ≠ -1 ∧ s.owner = none then some (s.goto t (.popped none)) else none
    | _ => none
  | .spurious t =>
    match s.threads t with
    | .waiting timeout => some (s.goto t (.pop timeout true))
    | _ => none

/-- A queue made by `Queue(queue_size)`, with no thread in a call. -/
def start (D : ℕ) (α : Type*) (queueSize : ℕ) : Shared D α where
  queue := .new queueSize
  threads _ := .out

end Shared

variable {D : ℕ} {α : Type*}

/-- **A queue of the given capacity argument under `D` threads**, whose steps are interleaved in any
way. -/
def sharedQueue (D : ℕ) (α : Type*) (queueSize : ℕ) : System (Shared D α) (Event D α) :=
  .ofNext (.start D α queueSize) Shared.next

/-- The run of two threads on a queue of capacity 1 with the given events, and its last state. -/
abbrev runOf (es : List (Event 2 ℕ)) :
    List (Transition.Move (Shared 2 ℕ) (Event 2 ℕ)) × Shared 2 ℕ :=
  traceOf Shared.next (.start 2 ℕ 1) es

/-- A step of a run. -/
abbrev Move (D : ℕ) (α : Type*) := Transition.Move (Shared D α) (Event D α)

/-- What a step can be. -/
inductive StepCase (s : Shared D α) : Event D α → Shared D α → Prop
  | called (t : Fin D) (op : Op α) (hp : (s.threads t).returned = true) :
      StepCase s (.call t op) (s.goto t op.start)
  | accepted (t : Fin D) (woken : Option (Fin D)) (elem : α) (hp : s.threads t = .push elem)
      (ho : s.owner = none) (hr : s.queue.HasRoom) : StepCase s (.run t woken)
        (Shared.goto { s with queue := s.queue.enqueue elem hr } t (.pushUnlocked none true))
  | refused (t : Fin D) (woken : Option (Fin D)) (elem : α) (hp : s.threads t = .push elem)
      (ho : s.owner = none) (hr : ¬ s.queue.HasRoom) : StepCase s (.run t woken)
        (s.goto t (.pushUnlocked (some elem) false))
  | notifiedOne (t : Fin D) (woken : Option (Fin D)) (elem : Option α) (success : Bool)
      (hp : s.threads t = .pushUnlocked elem success) (hw : s.MayWake woken) :
      StepCase s (.run t woken) { s with
        threads := Function.update (Condvar.notifyOne Pc.wake s.threads woken) t
          (.pushed elem success) }
  | closed (t : Fin D) (woken : Option (Fin D)) (timeout : ℤ) (waited : Bool)
      (hp : s.threads t = .pop timeout waited) (ho : s.owner = none)
      (hc : s.queue.isClosed = true) :
      StepCase s (.run t woken) (s.goto t (.popped none))
  | took (t : Fin D) (woken : Option (Fin D)) (timeout : ℤ) (waited : Bool) (ptr : α)
      (rest : List α) (hp : s.threads t = .pop timeout waited) (ho : s.owner = none)
      (hc : s.queue.isClosed = false) (hq : s.queue.q = ptr :: rest) : StepCase s (.run t woken)
        (Shared.goto { s with queue := s.queue.dropFront } t (.popped (some ptr)))
  | foundEmpty (t : Fin D) (woken : Option (Fin D)) (timeout : ℤ) (waited : Bool)
      (hp : s.threads t = .pop timeout waited) (ho : s.owner = none)
      (hc : s.queue.isClosed = false) (hq : s.queue.q = []) :
      StepCase s (.run t woken) (Shared.goto { s with owner := some t } t (.popEmpty timeout))
  | waited (t : Fin D) (woken : Option (Fin D)) (timeout : ℤ)
      (hp : s.threads t = .popEmpty timeout) :
      StepCase s (.run t woken) (Shared.goto { s with owner := none } t (.waiting timeout))
  | stored (t : Fin D) (woken : Option (Fin D)) (state : Bool)
      (hp : s.threads t = .setEnabled state) : StepCase s (.run t woken)
        (Shared.goto { s with queue := s.queue.setEnabled state } t .stored)
  | cleared (t : Fin D) (woken : Option (Fin D)) (hp : s.threads t = .clear)
      (ho : s.owner = none) : StepCase s (.run t woken)
        (Shared.goto { s with queue := s.queue.clear } t .cleared)
  | notifiedAll (t : Fin D) (woken : Option (Fin D))
      (hp : s.threads t = .stored ∨ s.threads t = .cleared) :
      StepCase s (.run t woken) (s.notifyAll t)
  | expired (t : Fin D) (timeout : ℤ) (hp : s.threads t = .waiting timeout) (ht : timeout ≠ -1)
      (ho : s.owner = none) : StepCase s (.expire t) (s.goto t (.popped none))
  /-- The time is up before a thread that was woken has the mutex again. -/
  | overtaken (t : Fin D) (timeout : ℤ) (hp : s.threads t = .pop timeout true) (ht : timeout ≠ -1)
      (ho : s.owner = none) : StepCase s (.expire t) (s.goto t (.popped none))
  | woke (t : Fin D) (timeout : ℤ) (hp : s.threads t = .waiting timeout) :
      StepCase s (.spurious t) (s.goto t (.pop timeout true))

/-- **What a step does.** -/
theorem step_cases {n : ℕ} {s s' : Shared D α} {e : Event D α}
    (h : (sharedQueue D α n).step s e s') : StepCase s e s' := by
  change s.next e = some s' at h
  cases e with
  | call t op =>
    simp only [Shared.next] at h
    split_ifs at h with hp
    cases h
    exact .called t op hp
  | expire t =>
    simp only [Shared.next] at h
    split at h
    · rename_i timeout hp
      split_ifs at h with ht
      cases h
      exact .expired t timeout hp ht.1 ht.2
    · rename_i timeout hp
      split_ifs at h with ht
      cases h
      exact .overtaken t timeout hp ht.1 ht.2
    · cases h
  | spurious t =>
    simp only [Shared.next] at h
    split at h
    · rename_i timeout hp
      cases h
      exact .woke t timeout hp
    · cases h
  | run t woken =>
    simp only [Shared.next, Shared.step] at h
    cases hp : s.threads t with
    | push elem =>
      simp only [hp] at h
      by_cases ho : s.owner = none
      swap
      · rw [if_neg ho] at h
        cases h
      rw [if_pos ho] at h
      by_cases hr : s.queue.HasRoom
      · rw [Queue.push_of_hasRoom hr] at h
        cases h
        exact .accepted t woken elem hp ho hr
      · rw [Queue.push_of_not_hasRoom hr] at h
        cases h
        exact .refused t woken elem hp ho hr
    | pushUnlocked elem success =>
      simp only [hp] at h
      split_ifs at h with hw
      cases h
      exact .notifiedOne t woken elem success hp hw
    | pop timeout waited =>
      simp only [hp] at h
      split_ifs at h with ho
      cases hc : s.queue.isClosed with
      | true =>
        rw [Queue.pop_closed.mpr hc] at h
        cases h
        exact .closed t woken timeout waited hp ho hc
      | false =>
        cases hq : s.queue.q with
        | nil =>
          rw [Queue.pop_waits.mpr ⟨hc, hq⟩] at h
          cases h
          exact .foundEmpty t woken timeout waited hp ho hc hq
        | cons ptr rest =>
          rw [Queue.pop_cons hc hq] at h
          cases h
          exact .took t woken timeout waited ptr rest hp ho hc hq
    | popEmpty timeout =>
      simp only [hp] at h
      cases h
      exact .waited t woken timeout hp
    | setEnabled state =>
      simp only [hp] at h
      cases h
      exact .stored t woken state hp
    | clear =>
      simp only [hp] at h
      split_ifs at h with ho
      cases h
      exact .cleared t woken hp ho
    | stored =>
      simp only [hp] at h
      cases h
      exact .notifiedAll t woken (Or.inl hp)
    | cleared =>
      simp only [hp] at h
      cases h
      exact .notifiedAll t woken (Or.inr hp)
    | out | pushed | waiting | popped =>
      simp only [hp] at h
      cases h

/-! ## The flag -/

/-- The thread that stores the flag in a step, and the state it stores. -/
def storeWrite (m : Move D α) : Cell.Write (Fin D × Bool) :=
  match m.event with
  | .run t _ =>
    match m.pre.threads t with
    | .setEnabled state => .put (t, state)
    | _ => .keep
  | _ => .keep

/-- The last call of `set_enabled` that has stored its argument. -/
def lastStore (tr : List (Move D α)) : Option (Fin D × Bool) := Cell.content storeWrite tr

theorem lastStore_snoc (tr : List (Move D α)) (m : Move D α) :
    lastStore (tr ++ [m]) = (storeWrite m).apply (lastStore tr) :=
  Cell.content_snoc tr m

/-- **The queue is closed exactly when `false` was stored last.** -/
theorem isClosed_of_run {n : ℕ} {tr : List (Move D α)} {s : Shared D α}
    (hr : Run (sharedQueue D α n) tr s) :
    s.queue.isClosed = ((lastStore tr).map fun w => !w.2).getD false := by
  induction hr with
  | nil h => cases h; rfl
  | @snoc tr s s' e hr hs ih =>
    rw [lastStore_snoc]
    cases step_cases hs with
    | stored t woken state hp =>
      have hw : ∀ s', storeWrite ⟨s, .run t woken, s'⟩ = .put (t, state) := fun s' => by
        simp only [storeWrite, hp]
      rw [hw]
      rfl
    | called | expired | overtaken | woke => exact ih
    | accepted t woken _ hp | refused t woken _ hp | notifiedOne t woken _ _ hp
    | closed t woken _ _ hp | took t woken _ _ _ _ hp | foundEmpty t woken _ _ hp
    | waited t woken _ hp | cleared t woken hp =>
      have hw : ∀ s', storeWrite ⟨s, .run t woken, s'⟩ = .keep := fun s' => by
        simp only [storeWrite, hp]
      rw [hw]
      exact ih
    | notifiedAll t woken hp =>
      have hw : storeWrite ⟨s, .run t woken, s.notifyAll t⟩ = .keep := by
        rcases hp with hp | hp <;> simp only [storeWrite, hp]
      rw [hw]
      exact ih

end NixSrv.Queue
