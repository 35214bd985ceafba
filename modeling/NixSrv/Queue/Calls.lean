import Mathlib.Algebra.Order.Group.Multiset
import NixSrv.Lib.Places
import NixSrv.Queue.Threads

/-!
# The calls of the threads

* `Pc.Goes`, **`goes_of_step`**: where a step inside the calls can take a thread;
* `flag_of_step`: which steps change the flag;
* `total_goto`, `total_notifyOne`: the weights of all places after a step;
* `Pc.elems`: the elements a thread has for the queue or from it;
* **`elems_of_step`**: inside the calls elements go between one thread and the queue, and none gets
  lost but through `clear`.
-/

namespace NixSrv.Queue

open Transition

variable {D : ℕ} {α : Type*}

/-- The step begins a call. -/
def Event.isCall : Event D α → Bool
  | .call _ _ => true
  | _ => false

/-- Where a thread goes on inside a call, or at its end. -/
inductive Pc.Goes : Pc α → Pc α → Prop
  | accepted (elem : α) : Goes (.push elem) (.pushUnlocked none true)
  | refused (elem : α) : Goes (.push elem) (.pushUnlocked (some elem) false)
  | notified (elem : Option α) (success : Bool) :
      Goes (.pushUnlocked elem success) (.pushed elem success)
  | popped (timeout : ℤ) (waited : Bool) (ptr : Option α) : Goes (.pop timeout waited) (.popped ptr)
  | empty (timeout : ℤ) (waited : Bool) : Goes (.pop timeout waited) (.popEmpty timeout)
  | waits (timeout : ℤ) : Goes (.popEmpty timeout) (.waiting timeout)
  | woken (timeout : ℤ) : Goes (.waiting timeout) (.pop timeout true)
  | expired (timeout : ℤ) (ht : timeout ≠ -1) : Goes (.waiting timeout) (.popped none)
  | set (state : Bool) : Goes (.setEnabled state) .stored
  | cleared : Goes .clear .cleared
  | told (pc : Pc α) (hp : pc = .stored ∨ pc = .cleared) : Goes pc .out

theorem Pc.Goes.of_wake {pc pc' : Pc α} (h : pc.wake = some pc') : pc.Goes pc' := by
  cases pc <;> cases h
  exact .woken _

theorem Pc.not_goes_out (pc : Pc α) : ¬ Goes .out pc := by
  intro h
  cases h with
  | told _ hp => rcases hp with hp | hp <;> cases hp

/-- A thread that is not notified stays, the others go on. -/
theorem stays_or_goes_notifyAll (s : Shared D α) {t u : Fin D} (h : u ≠ t) :
    (s.notifyAll t).threads u = s.threads u ∨
      (s.threads u).Goes ((s.notifyAll t).threads u) := by
  simp only [Shared.notifyAll, Function.update_of_ne h]
  cases hw : (s.threads u).wake with
  | none => exact Or.inl (Condvar.notifyAll_of_not_waiting hw)
  | some pc =>
    rw [Condvar.notifyAll_of_waiting hw]
    exact Or.inr (.of_wake hw)

theorem stays_or_goes_goto {s s₀ : Shared D α} (hth : s₀.threads = s.threads) {t : Fin D}
    {pc : Pc α} (h : (s.threads t).Goes pc) (u : Fin D) :
    (s₀.goto t pc).threads u = s.threads u ∨
      (s.threads u).Goes ((s₀.goto t pc).threads u) := by
  by_cases hu : u = t
  · subst hu
    rw [Shared.threads_goto_self]
    exact Or.inr h
  · rw [Shared.threads_goto_ne _ hu, hth]
    exact Or.inl rfl

/-- **What a step inside the calls does to each thread.** -/
theorem goes_of_step {n : ℕ} {s s' : Shared D α} {e : Event D α}
    (h : (sharedQueue D α n).step s e s') (he : e.isCall = false) (u : Fin D) :
    s'.threads u = s.threads u ∨ (s.threads u).Goes (s'.threads u) := by
  cases step_cases h with
  | called => cases he
  | accepted t woken elem hp => exact stays_or_goes_goto rfl (by rw [hp]; exact .accepted _) u
  | refused t woken elem hp => exact stays_or_goes_goto rfl (by rw [hp]; exact .refused _) u
  | notifiedOne t woken elem success hp hw =>
    by_cases hu : u = t
    · subst hu
      simp only [Function.update_self, hp]
      exact Or.inr (.notified _ _)
    · simp only [Function.update_of_ne hu]
      refine (Condvar.notifyOne_cases s.threads woken u).imp_right ?_
      rintro ⟨pc, hpc, he⟩
      rw [he]
      exact .of_wake hpc
  | closed t woken timeout waited hp | took t woken timeout waited ptr rest hp
  | overtaken t timeout hp =>
    exact stays_or_goes_goto rfl (by rw [hp]; exact .popped _ _ _) u
  | foundEmpty t woken timeout waited hp =>
    exact stays_or_goes_goto rfl (by rw [hp]; exact .empty _ _) u
  | waited t woken timeout hp => exact stays_or_goes_goto rfl (by rw [hp]; exact .waits _) u
  | stored t woken state hp => exact stays_or_goes_goto rfl (by rw [hp]; exact .set _) u
  | cleared t woken hp => exact stays_or_goes_goto rfl (by rw [hp]; exact .cleared) u
  | notifiedAll t woken hp =>
    by_cases hu : u = t
    · subst hu
      simp only [Shared.notifyAll, Function.update_self]
      exact Or.inr (.told _ hp)
    · exact stays_or_goes_notifyAll s hu
  | expired t timeout hp ht => exact stays_or_goes_goto rfl (by rw [hp]; exact .expired _ ht) u
  | woke t timeout hp => exact stays_or_goes_goto rfl (by rw [hp]; exact .woken _) u

/-- A step leaves the flag and the calls of `set_enabled` alone, or one of these stores the flag. -/
theorem flag_of_step {n : ℕ} {s s' : Shared D α} {e : Event D α}
    (h : (sharedQueue D α n).step s e s') (he : e.isCall = false) :
    (s'.queue.isClosed = s.queue.isClosed ∧
      ∀ u state, s.threads u = .setEnabled state → s'.threads u = .setEnabled state) ∨
    ∃ t state, s.threads t = .setEnabled state ∧ s'.queue.isClosed = !state := by
  have hgoto : ∀ {s₀ : Shared D α} {t : Fin D} {pc pc' : Pc α}, s₀.threads = s.threads →
      s.threads t = pc' → (∀ state, pc' ≠ .setEnabled state) → ∀ u state,
      s.threads u = .setEnabled state → (s₀.goto t pc).threads u = .setEnabled state := by
    intro s₀ t pc pc' hth ht hne u state hu
    have hut : u ≠ t := by
      rintro rfl
      exact hne state (ht.symm.trans hu)
    rw [Shared.threads_goto_ne _ hut, hth, hu]
  cases step_cases h with
  | called => cases he
  | stored t woken state hp => exact Or.inr ⟨t, state, hp, rfl⟩
  | accepted _ _ _ hp | refused _ _ _ hp | closed _ _ _ _ hp | took _ _ _ _ _ _ hp
  | foundEmpty _ _ _ _ hp | waited _ _ _ hp | cleared _ _ hp | expired _ _ hp | overtaken _ _ hp
  | woke _ _ hp =>
    exact Or.inl ⟨rfl, hgoto rfl hp (by simp)⟩
  | notifiedOne t woken elem success hp hw =>
    refine Or.inl ⟨rfl, fun u state hu => ?_⟩
    have hut : u ≠ t := by
      rintro rfl
      rw [hu] at hp
      cases hp
    simp only [Function.update_of_ne hut]
    rcases Condvar.notifyOne_cases s.threads woken u with h' | ⟨pc, hpc, -⟩
    · rw [h', hu]
    · rw [hu] at hpc
      cases hpc
  | notifiedAll t woken hp =>
    refine Or.inl ⟨rfl, fun u state hu => ?_⟩
    have hut : u ≠ t := by
      rintro rfl
      rcases hp with hp | hp <;> rw [hu] at hp <;> cases hp
    simp only [Shared.notifyAll, Function.update_of_ne hut]
    rw [Condvar.notifyAll_of_not_waiting (by rw [hu]; rfl), hu]

/-! ## Weights of places -/

section Weights

variable {M : Type*} [AddCommMonoid M] {s s₀ : Shared D α} {t : Fin D}

theorem total_goto (w : Pc α → M) (hth : s₀.threads = s.threads) (pc : Pc α) :
    Places.total w (s₀.goto t pc).threads + w (s.threads t) = Places.total w s.threads + w pc := by
  have htotal := Places.total_of_ne w s.threads (s₀.goto t pc).threads t fun u hu => by
    rw [Shared.threads_goto_ne _ hu, hth]
  rwa [Shared.threads_goto_self] at htotal

/-- A notification of one thread finds none that waits, or takes one out of its wait. -/
theorem total_notifyOne {woken : Option (Fin D)} {elem : Option α} {success : Bool}
    {threads : Fin D → Pc α} (hp : s.threads t = .pushUnlocked elem success)
    (hm : s.MayWake woken) (hth : threads =
      Function.update (Condvar.notifyOne Pc.wake s.threads woken) t (.pushed elem success)) :
    ((∀ u, (s.threads u).wake = none) ∧ ∀ w : Pc α → M,
        Places.total w threads + w (.pushUnlocked elem success) =
          Places.total w s.threads + w (.pushed elem success)) ∨
      ∃ timeout, ∀ w : Pc α → M,
        Places.total w threads + w (.pushUnlocked elem success) + w (.waiting timeout) =
          Places.total w s.threads + w (.pushed elem success) + w (.pop timeout true) := by
  have hback : ∀ w : Pc α → M, Places.total w threads +
      w (Condvar.notifyOne Pc.wake s.threads woken t) =
        Places.total w (Condvar.notifyOne Pc.wake s.threads woken) + w (.pushed elem success) := by
    intro w
    have htotal := Places.total_of_ne w (Condvar.notifyOne Pc.wake s.threads woken) threads t
      fun u hu => by rw [hth, Function.update_of_ne hu]
    rwa [show threads t = .pushed elem success by rw [hth, Function.update_self]] at htotal
  cases woken with
  | none =>
    refine Or.inl ⟨hm, fun w => ?_⟩
    have htotal := hback w
    rwa [Condvar.notifyOne, hp] at htotal
  | some v =>
    have hm' : (s.threads v).wake ≠ none := hm
    obtain ⟨timeout, hv⟩ : ∃ timeout, s.threads v = .waiting timeout := by
      cases hpc : s.threads v <;> rw [hpc] at hm' <;> first | exact ⟨_, rfl⟩ | exact absurd rfl hm'
    have htv : t ≠ v := by
      rintro rfl
      rw [hp] at hv
      cases hv
    have hone : Condvar.notifyOne Pc.wake s.threads (some v) =
        Function.update s.threads v (.pop timeout true) := by
      simp [Condvar.notifyOne, hv, Pc.wake]
    refine Or.inr ⟨timeout, fun w => ?_⟩
    have htotal := hback w
    have hwake := Places.total_of_ne w s.threads
      (Function.update s.threads v (.pop timeout true)) v
      fun u hu => by rw [Function.update_of_ne hu]
    rw [Function.update_self, hv] at hwake
    rw [hone, Function.update_of_ne htv, hp] at htotal
    rw [htotal, add_right_comm, hwake, add_right_comm]

end Weights

/-! ## Elements -/

/-- What the pointer of a thread holds: an element it pushes or pushed in vain, or one it got. -/
def Pc.elems : Pc α → Multiset α
  | .push elem => {elem}
  | .pushUnlocked elem _ | .pushed elem _ | .popped elem => elem.toList
  | _ => 0

theorem Pc.card_elems_le (pc : Pc α) : pc.elems.card ≤ 1 := by
  cases pc with
  | push elem => simp [elems]
  | pushUnlocked elem | pushed elem | popped elem => cases elem <;> simp [elems]
  | out | pop | popEmpty | waiting | setEnabled | stored | clear | cleared => simp [elems]

theorem Pc.elems_of_wake {pc pc' : Pc α} (h : pc.wake = some pc') : pc'.elems = pc.elems := by
  cases pc <;> cases h
  rfl

/-- Where the elements are after a step of thread `t` inside its call. -/
structure Passes (s s' : Shared D α) (t : Fin D) : Prop where
  inCall : (s.threads t).returned = false
  others : ∀ u, u ≠ t → (s'.threads u).elems = (s.threads u).elems
  passed : (s'.threads t).elems + (s'.queue.q : Multiset α) =
    (s.threads t).elems + (s.queue.q : Multiset α)

theorem Passes.goto {s s₀ : Shared D α} (hth : s₀.threads = s.threads) {t : Fin D} {pc : Pc α}
    (hin : (s.threads t).returned = false)
    (h : pc.elems + (s₀.queue.q : Multiset α) = (s.threads t).elems + (s.queue.q : Multiset α)) :
    Passes s (s₀.goto t pc) t where
  inCall := hin
  others u hu := by rw [Shared.threads_goto_ne _ hu, hth]
  passed := by rw [Shared.threads_goto_self, Shared.queue_goto, h]

/-- **A step inside the calls passes elements between one thread and the queue.** -/
theorem elems_of_step {n : ℕ} {s s' : Shared D α} {e : Event D α}
    (h : (sharedQueue D α n).step s e s') (he : e.isCall = false)
    (hclear : ∀ t, s.threads t ≠ .clear) : ∃ t, Passes s s' t := by
  cases step_cases h with
  | called => cases he
  | cleared t woken hp => exact absurd hp (hclear t)
  | accepted t woken elem hp ho hr =>
    refine ⟨t, .goto ?_ ?_ ?_⟩
    · rfl
    · rw [hp]; rfl
    · simp only [hp, Pc.elems, Queue.q_enqueue, Option.toList_none]
      rw [← Multiset.coe_add, Multiset.coe_nil, zero_add, Multiset.coe_singleton, add_comm]
  | took t woken timeout waited ptr rest hp ho hc hq =>
    refine ⟨t, .goto ?_ ?_ ?_⟩
    · rfl
    · rw [hp]; rfl
    · simp only [hp, Pc.elems, Queue.q_dropFront, hq, Option.toList_some, List.tail_cons]
      rw [Multiset.coe_add, zero_add]
      rfl
  | notifiedOne t woken elem success hp hw =>
    refine ⟨t, ⟨by rw [hp]; rfl, fun u hu => ?_, ?_⟩⟩
    · simp only [Function.update_of_ne hu]
      rcases Condvar.notifyOne_cases s.threads woken u with h' | ⟨pc, hpc, h'⟩
      · rw [h']
      · rw [h', Pc.elems_of_wake hpc]
    · simp only [Function.update_self, hp, Pc.elems]
  | notifiedAll t woken hp =>
    refine ⟨t, ⟨by rcases hp with hp | hp <;> rw [hp] <;> rfl, fun u hu => ?_, ?_⟩⟩
    · simp only [Shared.notifyAll, Function.update_of_ne hu]
      cases hw : (s.threads u).wake with
      | none => rw [Condvar.notifyAll_of_not_waiting hw]
      | some pc => rw [Condvar.notifyAll_of_waiting hw, Pc.elems_of_wake hw]
    · rcases hp with hp | hp <;> simp [Shared.notifyAll, hp, Pc.elems]
  | refused t woken elem hp | foundEmpty t woken timeout waited hp | waited t woken timeout hp
  | closed t woken timeout waited hp | stored t woken state hp | expired t timeout hp
  | overtaken t timeout hp | woke t timeout hp =>
    refine ⟨t, .goto ?_ ?_ ?_⟩ <;> simp [hp, Pc.elems, Pc.returned]

end NixSrv.Queue
