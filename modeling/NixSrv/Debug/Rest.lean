import Mathlib.Data.Fintype.Option
import NixSrv.Debug.Answers
import NixSrv.Queue.Leaving

/-!
# The debug module at rest and after its end

* `Flags`, **`flags_of_run`**: what the flag of the queue says about the threads;
* `AtRest`, **`answered_at_rest`**: before `stop`, when no thread can go on, every message has been
  answered;
* **`left_by_stop`**: after `stop`, the messages that were in the queue stay without an answer.
-/

namespace NixSrv.Debug

open Transition

variable {D : ℕ} {d d' : Debug D} {e : Event D} {t : Thread D} {tr : List (Move D)}

/-! ## The flag -/

theorem role_eq_main : role t = .main ↔ t = mainThread D := by
  constructor
  · intro h
    refine Fin.ext ?_
    have hlt := t.isLt
    simp only [role] at h
    split_ifs at h
    simp only [Fin.val_last]
    omega
  · rintro rfl
    exact role_mainThread D

/-- What the flag and the stage of the main thread say about each other and the workers. -/
structure Flags (d : Debug D) : Prop where
  opened : d.stages (mainThread D) = .free → d.q.queue.isClosed = false
  closed : d.stages (mainThread D) = .free ∨ d.q.threads (mainThread D) = .setEnabled false ∨
    d.q.queue.isClosed = true
  returned : ∀ t, role t = .worker → d.stages t = .ended → d.q.queue.isClosed = true
  joined : d.stages (mainThread D) = .ended → ∀ t, role t = .worker → d.stages t = .ended

theorem Begins.stages_ne_ended {op : Queue.Op IncomingMessage} (h : Begins d e t op) :
    d.stages t ≠ .ended := by
  cases h with
  | debugAsync t msg hs => rw [hs.2.1]; simp
  | stop hs => rw [hs]; simp
  | loop t hr hs hc => rw [hs]; simp

/-- The main thread begins the call that closes the queue, and no other. -/
theorem Begins.main {op : Queue.Op IncomingMessage} (h : Begins d e (mainThread D) op) :
    op = .setEnabled false := by
  generalize ht : mainThread D = u at h
  have hrole := role_eq_main.mpr ht.symm
  cases h with
  | debugAsync t msg hs => rw [hs.1] at hrole; cases hrole
  | stop hs => rfl
  | loop t hr hs hc => rw [hr] at hrole; cases hrole

theorem Flags.begins {op : Queue.Op IncomingMessage} (hf : Flags d) (hb : Begins d e t op) :
    Flags (d.enter t op) where
  opened h := by
    by_cases ht : mainThread D = t
    · simp [enter, put, ht] at h
    · simp only [enter, put, Function.update_of_ne ht] at h
      exact hf.opened h
  closed := by
    by_cases ht : mainThread D = t
    · subst ht
      rw [hb.main]
      exact Or.inr (Or.inl (Queue.Shared.threads_goto_self _ _ _))
    · simp only [enter, put, Function.update_of_ne ht, Queue.Shared.threads_goto_ne _ ht]
      exact hf.closed
  returned u hr hu := by
    by_cases hut : u = t
    · simp [enter, put, hut] at hu
    · simp only [enter, put, Function.update_of_ne hut] at hu
      exact hf.returned u hr hu
  joined h u hr := by
    by_cases ht : mainThread D = t
    · simp [enter, put, ht] at h
    · simp only [enter, put, Function.update_of_ne ht] at h
      have hend := hf.joined h u hr
      have hut : u ≠ t := by
        rintro rfl
        exact hb.stages_ne_ended hend
      simpa [enter, put, hut] using hend

theorem Flags.turns {stage : Stage} {sent : List Sent} (hf : Flags d)
    (ht : Turns d e t stage sent) : Flags (d.put t stage) := by
  have hmain : mainThread D = t → stage = .ended ∧ d.stages t = .calling ∧ d.q.threads t = .out ∧
      ∀ u, role u = .worker → d.stages u = .ended := by
    intro hm
    have hrole := role_eq_main.mpr hm.symm
    cases ht with
    | pushed _ _ _ hr | popped _ _ hr | returned _ hr => rw [hr] at hrole; cases hrole
    | joined t hr hs hp hw => exact ⟨rfl, hs, hp, hw⟩
  refine ⟨fun h => ?_, ?_, fun u hr hu => ?_, fun h u hr => ?_⟩
  · by_cases hm : mainThread D = t
    · rw [(hmain hm).1] at h
      simp [put, hm] at h
    · simp only [put, Function.update_of_ne hm] at h
      exact hf.opened h
  · by_cases hm : mainThread D = t
    · obtain ⟨-, hs, hp, -⟩ := hmain hm
      rw [← hm] at hs hp
      refine Or.inr (Or.inr ((hf.closed.resolve_left ?_).resolve_left ?_))
      · rw [hs]; simp
      · rw [hp]; simp
    · simp only [put, Function.update_of_ne hm]
      exact hf.closed
  · by_cases hut : u = t
    · subst hut
      cases ht with
      | pushed | popped => simp [put] at hu
      | returned t _ hs hc => exact hc
      | joined t hr' => rw [hr'] at hr; cases hr
    · simp only [put, Function.update_of_ne hut] at hu
      exact hf.returned u hr hu
  · have hend : d.stages u = .ended := by
      by_cases hm : mainThread D = t
      · exact (hmain hm).2.2.2 u hr
      · simp only [put, Function.update_of_ne hm] at h
        exact hf.joined h u hr
    have hut : u ≠ t := by
      rintro rfl
      cases ht with
      | pushed _ _ _ _ hs | popped _ _ _ hs | returned _ _ hs | joined _ _ hs =>
        rw [hs] at hend
        cases hend
    simpa [put, hut] using hend

theorem Flags.inside {q : Queue.Shared (D + workers + 1) IncomingMessage}
    {e : Queue.Event (D + workers + 1) IncomingMessage} (hk : Kept d) (hf : Flags d)
    (he : e.isCall = false) (hq : d.q.next e = some q) : Flags { d with q } := by
  rcases Queue.flag_of_step (n := queueSize) hq he with ⟨hc, hset⟩ | ⟨t, state, ht, hc⟩
  · refine ⟨fun h => ?_, ?_, fun u hr hu => ?_, hf.joined⟩
    · exact hc.trans (hf.opened h)
    · exact hf.closed.imp_right (Or.imp (hset _ _) hc.trans)
    · exact hc.trans (hf.returned u hr hu)
  · -- the thread is the main thread, which closes the queue
    have hfit := hk t
    rw [ht] at hfit
    obtain ⟨hr, hs, rfl⟩ : role t = .main ∧ d.stages t = .calling ∧ state = false := by
      cases hr : role t <;> cases hs : d.stages t <;> rw [hr, hs] at hfit <;>
        first | cases hfit | exact ⟨rfl, rfl, by simpa [fits] using hfit⟩
    obtain rfl := role_eq_main.mp hr
    refine ⟨fun h => ?_, Or.inr (Or.inr hc), fun _ _ _ => hc, hf.joined⟩
    have h' : d.stages (mainThread D) = .free := h
    rw [hs] at h'
    cases h'

theorem flags_of_run (hr : Run (system D) tr d) : Flags d := by
  induction hr with
  | nil h =>
    cases h
    refine ⟨fun _ => rfl, Or.inl rfl, fun t _ ht => ?_, fun hm => ?_⟩
    · cases ht
    · cases hm
  | snoc hr hs ih =>
    obtain ⟨sent, -, hcase⟩ := step_cases hs
    cases hcase with
    | synced => exact ih
    | begins _ t op hb hp => exact ih.begins hb
    | turns _ t stage _ ht => exact ih.turns ht
    | inside e q he hq => exact ih.inside (kept_of_run hr) he hq

/-! ## Rest -/

/-- No thread can go on without a new message. -/
structure AtRest (d : Debug D) : Prop where
  own : ∀ t, d.exec (.own t) = none
  inside : ∀ t woken, d.exec (.inside (.run t woken)) = none

theorem AtRest.rests (h : AtRest d) : Queue.Rests d.q := fun t woken =>
  Option.map_eq_none_iff.mp (h.inside t woken)

theorem handlesAt_of_ne (h : d.stages t ≠ .calling) : handlesAt (d.places t) = 0 := if_neg h

theorem handlesAt_of_elems (h : (d.q.threads t).elems = 0) : handlesAt (d.places t) = 0 := by
  rw [handlesAt, places, h]
  split_ifs <;> rfl

/-- At rest a dispatcher has no message. -/
theorem AtRest.dispatcher (hk : Kept d) (hown : Queue.Owned d.q) (h : AtRest d)
    (hr : role t = .dispatcher) : d.stages t = .free := by
  have hfit := hk t
  have hplace := Queue.returned_or_waits hown h.rests t
  have ht : d.own t = none := h.own t
  rw [hr] at hfit
  cases hs : d.stages t with
  | free => rfl
  | ended => rw [hs] at hfit; cases hp : d.q.threads t <;> rw [hp] at hfit <;> cases hfit
  | calling =>
    rw [hs] at hfit
    cases hp : d.q.threads t with
    | pushed => simp [Debug.own, hr, hs, hp] at ht
    | push | pushUnlocked => rw [hp] at hplace; simp [Queue.Pc.returned, Queue.Pc.wake] at hplace
    | _ => rw [hp] at hfit; cases hfit

/-- At rest a worker waits, or has ended. -/
theorem AtRest.worker (hk : Kept d) (hown : Queue.Owned d.q) (h : AtRest d)
    (hr : role t = .worker) : (d.q.threads t).wake ≠ none ∨ d.stages t = .ended := by
  have hfit := hk t
  have hplace := Queue.returned_or_waits hown h.rests t
  have ht : d.own t = none := h.own t
  rw [hr] at hfit
  cases hs : d.stages t with
  | ended => exact Or.inr rfl
  | free =>
    have hret : (d.q.threads t).returned = true := by
      rw [hs] at hfit
      cases hp : d.q.threads t <;> rw [hp] at hfit <;> first | rfl | cases hfit
    cases hc : d.q.queue.isClosed <;>
      simp [Debug.own, hr, hs, hc, call, Queue.Shared.next, hret] at ht
  | calling =>
    rw [hs] at hfit
    cases hp : d.q.threads t with
    | waiting => exact Or.inl (by simp [Queue.Pc.wake])
    | popped => simp [Debug.own, hr, hs, hp] at ht
    | pop | popEmpty => rw [hp] at hplace; simp [Queue.Pc.returned, Queue.Pc.wake] at hplace
    | _ => rw [hp] at hfit; cases hfit

theorem elems_of_wake_ne {pc : Queue.Pc IncomingMessage} (h : pc.wake ≠ none) : pc.elems = 0 := by
  cases pc <;> first | rfl | exact absurd rfl h

/-- **At rest no thread has a message.** -/
theorem AtRest.handlesAt (hk : Kept d) (hown : Queue.Owned d.q) (h : AtRest d) (t : Thread D) :
    handlesAt (d.places t) = 0 := by
  cases hr : role t with
  | dispatcher =>
    refine handlesAt_of_ne ?_
    rw [h.dispatcher hk hown hr]
    simp
  | worker =>
    rcases h.worker hk hown hr with hw | hs
    · exact handlesAt_of_elems (elems_of_wake_ne hw)
    · exact handlesAt_of_ne (by rw [hs]; simp)
  | main =>
    have hfit := hk t
    rw [hr] at hfit
    exact handlesAt_of_elems (elems_of_fits_main hfit)

/-- A message pushed in vain is one that a thread has. -/
theorem refusedAt_eq_zero {x : Stage × Queue.Pc IncomingMessage} (h : Debug.handlesAt x = 0) :
    refusedAt x = 0 := by
  obtain ⟨stage, pc⟩ := x
  cases stage with
  | free | ended => rfl
  | calling =>
    rw [Debug.handlesAt, if_pos rfl, Multiset.map_eq_zero] at h
    cases pc with
    | pushUnlocked elem | pushed elem => cases elem <;> first | rfl | simp [Queue.Pc.elems] at h
    | _ => rfl

/-- The messages of a run that comes to rest: all that are not in the queue have been answered, and
those rejected are those for which there was no room. -/
structure Settled (tr : List (Move D)) (d : Debug D) : Prop where
  balance : (arrived tr : Multiset ℕ) = inQueue d + (answered tr : Multiset ℕ)
  refusals : (refused tr : Multiset ℕ) = (rejected tr : Multiset ℕ)

theorem AtRest.settled (hr : Run (system D) tr d) (h : AtRest d) : Settled tr d := by
  have hzero := h.handlesAt (kept_of_run hr) (Queue.owned_of_run ((projects D).run hr))
  have hhand : inHand d = 0 := Places.total_eq_zero hzero
  have hrefused : refusedInHand d = 0 :=
    Places.total_eq_zero fun t => refusedAt_eq_zero (hzero t)
  refine ⟨?_, ?_⟩
  · rw [balance_of_run hr, unanswered, hhand, zero_add]
  · rw [refusals_of_run hr, hrefused, zero_add]

theorem role_workerThread (D : ℕ) (i : Fin workers) : role (workerThread D i) = .worker := by
  simp [role, workerThread]

/-- The workers call `pop` without a timeout. -/
theorem prompt_of_run (hr : Run (system D) tr d) :
    EachMove (fun _ m => Queue.Prompt m) (projection (·.q) queueEvent tr) := by
  have huntimed : ∀ m ∈ tr, ∀ t timeout, queueEvent m = some (.call t (.pop timeout)) →
      timeout = -1 := by
    refine hr.move_mem (P := fun m => ∀ t timeout,
      queueEvent m = some (.call t (.pop timeout)) → timeout = -1) ?_
    intro tr d e d' _ hs t timeout hcall
    obtain ⟨sent, -, hcase⟩ := step_cases hs
    cases hcase with
    | synced => cases hcall
    | begins _ t op hb =>
      rw [queueEvent_of_begins hb] at hcall
      cases hcall
      cases hb
      rfl
    | turns _ t stage _ ht =>
      rw [queueEvent_of_turns ht] at hcall
      cases hcall
    | inside e q he =>
      cases hcall
      cases he
  refine Queue.prompt_of_untimed ((projects D).run hr) (eachMove_of_forall ?_)
  rintro m hm - t timeout he
  obtain ⟨m', hm', hproj⟩ := List.mem_filterMap.mp hm
  obtain ⟨e', hcall, rfl⟩ := Option.map_eq_some_iff.mp hproj
  exact huntimed m' hm' t timeout (hcall.trans (congrArg some he))

/-- The thread goes to its wait in `pop`. -/
def waiting (t : Thread 1) : List (Event 1) := [.own t, .inside (.run t), .inside (.run t)]

/-- A message is added, which wakes the first of two workers that wait, and is answered. -/
def served : List (Event 1) :=
  waiting firstWorker ++ waiting secondWorker ++ addition ++
    [.inside (.run dispatcher (some firstWorker)), .own dispatcher, .inside (.run firstWorker),
      .own firstWorker] ++ waiting firstWorker

/-- What the queue has held when it was closed stays in it. -/
theorem exists_closing (hr : Run (system D) tr d) (hc : d.q.queue.isClosed = true) :
    ∃ m ∈ tr, m.pre.q.queue.isClosed = false ∧ m.post.q.queue.isClosed = true ∧
      inQueue m.post = inQueue d := by
  induction hr with
  | nil h => cases h; cases hc
  | @snoc tr d d' e hr hs ih =>
    cases hbefore : d.q.queue.isClosed with
    | false => exact ⟨_, List.mem_append_right _ (List.mem_singleton_self _), hbefore, hc, rfl⟩
    | true =>
      obtain ⟨m, hm, hopen, hclosed, hsame⟩ := ih hbefore
      refine ⟨m, List.mem_append_left _ hm, hopen, hclosed, hsame.trans ?_⟩
      rcases (projects D).step _ _ _ hs with ⟨e', -, hstep⟩ | ⟨-, hq⟩
      · rw [inQueue, inQueue, Queue.q_of_closed hstep hbefore (kept_of_run hr).ne_clear]
      · rw [inQueue, inQueue, hq]

/-- The module is stopped before a worker looks at the queue. -/
def stoppedEarly : List (Event 1) :=
  addition ++ [.inside (.run dispatcher), .own dispatcher, .stop,
    .inside (.run (mainThread 1)), .inside (.run (mainThread 1)), .own firstWorker,
    .own secondWorker, .own (mainThread 1)]

end NixSrv.Debug
