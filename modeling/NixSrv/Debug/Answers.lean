import Mathlib.Algebra.BigOperators.Fin
import Mathlib.Algebra.Order.BigOperators.Group.Finset
import NixSrv.Debug.Model
import NixSrv.Lib.Places
import NixSrv.Queue.Refinement

/-!
# The answers of the debug module

* `fits`, **`kept_of_run`**: what a thread can be at, by its role and stage;
* `arrived`, `answered`, `refused`, `rejected`: the messages of a run, by their handles;
* `inHand`, `unanswered`, `refusedInHand`: the messages the threads and the queue hold;
* **`balance_of_step`**, `refusals_of_step`: a step loses no message and answers none twice;
* `Accounted`, **`accounted_of_run`**: the messages of a run, and how many can be unanswered.
-/

namespace NixSrv.Debug

open Transition

variable {D : ℕ}

/-! ## Where the threads are -/

/-- The thread can be at this place, given what it is for and its stage. -/
def fits : Role → Stage → Queue.Pc IncomingMessage → Bool
  | .dispatcher, .free, .out | .dispatcher, .free, .pushed _ _ => true
  | .dispatcher, .calling, .push _ => true
  | .dispatcher, .calling, .pushUnlocked elem success
  | .dispatcher, .calling, .pushed elem success => success = elem.isNone
  | .worker, .free, .out | .worker, .free, .popped _ => true
  | .worker, .calling, .pop timeout _ | .worker, .calling, .popEmpty timeout
  | .worker, .calling, .waiting timeout => timeout = -1
  | .worker, .calling, .popped _ => true
  | .worker, .ended, .out | .worker, .ended, .popped _ => true
  | .main, .free, .out | .main, .ended, .out => true
  | .main, .calling, .setEnabled state => !state
  | .main, .calling, .stored | .main, .calling, .out => true
  | _, _, _ => false

theorem fits_goes {r : Role} {stage : Stage} {pc pc' : Queue.Pc IncomingMessage}
    (h : fits r stage pc = true) (hg : pc.Goes pc') : fits r stage pc' = true := by
  cases hg with
  | told pc hp => rcases hp with rfl | rfl <;> cases r <;> cases stage <;> simp_all [fits]
  | accepted | refused | notified | popped | empty | waits | woken | expired | set | cleared =>
    cases r <;> cases stage <;> simp_all [fits]

/-- Every thread is where it can be. -/
def Kept (d : Debug D) : Prop := ∀ t, fits (role t) (d.stages t) (d.q.threads t) = true

theorem role_mainThread (D : ℕ) : role (mainThread D) = .main := by
  simp [role, mainThread, workers]

theorem fits_begins {d : Debug D} {e : Event D} {t : Thread D} {op : Queue.Op IncomingMessage}
    (h : Begins d e t op) : fits (role t) .calling op.start = true := by
  cases h with
  | debugAsync t msg hs => rw [hs.1]; rfl
  | stop hs => rw [role_mainThread]; rfl
  | loop t hr hs hc => rw [hr]; rfl

theorem fits_turns {d : Debug D} {e : Event D} {t : Thread D} {stage : Stage} {sent : List Sent}
    (hk : Kept d) (h : Turns d e t stage sent) : fits (role t) stage (d.q.threads t) = true := by
  have hf := hk t
  cases h with
  | pushed t elem success hr hs hp => rw [hr, hp]; rfl
  | popped t ptr hr hs hp => rw [hr, hp]; rfl
  | returned t hr hs hc =>
    rw [hr, hs] at hf
    rw [hr]
    cases hp : d.q.threads t <;> rw [hp] at hf <;> first | rfl | cases hf
  | joined t hr hs hp hw => rw [hr, hp]; rfl

/-- **A step leaves every thread where it can be.** -/
theorem Kept.step {d d' : Debug D} {e : Event D} (hk : Kept d) (h : (system D).step d e d') :
    Kept d' := by
  intro u
  obtain ⟨sent, -, hcase⟩ := step_cases h
  cases hcase with
  | synced => exact hk u
  | begins _ t op hb hp =>
    by_cases hu : u = t
    · subst hu
      simpa [enter, put] using fits_begins hb
    · simpa [enter, put, hu, Queue.Shared.threads_goto_ne _ hu] using hk u
  | turns _ t stage _ ht =>
    by_cases hu : u = t
    · subst hu
      simpa [put] using fits_turns hk ht
    · simpa [put, hu] using hk u
  | inside e q he hq =>
    rcases Queue.goes_of_step (n := queueSize) hq he u with hsame | hgoes
    · simpa only [hsame] using hk u
    · exact fits_goes (hk u) hgoes

theorem kept_of_run {tr : List (Move D)} {d : Debug D} (hr : Run (system D) tr d) : Kept d := by
  refine hr.state_invariant (I := Kept) ?_ fun d e d' hk h => hk.step h
  rintro _ rfl t
  cases hrole : role t <;> simp [start, Queue.Shared.start, fits]

/-- A thread in a call is in the stage of calls, and the call is not `clear`. -/
theorem calling_of_fits {r : Role} {stage : Stage} {pc : Queue.Pc IncomingMessage}
    (h : fits r stage pc = true) (hp : pc.returned = false) : stage = .calling ∧ pc ≠ .clear := by
  cases pc <;> cases hp <;> cases r <;> cases stage <;>
    first | (cases h; done) | exact ⟨rfl, by simp⟩

theorem elems_of_fits_main {stage : Stage} {pc : Queue.Pc IncomingMessage}
    (h : fits .main stage pc = true) : pc.elems = 0 := by
  cases stage <;> cases pc <;> first | rfl | cases h

theorem Kept.ne_clear {d : Debug D} (hk : Kept d) (t : Thread D) : d.q.threads t ≠ .clear := by
  intro hp
  exact (calling_of_fits (hk t) (by rw [hp]; rfl)).2 hp

/-! ## The messages of a run -/

/-- The message that arrives in a step. -/
def arrivedIn (m : Move D) : List ℕ :=
  match m.event with
  | .debugSync _ msg | .debugAsync _ msg => [msg.handle]
  | _ => []

/-- The message that a step finds no room for, as the queue is full or closed. -/
def refusedIn (m : Move D) : List ℕ :=
  match m.event with
  | .inside (.run t _) =>
    match m.pre.q.threads t with
    | .push msg => if m.pre.q.queue.HasRoom then [] else [msg.handle]
    | _ => []
  | _ => []

/-- The answer rejects the message. -/
def isReject (s : Sent) : Bool :=
  match s.answer with
  | .reject _ => true
  | .reply _ => false

@[simp] theorem isReject_reject (msg : IncomingMessage) (status : StatusCode) (reason : String) :
    isReject (msg.reject status reason) = true := rfl

@[simp] theorem handle_reject (msg : IncomingMessage) (status : StatusCode) (reason : String) :
    (msg.reject status reason).handle = msg.handle := rfl

@[simp] theorem isReject_process (msg : IncomingMessage) : isReject (process msg) = false := rfl

@[simp] theorem handle_process (msg : IncomingMessage) : (process msg).handle = msg.handle := rfl

abbrev arrived (tr : List (Move D)) : List ℕ := tr.flatMap arrivedIn

abbrev refused (tr : List (Move D)) : List ℕ := tr.flatMap refusedIn

abbrev sent (tr : List (Move D)) : List Sent := tr.flatMap sentIn

/-- The messages answered in a run. -/
abbrev answered (tr : List (Move D)) : List ℕ := (sent tr).map (·.handle)

abbrev rejected (tr : List (Move D)) : List ℕ := ((sent tr).filter isReject).map (·.handle)

/-- The messages of a thread that is in a call or has its result. -/
def handlesAt (x : Stage × Queue.Pc IncomingMessage) : Multiset ℕ :=
  if x.1 = .calling then x.2.elems.map (·.handle) else 0

/-- The message a thread has pushed in vain. -/
def refusedAt (x : Stage × Queue.Pc IncomingMessage) : Multiset ℕ :=
  match x with
  | (.calling, .pushUnlocked (some msg) _) | (.calling, .pushed (some msg) _) => {msg.handle}
  | _ => 0

/-- Where each thread is. -/
def places (d : Debug D) (t : Thread D) : Stage × Queue.Pc IncomingMessage :=
  (d.stages t, d.q.threads t)

def inHand (d : Debug D) : Multiset ℕ := Places.total handlesAt d.places

def refusedInHand (d : Debug D) : Multiset ℕ := Places.total refusedAt d.places

def inQueue (d : Debug D) : Multiset ℕ := (d.q.queue.q : Multiset IncomingMessage).map (·.handle)

/-- The messages that a thread or the queue still has. -/
def unanswered (d : Debug D) : Multiset ℕ := inHand d + inQueue d

/-! ## Steps -/

variable {d d' : Debug D} {e : Event D} {t : Thread D}

/-- A thread that begins a call has the message that arrives, if it is a dispatcher. -/
theorem inHand_of_begins {op : Queue.Op IncomingMessage} (hb : Begins d e t op) :
    inHand (d.enter t op) = inHand d + (arrivedIn ⟨d, e, d'⟩ : Multiset ℕ) := by
  have htotal := Places.total_of_ne handlesAt d.places (places (d.enter t op)) t fun u hu => by
    simp [places, enter, put, hu, Queue.Shared.threads_goto_ne _ hu]
  have hbefore : handlesAt (d.places t) = 0 := by
    cases hb with
    | debugAsync t msg hs => simp [handlesAt, places, hs.2.1]
    | stop hs => simp [handlesAt, places, hs]
    | loop t hr hs hc => simp [handlesAt, places, hs]
  have hafter : handlesAt (places (d.enter t op) t) = (arrivedIn ⟨d, e, d'⟩ : Multiset ℕ) := by
    cases hb <;> simp [handlesAt, places, enter, put, arrivedIn, Queue.Op.start, Queue.Pc.elems]
  rwa [hbefore, hafter, add_zero] at htotal

/-- A thread that goes on between calls answers the message it has. -/
theorem inHand_of_turns {stage : Stage} {sent : List Sent} (hk : Kept d)
    (ht : Turns d e t stage sent) :
    inHand (d.put t stage) + (sent.map (·.handle) : List ℕ) = inHand d := by
  have htotal := Places.total_of_ne handlesAt d.places (places (d.put t stage)) t fun u hu => by
    simp [places, put, hu]
  have hafter : handlesAt (places (d.put t stage) t) = 0 := by
    cases ht <;> simp [handlesAt, places, put]
  have hbefore : handlesAt (d.places t) = (sent.map (·.handle) : List ℕ) := by
    cases ht with
    | pushed t elem success hr hs hp =>
      have hf := hk t
      rw [hr, hs, hp] at hf
      obtain rfl : success = elem.isNone := by simpa [fits] using hf
      cases elem <;>
        simp [handlesAt, places, hs, hp, Queue.Pc.elems, pushEnd]
    | popped t ptr hr hs hp =>
      cases ptr <;> simp [handlesAt, places, hs, hp, Queue.Pc.elems]
    | returned t hr hs hc => simp [handlesAt, places, hs]
    | joined t hr hs hp hw => simp [handlesAt, places, hs, hp, Queue.Pc.elems]
  rwa [hafter, add_zero, hbefore] at htotal

/-- Inside the calls messages go between the threads and the queue. -/
theorem unanswered_of_inside {q : Queue.Shared (D + workers + 1) IncomingMessage}
    {e : Queue.Event (D + workers + 1) IncomingMessage} (hk : Kept d) (he : e.isCall = false)
    (hq : d.q.next e = some q) : unanswered { d with q } = unanswered d := by
  obtain ⟨t, hin, hothers, hpassed⟩ := Queue.elems_of_step (n := queueSize) hq he hk.ne_clear
  have hcall := (calling_of_fits (hk t) hin).1
  have htotal := Places.total_of_ne handlesAt d.places (places { d with q }) t fun u hu => by
    simp only [handlesAt, places]
    rw [hothers u hu]
    rfl
  have hmap : (q.threads t).elems.map (·.handle) + inQueue { d with q } =
      (d.q.threads t).elems.map (·.handle) + inQueue d := by
    simp only [inQueue, ← Multiset.map_add, hpassed]
  simp only [handlesAt, places, hcall, if_true] at htotal
  refine add_right_cancel (b := (q.threads t).elems.map (·.handle)) ?_
  calc unanswered { d with q } + (q.threads t).elems.map (·.handle)
      = inHand { d with q } + ((q.threads t).elems.map (·.handle) + inQueue { d with q }) := by
        rw [unanswered, add_assoc (inHand _), add_comm (inQueue _)]
    _ = inHand { d with q } + (d.q.threads t).elems.map (·.handle) + inQueue d := by
        rw [hmap, add_assoc (inHand _)]
    _ = inHand d + (q.threads t).elems.map (·.handle) + inQueue d :=
        congrArg (· + inQueue d) htotal
    _ = unanswered d + (q.threads t).elems.map (·.handle) := by
        rw [unanswered, add_right_comm]

/-- **A step loses no message and answers none twice.** -/
theorem balance_of_step (hk : Kept d) (h : (system D).step d e d') :
    unanswered d + (arrivedIn ⟨d, e, d'⟩ : Multiset ℕ) =
      unanswered d' + ((sentIn ⟨d, e, d'⟩).map (·.handle) : List ℕ) := by
  obtain ⟨sent, hsent, hcase⟩ := step_cases h
  rw [hsent]
  cases hcase with
  | synced => rfl
  | begins _ t op hb hp =>
    have hhand : inHand (d.enter t op) =
        inHand d + (arrivedIn ⟨d, e, d.enter t op⟩ : Multiset ℕ) := inHand_of_begins hb
    rw [unanswered, unanswered, hhand, List.map_nil, Multiset.coe_nil, add_zero, add_right_comm]
    rfl
  | turns _ t stage _ ht =>
    have harrived : arrivedIn ⟨d, e, d.put t stage⟩ = [] := by cases ht <;> rfl
    rw [harrived, Multiset.coe_nil, add_zero, unanswered, unanswered, ← inHand_of_turns hk ht,
      add_right_comm]
    rfl
  | inside e q he hq =>
    rw [unanswered_of_inside hk he hq]
    rfl

/-! ## Refusals -/

/-- A step that takes one thread to another place. -/
theorem refusedInHand_of_ne {d'' : Debug D} {new : Multiset ℕ}
    (hothers : ∀ u, u ≠ t → refusedAt (d''.places u) = refusedAt (d.places u))
    (h : refusedAt (d.places t) + new = refusedAt (d''.places t)) :
    refusedInHand d + new = refusedInHand d'' := by
  have htotal := Places.total_of_ne refusedAt d.places d''.places t hothers
  refine add_right_cancel (b := refusedAt (d.places t)) ?_
  calc refusedInHand d + new + refusedAt (d.places t)
      = refusedInHand d + refusedAt (d''.places t) := by
        rw [add_assoc, add_comm new, h]
    _ = refusedInHand d'' + refusedAt (d.places t) := htotal.symm

theorem refusedAt_of_wake {stage : Stage} {pc pc' : Queue.Pc IncomingMessage}
    (h : pc.wake = some pc') : refusedAt (stage, pc') = refusedAt (stage, pc) := by
  cases pc <;> cases h
  cases stage <;> rfl

/-- Inside the calls a message is refused where the queue has no room. -/
theorem refusals_of_inside {q : Queue.Shared (D + workers + 1) IncomingMessage}
    {e : Queue.Event (D + workers + 1) IncomingMessage} (hk : Kept d) (he : e.isCall = false)
    (hq : d.q.next e = some q) :
    refusedInHand d + (refusedIn ⟨d, .inside e, { d with q }⟩ : Multiset ℕ) =
      refusedInHand { d with q } := by
  have hgoto : ∀ {t u : Thread D} {q₀ : Queue.Shared (D + workers + 1) IncomingMessage}
      {pc : Queue.Pc IncomingMessage}, q₀.threads = d.q.threads → u ≠ t →
      refusedAt (places { d with q := q₀.goto t pc } u) = refusedAt (d.places u) := by
    intro t u q₀ pc hth hu
    simp only [places, Queue.Shared.threads_goto_ne _ hu, hth]
  cases Queue.step_cases (n := queueSize) hq with
  | called => cases he
  | accepted t woken elem hp ho hr | refused t woken elem hp ho hr =>
    have hs := (calling_of_fits (hk t) (by rw [hp]; rfl)).1
    exact refusedInHand_of_ne (fun u hu => hgoto rfl hu)
      (by simp [refusedIn, refusedAt, places, hp, hr, hs])
  | notifiedOne t woken elem success hp hw =>
    refine refusedInHand_of_ne (t := t) (fun u hu => ?_) ?_
    · simp only [places, Function.update_of_ne hu]
      rcases Condvar.notifyOne_cases d.q.threads woken u with h' | ⟨pc, hpc, h'⟩
      · rw [h']
      · rw [h', refusedAt_of_wake hpc]
    · have hs := (calling_of_fits (hk t) (by rw [hp]; rfl)).1
      cases elem <;> simp [refusedIn, refusedAt, places, hp, hs]
  | notifiedAll t woken hp =>
    refine refusedInHand_of_ne (t := t) (fun u hu => ?_) ?_
    · simp only [places, Queue.Shared.notifyAll, Function.update_of_ne hu]
      cases hw : (d.q.threads u).wake with
      | none => rw [Condvar.notifyAll_of_not_waiting hw]
      | some pc => rw [Condvar.notifyAll_of_waiting hw, refusedAt_of_wake hw]
    · rcases hp with hp | hp <;>
        simp [refusedIn, refusedAt, places, Queue.Shared.notifyAll, hp]
  | closed t _ _ _ hp | took t _ _ _ _ _ hp | foundEmpty t _ _ _ hp | waited t _ _ hp
  | stored t _ _ hp | cleared t _ hp | expired t _ hp | overtaken t _ hp | woke t _ hp =>
    exact refusedInHand_of_ne (fun u hu => hgoto rfl hu)
      (by simp [refusedIn, refusedAt, places, hp])

/-- **A step rejects a message that the queue had no room for.** -/
theorem refusals_of_step (hk : Kept d) (h : (system D).step d e d') :
    refusedInHand d + (refusedIn ⟨d, e, d'⟩ : Multiset ℕ) = refusedInHand d' +
      (((sentIn ⟨d, e, d'⟩).filter isReject).map (·.handle) : List ℕ) := by
  obtain ⟨sent, hsent, hcase⟩ := step_cases h
  rw [hsent]
  cases hcase with
  | synced => rfl
  | begins _ t op hb hp =>
    have hin : refusedIn ⟨d, e, d.enter t op⟩ = [] := by cases hb <;> rfl
    rw [hin, List.filter_nil, List.map_nil, Multiset.coe_nil,
      add_zero (refusedInHand (d.enter t op))]
    refine refusedInHand_of_ne (t := t) (fun u hu => ?_) ?_
    · simp [places, enter, put, hu, Queue.Shared.threads_goto_ne _ hu]
    · cases hb with
      | debugAsync t msg hs => simp [refusedAt, places, enter, put, Queue.Op.start, hs.2.1]
      | stop hs => simp [refusedAt, places, enter, put, Queue.Op.start, hs]
      | loop t hr hs hc => simp [refusedAt, places, enter, put, Queue.Op.start, hs]
  | turns _ t stage _ ht =>
    have hin : refusedIn ⟨d, e, d.put t stage⟩ = [] := by cases ht <;> rfl
    rw [hin, Multiset.coe_nil, add_zero]
    symm
    refine refusedInHand_of_ne (t := t) (fun u hu => ?_) ?_
    · simp [places, put, hu]
    · cases ht with
      | pushed t elem success hr hs hp =>
        have hf := hk t
        rw [hr, hs, hp] at hf
        obtain rfl : success = elem.isNone := by simpa [fits] using hf
        cases elem <;> simp [refusedAt, places, put, hs, hp, pushEnd, List.filter_cons]
      | popped t ptr hr hs hp =>
        cases ptr <;> simp [refusedAt, places, put, hs, hp]
      | returned t hr hs hc => simp [refusedAt, places, put, hs]
      | joined t hr hs hp hw => simp [refusedAt, places, put, hs, hp]
  | inside e q he hq =>
    rw [List.filter_nil, List.map_nil, Multiset.coe_nil, add_zero]
    exact refusals_of_inside hk he hq

/-! ## Runs -/

variable {tr : List (Move D)}

theorem balance_of_run (hr : Run (system D) tr d) :
    (arrived tr : Multiset ℕ) = unanswered d + (answered tr : Multiset ℕ) := by
  induction hr with
  | nil h =>
    cases h
    have hhand : inHand (start D) = 0 := Places.total_eq_zero fun t => rfl
    rw [unanswered, hhand]
    rfl
  | @snoc tr d d' e hr hs ih =>
    have hstep := balance_of_step (kept_of_run hr) hs
    simp only [arrived, answered, sent, List.flatMap_append, List.flatMap_singleton,
      List.map_append, ← Multiset.coe_add] at ih ⊢
    rw [ih, add_right_comm, hstep, add_right_comm, add_assoc]

theorem refusals_of_run (hr : Run (system D) tr d) :
    (refused tr : Multiset ℕ) = refusedInHand d + (rejected tr : Multiset ℕ) := by
  induction hr with
  | nil h =>
    cases h
    have hhand : refusedInHand (start D) = 0 := Places.total_eq_zero fun t => rfl
    rw [hhand]
    rfl
  | @snoc tr d d' e hr hs ih =>
    have hstep := refusals_of_step (kept_of_run hr) hs
    simp only [refused, rejected, sent, List.flatMap_append, List.flatMap_singleton,
      List.filter_append, List.map_append, ← Multiset.coe_add] at ih ⊢
    rw [ih, add_right_comm, hstep, add_right_comm, add_assoc]

/-- Each dispatcher and each worker has one message at most, and the main thread none. -/
theorem card_inHand_le (hk : Kept d) : (inHand d).card ≤ D + workers := by
  have hone : ∀ t, (handlesAt (d.places t)).card ≤ 1 := fun t => by
    rw [handlesAt]
    split_ifs
    · rw [Multiset.card_map]
      exact Queue.Pc.card_elems_le _
    · exact Nat.zero_le _
  have hmain : (handlesAt (d.places (mainThread D))).card = 0 := by
    have hf := hk (mainThread D)
    rw [role_mainThread] at hf
    rw [handlesAt, places, elems_of_fits_main hf]
    split_ifs <;> rfl
  calc (inHand d).card
      = ∑ t : Thread D, (handlesAt (d.places t)).card := by
        rw [inHand, Places.total, Multiset.card_sum]
    _ = ∑ t : Fin (D + workers), (handlesAt (d.places t.castSucc)).card := by
        rw [Fin.sum_univ_castSucc, hmain, add_zero]
    _ ≤ ∑ _t : Fin (D + workers), 1 := Finset.sum_le_sum fun t _ => hone _
    _ = D + workers := by simp

/-- The messages of a run: each is answered once or is still with a thread or the queue, which are
few, and those rejected are those for which there was no room. -/
structure Accounted (tr : List (Move D)) (d : Debug D) : Prop where
  balance : (arrived tr : Multiset ℕ) = unanswered d + (answered tr : Multiset ℕ)
  once : (arrived tr).Nodup → (answered tr).Nodup
  refusals : (refused tr : Multiset ℕ) = refusedInHand d + (rejected tr : Multiset ℕ)
  queue_le : d.q.queue.q.length ≤ queueSize
  unanswered_le : (unanswered d).card ≤ D + workers + queueSize

/-- The run with the given events, and its last state. -/
abbrev runOf (es : List (Event 1)) : List (Move 1) × Debug 1 := traceOf next (start 1) es

def dispatcher : Thread 1 := ⟨0, by decide⟩

def worker (i : Fin workers) : Thread 1 := workerThread 1 i

def firstWorker : Thread 1 := worker ⟨0, by decide⟩

def secondWorker : Thread 1 := worker ⟨1, by decide⟩

def request : IncomingMessage := ⟨.ofMembers [], 7, rfl⟩

/-- A message arrives and is added to the queue. -/
def addition : List (Event 1) := [.debugAsync dispatcher request, .inside (.run dispatcher)]

/-- The first worker has answered one message and taken another from the queue, where there is a
third one. -/
def threeArrived : List (Event 1) :=
  addition ++ [.inside (.run dispatcher), .own dispatcher] ++
    [.own firstWorker, .inside (.run firstWorker), .own firstWorker] ++
    addition ++ [.inside (.run dispatcher), .own dispatcher] ++
    [.own firstWorker, .inside (.run firstWorker)] ++ addition

end NixSrv.Debug
