import NixSrv.Lib.Fifo
import NixSrv.Queue.Threads

/-!
# The shared queue as a bounded first-in first-out queue

* `acceptedIn`, `returnedIn`, `droppedIn`: what a step lets in, gives to a caller of `pop`, clears;
* `fifoOp`, **`step_fifo`**: a step as an operation on a first-in first-out queue;
* `Refines`, **`refines_of_run`**: content, flag and capacity after a run;
* `Lawful`, **`queue_refines`**: the same with what each step decides.
-/

namespace NixSrv.Queue

open Transition

variable {D : ℕ} {α : Type*}

/-! ## What happens to elements in a step -/

/-- The element whose push is accepted. -/
def acceptedIn (m : Move D α) : List α :=
  match m.event with
  | .run t _ =>
    match m.pre.threads t, m.post.threads t with
    | .push elem, .pushUnlocked _ true => [elem]
    | _, _ => []
  | _ => []

/-- The element a call of `pop` returns. -/
def returnedIn (m : Move D α) : List α :=
  match m.event with
  | .run t _ =>
    match m.pre.threads t, m.post.threads t with
    | .pop _ _, .popped (some ptr) => [ptr]
    | _, _ => []
  | _ => []

/-- The elements a call of `clear` drops. -/
def droppedIn (m : Move D α) : List α :=
  match m.event with
  | .run t _ =>
    match m.pre.threads t with
    | .clear => m.pre.queue.q
    | _ => []
  | _ => []

/-- The step as an operation on the content. -/
def fifoOp (m : Move D α) : Fifo.Op α :=
  match m.event with
  | .run t _ =>
    match m.pre.threads t with
    | .push elem => if m.pre.queue.HasRoom then .enter elem else .keep
    | .pop _ _ => if m.pre.queue.isClosed then .keep else .take
    | .clear => .flush
    | _ => .keep
  | _ => .keep

/-- What a step is as an operation on a first-in first-out queue. -/
structure IsFifo (m : Move D α) : Prop where
  content : m.post.queue.q = (fifoOp m).apply m.pre.queue.q
  accepted : acceptedIn m = (fifoOp m).enters
  returned : returnedIn m = (fifoOp m).takes m.pre.queue.q
  dropped : droppedIn m = (fifoOp m).flushes m.pre.queue.q

/-- A step that leaves the elements alone. -/
theorem IsFifo.keep {m : Move D α} (hop : fifoOp m = .keep) (hq : m.post.queue.q = m.pre.queue.q)
    (ha : acceptedIn m = []) (hr : returnedIn m = []) (hd : droppedIn m = []) : IsFifo m := by
  refine ⟨?_, ?_, ?_, ?_⟩
  · rw [hop, hq]; rfl
  · rw [hop, ha]; rfl
  · rw [hop, hr]; rfl
  · rw [hop, hd]; rfl

/-- **A step of a thread is an operation on a first-in first-out queue.** -/
theorem step_fifo {n : ℕ} {s s' : Shared D α} {e : Event D α}
    (h : (sharedQueue D α n).step s e s') : IsFifo ⟨s, e, s'⟩ := by
  cases step_cases h with
  | called | expired | overtaken | woke => exact .keep rfl rfl rfl rfl rfl
  | accepted t woken elem hp ho hr =>
    refine ⟨?_, ?_, ?_, ?_⟩ <;>
      simp [fifoOp, acceptedIn, returnedIn, droppedIn, hp, hr, Fifo.Op.apply, Fifo.Op.enters,
        Fifo.Op.takes, Fifo.Op.flushes]
  | refused t woken elem hp ho hr =>
    exact .keep (by simp [fifoOp, hp, hr]) rfl (by simp [acceptedIn, hp])
      (by simp [returnedIn, hp]) (by simp [droppedIn, hp])
  | closed t woken timeout waited hp ho hc =>
    exact .keep (by simp [fifoOp, hp, hc]) rfl (by simp [acceptedIn, hp])
      (by simp [returnedIn, hp]) (by simp [droppedIn, hp])
  | took t woken timeout waited ptr rest hp ho hc hq =>
    refine ⟨?_, ?_, ?_, ?_⟩ <;>
      simp [fifoOp, acceptedIn, returnedIn, droppedIn, hp, hc, hq, Fifo.Op.apply, Fifo.Op.enters,
        Fifo.Op.takes, Fifo.Op.flushes]
  | foundEmpty t woken timeout waited hp ho hc hq =>
    refine ⟨?_, ?_, ?_, ?_⟩ <;>
      simp [fifoOp, acceptedIn, returnedIn, droppedIn, hp, hc, hq, Fifo.Op.apply, Fifo.Op.enters,
        Fifo.Op.takes, Fifo.Op.flushes]
  | cleared t woken hp ho =>
    refine ⟨?_, ?_, ?_, ?_⟩ <;>
      simp [fifoOp, acceptedIn, returnedIn, droppedIn, hp, Fifo.Op.apply, Fifo.Op.enters,
        Fifo.Op.takes, Fifo.Op.flushes]
  | notifiedOne t woken elem success hp | waited t woken timeout hp | stored t woken state hp =>
    exact .keep (by simp [fifoOp, hp]) rfl (by simp [acceptedIn, hp]) (by simp [returnedIn, hp])
      (by simp [droppedIn, hp])
  | notifiedAll t woken hp =>
    rcases hp with hp | hp
    · exact .keep (by simp [fifoOp, hp]) rfl (by simp [acceptedIn, hp]) (by simp [returnedIn, hp])
        (by simp [droppedIn, hp])
    · exact .keep (by simp [fifoOp, hp]) rfl (by simp [acceptedIn, hp]) (by simp [returnedIn, hp])
        (by simp [droppedIn, hp])

/-! ## Runs -/

/-- The elements accepted so far, oldest first. -/
abbrev accepted (tr : List (Move D α)) : List α := tr.flatMap acceptedIn

abbrev returned (tr : List (Move D α)) : List α := tr.flatMap returnedIn

abbrev dropped (tr : List (Move D α)) : List α := tr.flatMap droppedIn

theorem accepted_snoc (tr : List (Move D α)) (m : Move D α) :
    accepted (tr ++ [m]) = accepted tr ++ acceptedIn m := by
  rw [accepted, List.flatMap_append, List.flatMap_singleton]

theorem returned_snoc (tr : List (Move D α)) (m : Move D α) :
    returned (tr ++ [m]) = returned tr ++ returnedIn m := by
  rw [returned, List.flatMap_append, List.flatMap_singleton]

theorem dropped_snoc (tr : List (Move D α)) (m : Move D α) :
    dropped (tr ++ [m]) = dropped tr ++ droppedIn m := by
  rw [dropped, List.flatMap_append, List.flatMap_singleton]

/-- The capacity the constructor gives. -/
def capacity (queueSize : ℕ) : ℕ := if queueSize ≠ 0 then queueSize else 50

/-- The queue after a run of a bounded first-in first-out queue with an open flag. -/
structure Refines [DecidableEq α] (n : ℕ) (tr : List (Move D α)) (s : Shared D α) : Prop where
  /-- What has gone in one order, followed by what is left, is what was accepted. -/
  order : tr.flatMap (fun m => returnedIn m ++ droppedIn m) ++ s.queue.q = accepted tr
  returned_sublist : (returned tr).Sublist (accepted tr)
  accounted : ∀ x, (accepted tr).count x =
    (returned tr).count x + (dropped tr).count x + s.queue.q.count x
  returned_once : (accepted tr).Nodup → (returned tr).Nodup
  flag : s.queue.isClosed = ((lastStore tr).map fun w => !w.2).getD false
  capacity : s.queue.queueSize = capacity n
  bounded : s.queue.q.length ≤ Queue.capacity n

/-- The histories of the run and those of the first-in first-out queue. -/
theorem fifo_of_run {n : ℕ} {tr : List (Move D α)} {s : Shared D α}
    (hr : Run (sharedQueue D α n) tr s) :
    Fifo.content fifoOp tr = s.queue.q ∧ accepted tr = Fifo.entered fifoOp tr ∧
      returned tr = Fifo.taken fifoOp tr ∧ dropped tr = Fifo.flushed fifoOp tr := by
  induction hr with
  | nil h => cases h; exact ⟨rfl, rfl, rfl, rfl⟩
  | @snoc tr s s' e hr hs ih =>
    obtain ⟨hc, ha, ht, hf⟩ := ih
    have h := step_fifo hs
    refine ⟨?_, ?_, ?_, ?_⟩
    · rw [Fifo.content_snoc, hc]
      exact h.content.symm
    · rw [accepted_snoc, ha, h.accepted, Fifo.entered_snoc]
    · rw [returned_snoc, ht, h.returned, Fifo.taken_snoc, hc]
    · rw [dropped_snoc, hf, h.dropped, Fifo.flushed_snoc, hc]

theorem order_of_run {n : ℕ} {tr : List (Move D α)} {s : Shared D α}
    (hr : Run (sharedQueue D α n) tr s) :
    tr.flatMap (fun m => returnedIn m ++ droppedIn m) ++ s.queue.q = accepted tr := by
  induction hr with
  | nil h => cases h; rfl
  | @snoc tr s s' e hr hs ih =>
    have h := step_fifo hs
    have hstep := (fifoOp ⟨s, e, s'⟩).takes_append_apply s.queue.q
    rw [accepted_snoc, ← ih, List.flatMap_append, List.flatMap_singleton, h.returned, h.dropped,
      h.accepted, h.content, List.append_assoc, hstep, List.append_assoc]

/-- **The shared queue after a run.** -/
theorem refines_of_run [DecidableEq α] {n : ℕ} {tr : List (Move D α)} {s : Shared D α}
    (hr : Run (sharedQueue D α n) tr s) : Refines n tr s := by
  obtain ⟨hc, ha, ht, hf⟩ := fifo_of_run hr
  have hsub : (returned tr).Sublist (accepted tr) := by
    rw [ha, ht]
    exact Fifo.taken_sublist_entered tr
  have hcap : s.queue.queueSize = capacity n := by
    refine hr.state_invariant (I := fun s => s.queue.queueSize = capacity n) ?_ ?_
    · rintro _ rfl
      rfl
    · intro s e s' h hs
      cases step_cases hs <;> exact h
  refine ⟨order_of_run hr, hsub, fun x => ?_, fun h => hsub.nodup h, isClosed_of_run hr, hcap,
    hcap ▸ s.queue.length_le⟩
  rw [ha, ht, hf, ← hc, Fifo.count_entered]
  omega

/-! ## What each step decides -/

/-- What a member called on the queue has to do, whatever the other threads are at. -/
structure Lawful (n : ℕ) (m : Move D α) : Prop where
  push_accepted : ∀ t woken elem, m.event = .run t woken → m.pre.threads t = .push elem →
    m.pre.queue.isClosed = false → m.pre.queue.q.length < capacity n →
    m.post.queue.q = m.pre.queue.q ++ [elem] ∧ m.post.threads t = .pushUnlocked none true
  push_refused : ∀ t woken elem, m.event = .run t woken → m.pre.threads t = .push elem →
    ¬ (m.pre.queue.isClosed = false ∧ m.pre.queue.q.length < capacity n) →
    m.post.queue = m.pre.queue ∧ m.post.threads t = .pushUnlocked (some elem) false
  push_returns : ∀ t woken elem success, m.event = .run t woken →
    m.pre.threads t = .pushUnlocked elem success →
    m.post.queue = m.pre.queue ∧ m.post.threads t = .pushed elem success
  pop_closed : ∀ t woken timeout waited, m.event = .run t woken →
    m.pre.threads t = .pop timeout waited → m.pre.queue.isClosed = true →
    m.post.queue = m.pre.queue ∧ m.post.threads t = .popped none
  pop_front : ∀ t woken timeout waited ptr rest, m.event = .run t woken →
    m.pre.threads t = .pop timeout waited → m.pre.queue.isClosed = false →
    m.pre.queue.q = ptr :: rest → m.post.queue.q = rest ∧ m.post.threads t = .popped (some ptr)
  switched : ∀ t woken state, m.event = .run t woken → m.pre.threads t = .setEnabled state →
    m.post.queue.q = m.pre.queue.q ∧ m.post.queue.isClosed = !state

theorem lawful_of_step {n : ℕ} {s s' : Shared D α} {e : Event D α}
    (hcap : s.queue.queueSize = capacity n) (h : (sharedQueue D α n).step s e s') :
    Lawful n ⟨s, e, s'⟩ := by
  have hroom : s.queue.HasRoom ↔
      s.queue.isClosed = false ∧ s.queue.q.length < capacity n := by rw [← hcap]; rfl
  constructor
  case push_accepted =>
    rintro t woken elem rfl hp hc hl
    cases step_cases h <;> simp_all
  case push_refused =>
    rintro t woken elem rfl hp hno
    cases step_cases h <;> simp_all
  case push_returns =>
    rintro t woken elem success rfl hp
    cases step_cases h <;> simp_all
  case pop_closed =>
    rintro t woken timeout waited rfl hp hc
    cases step_cases h <;> simp_all
  case pop_front =>
    rintro t woken timeout waited ptr rest rfl hp hc hq
    cases step_cases h <;> simp_all
  case switched =>
    rintro t woken state rfl hp
    cases step_cases h <;> simp_all

/-- **The queue shared by threads refines a bounded first-in first-out queue with an open flag.** -/
theorem queue_refines [DecidableEq α] {n : ℕ} {tr : List (Move D α)} {s : Shared D α}
    (hr : Run (sharedQueue D α n) tr s) :
    Refines n tr s ∧ EachMove (fun _ m => Lawful n m) tr := by
  refine ⟨refines_of_run hr, ?_⟩
  induction hr with
  | nil _ => trivial
  | @snoc tr s s' e hr hs ih =>
    rw [eachMove_snoc]
    exact ⟨ih, lawful_of_step (refines_of_run hr).capacity hs⟩

/-- A caller waits until another thread pushes an element, and a second push is refused. -/
def pushToWaiter : List (Event 2 ℕ) :=
  [.call 0 (.pop (-1)), .run 0, .run 0, .call 1 (.push 7), .run 1, .run 1 (some 0),
    .call 1 (.push 8), .run 1, .run 1, .run 0]

theorem queue_refines_pushToWaiter :
    Refines 1 (runOf pushToWaiter).1 (runOf pushToWaiter).2 ∧
      EachMove (fun _ m => Lawful 1 m) (runOf pushToWaiter).1 :=
  queue_refines (run_traceOf (by decide))

end NixSrv.Queue
