import NixSrv.JobQueue.Spec

/-!
# Requests that switch and clear a queue

`D` threads handle requests to `manage` that leave a queue in the map. The steps are the reads and
writes of the flag of the queue, `clear` holding its mutex from the first to the last, and the
section of `manage` under the mutex of the module. `set_enabled` takes no mutex, and neither do the
loops over all queues take the one of the module.

* `Step`, `manageSteps`, **`lookup_manage_of_steps`**: the steps of a request, which alone do what
  `manage` does;
* `Shared`, `Event`, `Shared.next`, `system`: threads and their runs;
* `enabledBy`, `Lossless`: the state set last, and a flag that reports it;
* `KeepsFlag`, **`lossless_iff`**: when the flag does.
-/

namespace NixSrv.JobQueue.Switching

open Json Transition

/-- A step of `manage` on a queue. -/
inductive Step where
  /-- The mutex of the module is taken. -/
  | lock
  | setEnabled (state : Bool)
  /-- `clear` takes the mutex of the queue and reads the flag into `was_closed`. -/
  | saveFlag
  /-- `clear` closes the queue. -/
  | closeFlag
  /-- `clear` swaps the elements out, writes `was_closed` back and unlocks. -/
  | restoreFlag
  /-- The mutex of the module is released. -/
  | unlock
  deriving DecidableEq

/-- A thread: the steps it still has to make, and `was_closed` of its `clear`. -/
structure Thread where
  code : List Step := []
  wasClosed : Bool := false

/-- What a step does to the queue and to `was_closed`. -/
def Step.apply : Step → Queue Job × Bool → Queue Job × Bool
  | .setEnabled state, (queue, wasClosed) => (queue.setEnabled state, wasClosed)
  | .saveFlag, (queue, _) => (queue, queue.isClosed)
  | .closeFlag, (queue, wasClosed) => ({ queue with isClosed := true }, wasClosed)
  | .restoreFlag, (queue, wasClosed) => ({ queue.clear with isClosed := wasClosed }, wasClosed)
  | .lock, r | .unlock, r => r

/-- The value that a step of `clear` writes to the flag. -/
def Step.clearWrite (wasClosed : Bool) : Step → Option Bool
  | .closeFlag => some true
  | .restoreFlag => some wasClosed
  | _ => none

/-- The state that a step sets. -/
def Step.sets : Step → Option Bool
  | .setEnabled state => some state
  | _ => none

/-- The steps of `Queue::clear`. -/
def clearSteps : List Step := [.saveFlag, .closeFlag, .restoreFlag]

/-- The request takes a queue out of the map. -/
def takesOut (msg : IncomingMessage) : Bool := msg.getBool "remove_all" false || removes msg

/-- The steps on a queue of the loops over all queues. -/
def allSteps (msg : IncomingMessage) : List Step :=
  (if msg.getBool "clear_all" false then clearSteps else []) ++
    (if !msg.isNull "switch_all" then [.setEnabled (msg.getBool "switch_all" true)] else [])

/-- The steps of the section of `manage` for a single queue. -/
def singleSteps (msg : IncomingMessage) : List Step :=
  (if !msg.isNull "enable" then [.setEnabled (msg.getBool "enable" true)] else []) ++
    (if clears msg then clearSteps else [])

section Requests

variable [Jsoncpp]

/-- The steps that a request which removes nothing makes on the queue `name` of the map. -/
def manageSteps (name : String) (msg : IncomingMessage) : List Step :=
  allSteps msg ++
    if name = queueOf msg ∧ ¬ Creates msg then
      .lock :: singleSteps msg ++ [.unlock]
    else []

/-! ## The steps of a request alone -/

omit [Jsoncpp] in
/-- Steps made one after another. -/
def runSteps (steps : List Step) (r : Queue Job × Bool) : Queue Job × Bool :=
  steps.foldl (fun r step => step.apply r) r

omit [Jsoncpp] in
theorem runSteps_append (steps steps' : List Step) (r : Queue Job × Bool) :
    runSteps (steps ++ steps') r = runSteps steps' (runSteps steps r) :=
  List.foldl_append ..

omit [Jsoncpp] in
theorem runSteps_allSteps {msg : IncomingMessage} (hn : takesOut msg = false) (queue : Queue Job)
    (b : Bool) : queueAfterAll msg (some queue) = some (runSteps (allSteps msg) (queue, b)).1 := by
  have hr : msg.getBool "remove_all" false = false := (Bool.or_eq_false_iff.mp hn).1
  rw [queueAfterAll, allSteps, runSteps_append, hr]
  cases msg.getBool "clear_all" false <;> cases msg.isNull "switch_all" <;> rfl

omit [Jsoncpp] in
theorem runSteps_singleSteps {msg : IncomingMessage} (hn : takesOut msg = false)
    (queue : Queue Job) (b : Bool) :
    queueAfterOwn msg queue = some (runSteps (singleSteps msg) (queue, b)).1 := by
  have hr : removes msg = false := (Bool.or_eq_false_iff.mp hn).2
  rw [queueAfterOwn, singleSteps, runSteps_append, hr]
  cases msg.isNull "enable" <;> cases clears msg <;> rfl

/-- **Made alone, the steps of a request leave a queue as `manage` does.** -/
theorem lookup_manage_of_steps (jq : JobQueue) {msg : IncomingMessage} (hn : takesOut msg = false)
    {name : String} {queue : Queue Job} (hq : jq.queues.lookup name = some queue) :
    (jq.manage msg).state.queues.lookup name =
      some (runSteps (manageSteps name msg) (queue, false)).1 := by
  obtain ⟨n, hl⟩ := lookup_manage jq msg
  rw [hl, hq, queueAfter, manageSteps, runSteps_append, runSteps_allSteps hn queue false]
  generalize runSteps (allSteps msg) (queue, false) = r
  by_cases hname : name = queueOf msg
  · by_cases hc : Creates msg
    · rw [if_pos hname, if_pos hc, if_neg fun h => h.2 hc]
      rfl
    · rw [if_pos hname, if_neg hc, if_pos ⟨hname, hc⟩, Option.bind_some,
        runSteps_singleSteps hn r.1 r.2, List.cons_append]
      change _ = some (runSteps (singleSteps msg ++ [.unlock]) r).1
      rw [runSteps_append]
      rfl
  · rw [if_neg hname, if_neg fun h => hname h.1]
    rfl

/-! ## Threads -/

/-- A queue, who holds the mutexes of the module and of the queue, and the threads. -/
structure Shared (D : ℕ) where
  queue : Queue Job
  manager : Option (Fin D) := none
  owner : Option (Fin D) := none
  threads : Fin D → Thread := fun _ => {}

inductive Event (D : ℕ) where
  /-- A thread gets a request. -/
  | call (t : Fin D) (msg : IncomingMessage)
  /-- A thread makes a step. -/
  | run (t : Fin D)

namespace Shared

variable {D : ℕ} (s : Shared D)

omit [Jsoncpp] in
/-- A step that takes a mutex waits until it is free. -/
def enabled : Step → Bool
  | .lock => s.manager.isNone
  | .saveFlag => s.owner.isNone
  | _ => true

omit [Jsoncpp] in
/-- The holder of the mutex of the module after a step of thread `t`. -/
def managerAfter (t : Fin D) : Step → Option (Fin D)
  | .lock => some t
  | .unlock => none
  | _ => s.manager

omit [Jsoncpp] in
/-- The holder of the mutex of the queue after a step of thread `t`. -/
def ownerAfter (t : Fin D) : Step → Option (Fin D)
  | .saveFlag => some t
  | .restoreFlag => none
  | _ => s.owner

/-- The next step of a thread, if it can be made. -/
def step (t : Fin D) : Option (Shared D) :=
  match (s.threads t).code with
  | [] => none
  | step :: code =>
    if s.enabled step then
      let r := step.apply (s.queue, (s.threads t).wasClosed)
      some {
        queue := r.1
        manager := s.managerAfter t step
        owner := s.ownerAfter t step
        threads := Function.update s.threads t ⟨code, r.2⟩ }
    else none

/-- An event on the queue `name` of the map, which stays there. -/
def next (name : String) : Event D → Option (Shared D)
  | .call t msg =>
    if (s.threads t).code = [] ∧ takesOut msg = false then
      some { s with threads := Function.update s.threads t ⟨manageSteps name msg, false⟩ }
    else none
  | .run t => s.step t

/-- No request is being handled. -/
def Finished : Prop := ∀ t, (s.threads t).code = []

omit [Jsoncpp] in
instance : Decidable s.Finished := by unfold Finished; infer_instance

end Shared

/-- **Requests to the queue `name` under `D` threads**, whose steps are interleaved in any way, from
a queue as `init_queue` makes it. -/
def system (D : ℕ) (name : String) (size : ℕ) : System (Shared D) (Event D) :=
  .ofNext { queue := .new size } fun s e => s.next name e

/-- A step of a run. -/
abbrev Move (D : ℕ) := Transition.Move (Shared D) (Event D)

/-! ## The state set last -/

variable {D : ℕ}

omit [Jsoncpp] in
/-- The step that an event makes a thread take. -/
def stepIn (m : Move D) : Option Step :=
  match m.event with
  | .call _ _ => none
  | .run t => (m.pre.threads t).code.head?

/-- The state of the last `set_enabled`. A queue starts enabled. -/
def enabledBy (tr : List (Move D)) : Bool :=
  tr.foldl (fun state m => ((stepIn m).bind Step.sets).getD state) true

omit [Jsoncpp] in
theorem enabledBy_snoc (tr : List (Move D)) (m : Move D) :
    enabledBy (tr ++ [m]) = ((stepIn m).bind Step.sets).getD (enabledBy tr) := by
  simp [enabledBy]

/-- After each step `is_closed` reports the state set last, and so does the queue that is left when
no request is being handled. -/
structure Lossless (tr : List (Move D)) (s : Shared D) : Prop where
  reported : EachMove (fun hist m => m.post.queue.isClosed = !enabledBy (hist ++ [m])) tr
  kept : s.Finished → (s.queue.isClosed = true ↔ enabledBy tr = false)

/-- What a step of `clear` writes to the flag. -/
def writtenByClear (m : Move D) : Option Bool :=
  match m.event with
  | .call _ _ => none
  | .run t => (stepIn m).bind (Step.clearWrite (m.pre.threads t).wasClosed)

/-- A step of `clear` writes to the flag the value it has. -/
def KeepsFlag (m : Move D) : Prop := ∀ b ∈ writtenByClear m, b = m.pre.queue.isClosed

omit [Jsoncpp] in
instance (m : Move D) : Decidable (KeepsFlag m) := by unfold KeepsFlag; infer_instance

/-- What a step can be. -/
inductive StepCase (s : Shared D) (name : String) : Event D → Shared D → Prop
  | called (t : Fin D) (msg : IncomingMessage) (hp : (s.threads t).code = [])
      (hn : takesOut msg = false) : StepCase s name (.call t msg)
        { s with threads := Function.update s.threads t ⟨manageSteps name msg, false⟩ }
  | made (t : Fin D) (step : Step) (code : List Step) (hp : (s.threads t).code = step :: code)
      (he : s.enabled step = true) : StepCase s name (.run t) {
        queue := (step.apply (s.queue, (s.threads t).wasClosed)).1
        manager := s.managerAfter t step
        owner := s.ownerAfter t step
        threads := Function.update s.threads t
          ⟨code, (step.apply (s.queue, (s.threads t).wasClosed)).2⟩ }

theorem step_cases {name : String} {size : ℕ} {s s' : Shared D} {e : Event D}
    (h : (system D name size).step s e s') : StepCase s name e s' := by
  change s.next name e = some s' at h
  cases e with
  | call t msg =>
    simp only [Shared.next] at h
    split_ifs at h with hc
    cases h
    exact .called t msg hc.1 hc.2
  | run t =>
    simp only [Shared.next, Shared.step] at h
    split at h
    · cases h
    · rename_i step code hp
      split_ifs at h with he
      cases h
      exact .made t step code hp he

/-- **A step leaves the flag with the state set last if it had it before, except for what `clear`
writes.** -/
theorem reported_iff {name : String} {size : ℕ} {tr : List (Move D)} {s s' : Shared D}
    {e : Event D} (h : (system D name size).step s e s')
    (hs : s.queue.isClosed = !enabledBy tr) :
    s'.queue.isClosed = !enabledBy (tr ++ [⟨s, e, s'⟩]) ↔ KeepsFlag ⟨s, e, s'⟩ := by
  rw [enabledBy_snoc, KeepsFlag]
  generalize enabledBy tr = state at hs ⊢
  cases step_cases h with
  | called t msg hp hn => simp [stepIn, writtenByClear, hs]
  | made t step code hp he =>
    simp only [stepIn, writtenByClear, hp, List.head?_cons, Option.bind_some]
    cases step with
    | setEnabled state' => simp [Step.apply, Step.sets, Step.clearWrite]
    | closeFlag | restoreFlag => simp [Step.apply, Step.sets, Step.clearWrite, hs]
    | lock | unlock | saveFlag => simp [Step.apply, Step.sets, Step.clearWrite, hs]

/-- While every step so far was reported, the flag has the state set last. -/
theorem isClosed_of_reported {name : String} {size : ℕ} {tr : List (Move D)} {s : Shared D}
    (hr : Run (system D name size) tr s)
    (h : EachMove (fun hist m => m.post.queue.isClosed = !enabledBy (hist ++ [m])) tr) :
    s.queue.isClosed = !enabledBy tr := by
  cases hr with
  | nil hs =>
    cases hs
    rfl
  | snoc _ _ =>
    rw [eachMove_snoc] at h
    exact h.2

/-- **The state set last is never lost exactly when every write of `clear` leaves the flag as it
is.** -/
theorem lossless_iff {name : String} {size : ℕ} {tr : List (Move D)} {s : Shared D}
    (hr : Run (system D name size) tr s) :
    Lossless tr s ↔ EachMove (fun _ m => KeepsFlag m) tr := by
  have hkept : EachMove (fun hist m => m.post.queue.isClosed = !enabledBy (hist ++ [m])) tr →
      (s.Finished → (s.queue.isClosed = true ↔ enabledBy tr = false)) := by
    intro h _
    rw [isClosed_of_reported hr h]
    exact Bool.not_eq_true' _ ▸ Iff.rfl
  refine Iff.trans ⟨fun h => h.reported, fun h => ⟨h, hkept h⟩⟩ (Iff.symm ?_)
  exact hr.eachMove_iff fun tr s e s' hr h hs => (reported_iff hs (isClosed_of_reported hr h)).symm

end Requests

section Sample

attribute [local instance] Jsoncpp.integral

/-- A request to clear all queues. -/
def clearAllRequest : IncomingMessage := (requestOf .manage 0 [("clear_all", .bool true)]).msg

/-- A request to disable all queues. -/
def disableRequest : IncomingMessage := (requestOf .manage 1 [("switch_all", .bool false)]).msg

/-- The run of two threads on the queue `q` with the given events, and its last state. -/
abbrev runOf (es : List (Event 2)) : List (Move 2) × Shared 2 :=
  traceOf (fun s e => s.next "q" e) { queue := .new 0 } es

/-- A queue is disabled, and then cleared while it is disabled once more. -/
def clearDisabled : List (Event 2) :=
  [.call 1 disableRequest, .run 1, .call 0 clearAllRequest, .call 1 disableRequest,
    .run 0, .run 1, .run 0, .run 0]

/-- A queue is disabled between the read of `clear` and its writes. -/
def disableInClear : List (Event 2) :=
  [.call 0 clearAllRequest, .call 1 disableRequest, .run 0, .run 1, .run 0, .run 0]

theorem lossless_clearDisabled :
    Lossless (runOf clearDisabled).1 (runOf clearDisabled).2 := by
  have hr : Run (system 2 "q" 0) (runOf clearDisabled).1 _ := run_traceOf (by decide)
  exact (lossless_iff hr).mpr (by decide)

/-- The queue is open when all requests have been handled, and the last of them disabled it. -/
theorem not_lossless_disableInClear :
    ∃ s, Run (system 2 "q" 0) (runOf disableInClear).1 s ∧ s.Finished ∧
      enabledBy (runOf disableInClear).1 = false ∧ s.queue.isClosed = false ∧
      ¬ Lossless (runOf disableInClear).1 s := by
  refine ⟨(runOf disableInClear).2, run_traceOf (by decide), by decide, by decide, by decide,
    fun h => ?_⟩
  exact absurd ((h.kept (by decide)).mpr (by decide)) (by decide)

end Sample

end NixSrv.JobQueue.Switching
