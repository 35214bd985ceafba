import NixSrv.JobQueue.Manage

/-!
# What a request to manage queues changes

* `Queues`, `Operation`, `operations`: the queues by name, and the operations a request asks for in
  their order;
* **`manage_effect`**: a request does these operations and nothing else;
* `asked`, **`failure_effect`**: what a request that is answered with a failure has done.
-/

namespace NixSrv.JobQueue

open Json Transition

section Requests

variable [Jsoncpp]

/-! ## Operations on queues -/

/-- The queues by name. -/
abbrev Queues := String → Option (Queue Job)

omit [Jsoncpp] in
/-- The queues of the module. -/
def byName (jq : JobQueue) : Queues := fun name => jq.queues.lookup name

/-- An operation on all queues, or on the queue of a name. -/
inductive Operation where
  | clearAll
  | removeAll
  | switchAll (state : Bool)
  | create (name : String) (capacity : ℕ)
  | enable (name : String) (state : Bool)
  | clear (name : String)
  | remove (name : String)

omit [Jsoncpp] in
/-- What the operation makes of the queues. -/
def Operation.apply (qs : Queues) : Operation → Queues
  | clearAll => fun name => (qs name).map Queue.clear
  | removeAll => fun _ => none
  | switchAll state => fun name => (qs name).map (·.setEnabled state)
  | create name capacity => Function.update qs name (some ((qs name).getD (.new capacity)))
  | enable name state => Function.update qs name ((qs name).map (·.setEnabled state))
  | clear name => Function.update qs name ((qs name).map Queue.clear)
  | remove name => Function.update qs name none

omit [Jsoncpp] in
/-- Operations one after another. -/
def applyAll (ops : List Operation) (qs : Queues) : Queues := ops.foldl Operation.apply qs

section Asked

variable (msg : IncomingMessage)

/-- The operations on all queues a request asks for. -/
def allOperations : List Operation :=
  (if msg.getBool "clear_all" false then [.clearAll] else []) ++
    (if msg.getBool "remove_all" false then [.removeAll] else []) ++
    (if msg.isNull "switch_all" then [] else [.switchAll (msg.getBool "switch_all" true)])

/-- The operations on the queue it names, when it creates none. -/
def ownOperations : List Operation :=
  (if msg.isNull "enable" then [] else [.enable (queueOf msg) (msg.getBool "enable" true)]) ++
    (if clears msg then [.clear (queueOf msg)] else []) ++
    (if removes msg then [.remove (queueOf msg)] else [])

/-- **The operations a request asks for**, in the order they are done. -/
def operations : List Operation :=
  allOperations msg ++
    if Creates msg then [.create (queueOf msg) (capacityOf msg.toMessage)] else ownOperations msg

end Asked

omit [Jsoncpp] in
theorem applyAll_append (ops ops' : List Operation) (qs : Queues) :
    applyAll (ops ++ ops') qs = applyAll ops' (applyAll ops qs) :=
  List.foldl_append

omit [Jsoncpp] in
theorem applyAll_allOperations (msg : IncomingMessage) (qs : Queues) (name : String) :
    applyAll (allOperations msg) qs name = queueAfterAll msg (qs name) := by
  unfold applyAll allOperations queueAfterAll
  cases msg.getBool "clear_all" false <;> cases msg.getBool "remove_all" false <;>
    cases msg.isNull "switch_all" <;> simp [Operation.apply]

theorem applyAll_ownOperations (msg : IncomingMessage) (qs : Queues) :
    applyAll (ownOperations msg) qs =
      Function.update qs (queueOf msg) ((qs (queueOf msg)).bind (queueAfterOwn msg)) := by
  unfold applyAll ownOperations queueAfterOwn
  cases hq : qs (queueOf msg) <;> cases msg.isNull "enable" <;> cases clears msg <;>
    cases removes msg <;> simp [Operation.apply, hq]

theorem manage_of_creates {jq : JobQueue} {msg : IncomingMessage} (hc : Creates msg)
    (hq : queueOf msg ∉ (jq.manageAll msg).queues) : jq.manage msg = .returned
      ((jq.manageAll msg).insertQueue (queueOf msg) (capacityOf msg.toMessage))
      [msg.replyEmpty] := by
  have hc' : queueOf msg ≠ "" ∧ (!msg.isNull "create") = true := ⟨hc.1, by simp [hc.2]⟩
  have hi : (jq.manageAll msg).initQueue (queueOf msg) (toSizeT (msg.getInt "create.size" 0)) =
      ((jq.manageAll msg).insertQueue (queueOf msg) (capacityOf msg.toMessage), true) := if_neg hq
  rw [manage, if_pos hc', hi]
  rfl

/-- The queues after a request. -/
theorem byName_manage (jq : JobQueue) (msg : IncomingMessage) :
    (jq.manage msg).state.byName = applyAll (operations msg) jq.byName := by
  have hall : (jq.manageAll msg).byName = applyAll (allOperations msg) jq.byName := by
    funext name
    rw [applyAll_allOperations]
    exact lookup_manageAll jq msg name
  rw [operations, applyAll_append, ← hall]
  cases manage_cases jq msg with
  | created _ hc hq h =>
    rw [manage_of_creates hc hq, if_pos hc]
    funext name
    simp only [applyAll, List.foldl_cons, List.foldl_nil, Operation.apply, Function.update_apply]
    exact Map.lookup_emplace _ _ _ _
  | alreadyThere hc hq h =>
    obtain ⟨q, hl⟩ := Map.exists_lookup hq
    have hl' : (jq.manageAll msg).byName (queueOf msg) = some q := hl
    rw [h, if_pos hc]
    simp only [applyAll, List.foldl_cons, List.foldl_nil, Operation.apply]
    rw [hl', Option.getD_some, ← hl', Function.update_eq_self]
  | own q hc hq h =>
    have hl' : (jq.manageAll msg).byName (queueOf msg) = some q := hq
    rw [h, if_neg hc, applyAll_ownOperations, hl', Option.bind_some]
    funext name
    rw [Function.update_apply]
    exact lookup_manageQueue _ msg name
  | none hc hq h =>
    have hl' : (jq.manageAll msg).byName (queueOf msg) = none := hq
    rw [h, if_neg hc, applyAll_ownOperations, hl', Option.bind_none, ← hl',
      Function.update_eq_self]

/-- A request finds the waiting lists as they are and adds an empty one at most. -/
theorem lookup_workersAwaiting_manage {jq : JobQueue} (msg : IncomingMessage) {name : String}
    {ws : Queue IncomingMessage} (h : jq.workersAwaiting.lookup name = some ws) :
    (jq.manage msg).state.workersAwaiting.lookup name = some ws := by
  rcases manage_workersAwaiting jq msg with hw | ⟨n, hw, -⟩
  · rw [hw, h]
  · rw [hw, Map.lookup_emplace]
    split_ifs with hn
    · rw [← hn, h, Option.getD_some]
    · exact h

/-- What a request changes, and what it leaves as it is. -/
structure ManageEffect (jq jq' : JobQueue) (msg : IncomingMessage) : Prop where
  queues : jq'.byName = applyAll (operations msg) jq.byName
  inProgress : jq'.inProgress = jq.inProgress
  completed : jq'.completed = jq.completed
  completedJobs : jq'.completedJobs = jq.completedJobs
  untouched : anyAllAction msg = false → ∀ name, name ≠ queueOf msg →
    jq'.queues.lookup name = jq.queues.lookup name
  parked : ∀ name ws, jq.workersAwaiting.lookup name = some ws →
    jq'.workersAwaiting.lookup name = some ws

/-- **A request does the operations it asks for, in their order, and nothing else.** -/
theorem manage_effect (jq : JobQueue) (msg : IncomingMessage) :
    (jq.manage msg).ending = .returned ∧ ManageEffect jq (jq.manage msg).state msg := by
  obtain ⟨hret, hp, hd, hn⟩ := manage_frame jq msg
  refine ⟨hret, byName_manage jq msg, hp, hd, hn, fun ha name hname => ?_,
    fun name ws => lookup_workersAwaiting_manage msg⟩
  obtain ⟨n, hl⟩ := lookup_manage jq msg
  have hall := lookup_manageAll jq msg name
  rw [manageAll_eq_self ha] at hall
  rw [hl, queueAfter, if_neg hname, ← hall]

/-! ## Requests answered with a failure -/

/-- What the members of a request for all queues make of a queue that they leave in the map. -/
def asked (msg : IncomingMessage) (q : Queue Job) : Queue Job :=
  let q := if msg.getBool "clear_all" false then q.clear else q
  if msg.isNull "switch_all" then q else q.setEnabled (msg.getBool "switch_all" true)

omit [Jsoncpp] in
theorem queueAfterAll_eq_map {msg : IncomingMessage} (h : msg.getBool "remove_all" false = false)
    (o : Option (Queue Job)) : queueAfterAll msg o = o.map (asked msg) := by
  unfold queueAfterAll asked
  cases msg.getBool "clear_all" false <;> cases hs : msg.isNull "switch_all" <;> cases o <;>
    simp [h]

/-- A request that is answered with a failure did not create the queue it asked for, or did
nothing. -/
theorem of_isOk_eq_false {jq : JobQueue} {msg : IncomingMessage} {s : Sent}
    (hs : s ∈ (jq.manage msg).sent) (hf : s.isOk = false) :
    (jq.manage msg).state = jq.manageAll msg ∧
      (anyAllAction msg = true → msg.getBool "remove_all" false = false) := by
  have hok : ∀ o : Outcome, jq.manage msg = o → o.sent = [msg.replyEmpty] → False := by
    intro o ho hsent
    rw [ho, hsent, List.mem_singleton] at hs
    rw [hs, isOk_replyEmpty] at hf
    cases hf
  cases manage_cases jq msg with
  | created n hc hq h => exact (hok _ h rfl).elim
  | own q hc hq h => exact (hok _ h rfl).elim
  | alreadyThere hc hq h => exact ⟨by rw [h], fun _ => ((mem_manageAll jq msg _).mp hq).1⟩
  | none hc hq h =>
    refine ⟨by rw [h], fun ha => ?_⟩
    rw [h] at hs
    rw [if_pos ha] at hs
    cases hs

/-- What a request that is answered with a failure has done. -/
structure FailureEffect (jq jq' : JobQueue) (msg : IncomingMessage) : Prop where
  queues : ∀ name, jq'.queues.lookup name = (jq.queues.lookup name).map (asked msg)
  workersAwaiting : jq'.workersAwaiting = jq.workersAwaiting
  inProgress : jq'.inProgress = jq.inProgress
  completed : jq'.completed = jq.completed
  completedJobs : jq'.completedJobs = jq.completedJobs
  unchanged : anyAllAction msg = false → jq' = jq

/-- **A request answered with a failure has emptied or switched all queues, if it asks for that, and
has changed nothing else.** -/
theorem failure_effect {jq : JobQueue} {msg : IncomingMessage} {s : Sent}
    (hs : s ∈ (jq.manage msg).sent) (hf : s.isOk = false) :
    FailureEffect jq (jq.manage msg).state msg := by
  obtain ⟨hstate, hremove⟩ := of_isOk_eq_false hs hf
  have hremove' : msg.getBool "remove_all" false = false := by
    cases ha : anyAllAction msg with
    | true => exact hremove ha
    | false =>
      simp only [anyAllAction, Bool.or_eq_false_iff] at ha
      exact ha.1.2
  obtain ⟨hw, hp, hd, hn⟩ := manageAll_frame jq msg
  rw [hstate]
  refine ⟨fun name => ?_, hw, hp, hd, hn, manageAll_eq_self⟩
  rw [lookup_manageAll, queueAfterAll_eq_map hremove']

end Requests

section Sample

attribute [local instance] Jsoncpp.integral

/-- The queue `q` with a job in it. -/
def oneWaiting : List Call := [.initQueue "q" 2, submitOf 1 "j"]

/-- A request to empty all queues and to create the queue `q`. -/
def clearAndCreate : IncomingMessage :=
  (requestOf .manage 2 [("clear_all", .bool true), ("queue", .string "q"),
    ("create", .object [])]).msg

theorem failure_effect_clearAndCreate :
    FailureEffect (stateAfter oneWaiting) ((stateAfter oneWaiting).manage clearAndCreate).state
      clearAndCreate := by
  have hsent : ((stateAfter oneWaiting).manage clearAndCreate).sent =
      [clearAndCreate.fail .fail "Failed to create queue. Already exists?"] := rfl
  exact failure_effect (s := clearAndCreate.fail .fail "Failed to create queue. Already exists?")
    (by rw [hsent]; exact List.mem_singleton_self _) (by simp)

/-- The number of jobs that wait in the queue `name`. -/
def jobsWaiting (jq : JobQueue) (name : String) : Option ℕ := (jq.queues.lookup name).map Queue.size

/-- The request is answered with a failure, and the job of the queue is gone. -/
theorem changed_by_clearAndCreate :
    Transition.Run system (historyOf oneWaiting) (stateAfter oneWaiting) ∧
      ((stateAfter oneWaiting).manage clearAndCreate).sent.map Sent.isOk = [false] ∧
      jobsWaiting (stateAfter oneWaiting) "q" = some 1 ∧
      jobsWaiting ((stateAfter oneWaiting).manage clearAndCreate).state "q" = some 0 ∧
      ((stateAfter oneWaiting).manage clearAndCreate).state ≠ stateAfter oneWaiting := by
  have hbefore : jobsWaiting (stateAfter oneWaiting) "q" = some 1 := by decide
  have hafter : jobsWaiting ((stateAfter oneWaiting).manage clearAndCreate).state "q" = some 0 := by
    decide
  refine ⟨run_historyOf (by decide), by decide, hbefore, hafter, fun h => ?_⟩
  rw [h, hbefore] at hafter
  cases hafter

end Sample

end NixSrv.JobQueue
