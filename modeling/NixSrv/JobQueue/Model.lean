import NixSrv.Lib.Transition
import NixSrv.Lib.Map
import NixSrv.Job
import NixSrv.Queue

/-!
# The job queue module

`nix::module::JobQueue` with its handlers run one at a time. A handler takes the state and a
request and comes to an `Outcome`: the state it leaves, the answers it sent and how it ended.

* `submit`, `getWork`, `setProgress`, `setResult`, `getResult`, `manage`, `status`: the handlers;
* `initQueue`, `clearAll`, `switchAll`, `removeAll`: what `manage` and the start-up code use;
* `destroy`: the destructor;
* `Call`, `handle`, **`system`**: the runs of the module.
-/

namespace NixSrv

open Json

structure JobQueue where
  completedJobs : ℕ := 0
  queues : Map String (Queue Job) := ∅
  workersAwaiting : Map String (Queue IncomingMessage) := ∅
  inProgress : Map String Job := ∅
  completed : Map String Job := ∅

namespace JobQueue

/-- `persistent_`, which nothing sets. -/
def persistent : Bool := false

def defaultQueueSize : ℕ := 50

/-- Conversion to `size_t`. -/
def toSizeT (n : ℤ) : ℕ := (n % 2 ^ 64).toNat

/-- How a handler ends. -/
inductive Ending where
  | returned
  /-- An exception leaves the handler. -/
  | thrown
  /-- The thread waits in `Queue::pop`. -/
  | blocked
  /-- A null pointer is dereferenced. -/
  | nullDeref
  deriving DecidableEq, Repr

structure Outcome where
  state : JobQueue
  sent : List Sent
  ending : Ending

/-- The handler returns. -/
abbrev Outcome.returned (state : JobQueue) (sent : List Sent) : Outcome := ⟨state, sent, .returned⟩

/-- `init_queue`: the state afterwards and whether the queue was created. -/
def initQueue (jq : JobQueue) (name : String) (size : ℕ) : JobQueue × Bool :=
  let size := if size ≠ 0 then size else defaultQueueSize
  if name ∈ jq.queues then (jq, false)
  else ({ jq with
    queues := Map.emplace name (.new size) jq.queues
    workersAwaiting := Map.emplace name (.new size) jq.workersAwaiting }, true)

section Handlers

variable [Jsoncpp] (jq : JobQueue) (env : Env) (msg : IncomingMessage)

def submit : Outcome :=
  let destQueue := msg.getString "module" ""
  if persistent then .returned jq []
  else match jq.queues.lookup destQueue with
  | none => .returned jq [msg.fail .fail ("No queue for module: " ++ destQueue)]
  | some queue =>
    if queue.isClosed then .returned jq [msg.fail .fail "Queue closed"]
    else
      let action := msg.getString "action" ""
      let hasParameters := msg.hasKey "parameters"
      if ¬ (destQueue ≠ "" ∧ action ≠ "" ∧ hasParameters) then
        .returned jq [msg.fail .dataInvalidContent]
      else
        let job := Job.ofMessage env msg.toMessage
        match jq.workersAwaiting.lookup destQueue with
        | none => ⟨jq, [], .nullDeref⟩
        | some awaiting =>
          if awaiting.size ≠ 0 then
            -- the loop over the parked workers ends with its first pass
            match awaiting.pop with
            | .waits => ⟨jq, [], .blocked⟩
            | .closed => ⟨jq, [], .nullDeref⟩
            | .item workerMsg rest =>
              .returned { jq with workersAwaiting := jq.workersAwaiting.insert destQueue rest }
                [workerMsg.reply job.toDocument]
          else
            let (queue, success) := queue.push job
            if ¬ success then .returned jq [msg.fail .tempLimitReached "Queue full"]
            else .returned { jq with queues := jq.queues.insert destQueue queue }
              [msg.reply (Members.setMeta [] "job_id" (.string job.id))]

def getWork : Outcome :=
  let queueName := msg.getString "module" ""
  if persistent then .returned jq []
  else match jq.queues.lookup queueName with
  | none => .returned jq [msg.fail .fail ("No queue for module: " ++ queueName)]
  | some queue =>
    match queue.pop with
    | .waits => ⟨jq, [], .blocked⟩
    | .item job rest =>
      .returned { jq with
        queues := jq.queues.insert queueName rest
        inProgress := jq.inProgress.insert job.id job } [msg.reply job.toDocument]
    | .closed =>
      match jq.workersAwaiting.lookup queueName with
      | none => ⟨jq, [], .nullDeref⟩
      | some awaiting =>
        -- the flag `success` is not looked at
        .returned { jq with
          workersAwaiting := jq.workersAwaiting.insert queueName (awaiting.push msg).1 } []

def setProgress : Outcome :=
  let jobId := msg.getMeta "job_id" ""
  match jq.inProgress.lookup jobId with
  | none => .returned jq []
  | some job =>
    let progress := msg.getDouble "progress" 0
    if progress ≠ 0 then
      .returned { jq with inProgress := jq.inProgress.insert jobId (job.setProgress progress) } []
    else .returned jq []

def setResult : Outcome :=
  let jobId := msg.getMeta "job_id" ""
  if jobId = "" then .returned jq [msg.fail .nullValue]
  else if persistent then .returned jq []
  else
    let result := (Job.ofMessage env msg.toMessage).setProgress 100
    .returned { jq with
      inProgress := jq.inProgress.erase jobId
      completed := jq.completed.insert jobId result
      completedJobs := jq.completedJobs + 1 } [msg.replyEmpty]

def getResult : Outcome :=
  let apiKey := msg.getMeta "api_key" ""
  let jobId := msg.getMeta "job_id" ""
  if persistent then .returned jq []
  else match jq.completed.lookup jobId with
  | some job =>
    let submitter := job.apiKey
    if submitter = apiKey then
      .returned { jq with completed := jq.completed.erase jobId } [msg.reply job.toDocument]
    else .returned jq [msg.fail .accessDenied]
  | none =>
    match jq.inProgress.lookup jobId with
    | some job => .returned jq [msg.reply job.toDocument .notReady]
    | none => .returned jq [msg.fail .fail "Job not found or not yet started"]

def clearAll : JobQueue := { jq with queues := Map.mapVal Queue.clear jq.queues }

def switchAll (state : Bool) : JobQueue :=
  { jq with queues := Map.mapVal (·.setEnabled state) jq.queues }

/-- The queues are closed and cleared before they leave the map, where no handler finds them. -/
def removeAll : JobQueue := { ((jq.switchAll false).clearAll) with queues := ∅ }

/-- The operations of `manage` on a queue that is there. -/
def manageQueue (name : String) (queue : Queue Job) : JobQueue :=
  let queue := if !msg.isNull "enable" then queue.setEnabled (msg.getBool "enable" true) else queue
  let queue := if !msg.isNull "clear" && msg.getBool "clear" false then queue.clear else queue
  if !msg.isNull "remove" && msg.getBool "remove" false then
    { jq with queues := jq.queues.erase name }
  else { jq with queues := jq.queues.insert name queue }

/-- The first part of `manage`, on all queues. -/
def manageAll : JobQueue :=
  let jq := if msg.getBool "clear_all" false then jq.clearAll else jq
  let jq := if msg.getBool "remove_all" false then jq.removeAll else jq
  if !msg.isNull "switch_all" then jq.switchAll (msg.getBool "switch_all" true) else jq

/-- `any_action_matched` after the first part. -/
def anyAllAction : Bool :=
  msg.getBool "clear_all" false || msg.getBool "remove_all" false || !msg.isNull "switch_all"

def manage : Outcome :=
  let jq := jq.manageAll msg
  let name := msg.getString "queue" ""
  if name ≠ "" ∧ !msg.isNull "create" then
    let (jq, created) := jq.initQueue name (toSizeT (msg.getInt "create.size" 0))
    if created then .returned jq [msg.replyEmpty]
    else .returned jq [msg.fail .fail "Failed to create queue. Already exists?"]
  else match jq.queues.lookup name with
  | some queue => .returned (jq.manageQueue msg name queue) [msg.replyEmpty]
  | none => .returned jq (if anyAllAction msg then [] else [msg.fail .nullValue])

/-- The document `status` fills in; the queues are visited in the order of the map. -/
def statusDocument : Except WriteError Members := do
  let out ← Members.set [] "total_completed" (.int jq.completedJobs)
  let out ← out.set "in_progress" (.int jq.inProgress.size)
  let out ← out.set "results_awaiting" (.int jq.completed.size)
  let (out, totalPending) ← jq.queues.entries.foldlM (fun (acc : Members × ℕ) entry => do
    let prefix_ := "queues." ++ entry.1
    let pending : ℕ := entry.2.size
    let out ← acc.1.set (prefix_ ++ ".closed") (.bool entry.2.isClosed)
    let out ← out.set (prefix_ ++ ".pending") (.int pending)
    return (out, acc.2 + pending)) (out, 0)
  out.set "total_pending" (.int totalPending)

def status : Outcome :=
  match jq.statusDocument with
  | .ok out => .returned jq [msg.reply out]
  | .error _ => ⟨jq, [], .thrown⟩

end Handlers

/-! ## The destructor -/

/-- The inner loop of the destructor: the answers it sends and the emptied list, `none` when it
dereferences a null request. -/
def drain : ℕ → Queue IncomingMessage → Option (List Sent × Queue IncomingMessage)
  | 0, awaiting => some ([], awaiting)
  | fuel + 1, awaiting =>
    if awaiting.size = 0 then some ([], awaiting)
    else match awaiting.pop with
    | .item msg rest => (drain fuel rest).map fun r =>
        (msg.reject .serviceUnavailable "Service unavailable." :: r.1, r.2)
    | .closed | .waits => none

/-- One pass of the destructor's loop over the queues. -/
def destroyQueue (o : Outcome) (name : String) : Outcome :=
  match o.ending with
  | .returned =>
    match o.state.workersAwaiting.lookup name with
    | none => { o with ending := .nullDeref }
    | some awaiting =>
      match drain awaiting.size awaiting with
      | none => { o with ending := .nullDeref }
      | some (sent, rest) => .returned
          { o.state with workersAwaiting := o.state.workersAwaiting.insert name rest }
          (o.sent ++ sent)
  | _ => o

def destroy (jq : JobQueue) : Outcome := jq.queues.keys.foldl destroyQueue (.returned jq [])

/-! ## Runs -/

/-- The routes of the module. -/
inductive Handler where
  | submit
  | getWork
  | setProgress
  | setResult
  | getResult
  | manage
  | status
  deriving DecidableEq, Repr

structure Request where
  handler : Handler
  env : Env
  msg : IncomingMessage

/-- What is run on the module: a queue of the configuration file, or a request. -/
inductive Call where
  | initQueue (name : String) (size : ℕ)
  | request (r : Request)

variable [Jsoncpp]

def handleRequest (jq : JobQueue) (r : Request) : Outcome :=
  match r.handler with
  | .submit => jq.submit r.env r.msg
  | .getWork => jq.getWork r.msg
  | .setProgress => jq.setProgress r.msg
  | .setResult => jq.setResult r.env r.msg
  | .getResult => jq.getResult r.msg
  | .manage => jq.manage r.msg
  | .status => jq.status r.msg

def handle (jq : JobQueue) : Call → Outcome
  | .initQueue name size => .returned (jq.initQueue name size).1 []
  | .request r => jq.handleRequest r

/-- The handler ends, so that the next one can run. -/
def Outcome.Finished (o : Outcome) : Prop := o.ending = .returned ∨ o.ending = .thrown

instance (o : Outcome) : Decidable o.Finished := by unfold Outcome.Finished; infer_instance

def next (jq : JobQueue) (c : Call) : Option JobQueue :=
  if (jq.handle c).Finished then some (jq.handle c).state else none

/-- **The module as a transition system**: handlers executed one at a time from the empty state. -/
def system : Transition.System JobQueue Call := .ofNext {} next

/-- A step of a run. -/
abbrev Move := Transition.Move JobQueue Call

/-- The answers sent in a step. -/
def sentIn (m : Move) : List Sent := (m.pre.handle m.event).sent

theorem step_iff {jq jq' : JobQueue} {c : Call} :
    system.step jq c jq' ↔ (jq.handle c).Finished ∧ jq' = (jq.handle c).state := by
  change next jq c = some jq' ↔ _
  unfold next
  split_ifs with h
  · simp [h, eq_comm]
  · simp [h]

/-! ## Runs on given requests -/

omit [Jsoncpp] in
theorem uuid_ne : "uuid" ≠ "" := by decide

/-- The request with the given route, handle and document. -/
def requestOf (handler : Handler) (handle : ℕ) (members : Members)
    (uuid : {s : String // s ≠ ""} := ⟨"uuid", uuid_ne⟩) : Request :=
  ⟨handler, ⟨uuid, 1⟩, ⟨⟨.object members⟩, handle, rfl⟩⟩

def callOf (handler : Handler) (handle : ℕ) (members : Members)
    (uuid : {s : String // s ≠ ""} := ⟨"uuid", uuid_ne⟩) : Call :=
  .request (requestOf handler handle members uuid)

/-- The document of a `submit` to the queue `q`. -/
def jobDocument (id : String) : Members :=
  [("@job_id", .string id), ("module", .string "q"), ("action", .string "a"), ("parameters", .null)]

def submitOf (handle : ℕ) (id : String) : Call := callOf .submit handle (jobDocument id)

/-- The run on a list of calls. -/
def historyOf (calls : List Call) : List Move := (Transition.traceOf next {} calls).1

/-- The state after a list of calls. -/
def stateAfter (calls : List Call) : JobQueue := (Transition.traceOf next {} calls).2

/-- No call of the list blocks. -/
def Runs (calls : List Call) : Bool := (Transition.trace next {} calls).isSome

theorem run_historyOf {calls : List Call} (h : Runs calls = true) :
    Transition.Run system (historyOf calls) (stateAfter calls) :=
  Transition.run_traceOf h

end JobQueue

end NixSrv
