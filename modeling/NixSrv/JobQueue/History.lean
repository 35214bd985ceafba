import NixSrv.JobQueue.Spec
import NixSrv.Lib.Cell
import NixSrv.Lib.Fifo

/-!
# What happened in a step

* `okIn`: a request was answered ok;
* `accepts`, `Submitted`: a job was accepted;
* `Hands`, `SetsResult`, `Collects`: a job was sent to a worker, given a result, collected;
* `handedIn`, `reportedIn`, `collectedIn`, `droppedFrom`: the ids this happened to;
* `fifoOp`, `trackWrite`, `resultWrite`: the step as an operation on a queue, on the entry of an id
  in `in_progress_` and on its result;
* `askFor`: the requests for a result.
-/

namespace NixSrv.JobQueue

open Json Transition

variable [Jsoncpp]

/-- The request was answered ok in this step. -/
def okIn (m : Move) (msg : IncomingMessage) : Bool :=
  (sentIn m).any fun a => a.handle = msg.handle && a.isOk

/-- The queue and the job of a `submit` that was not answered with a failure. -/
def accepts (m : Move) : Option (String × Job) :=
  match m.event with
  | .request ⟨.submit, env, msg⟩ =>
    if (sentIn m).all Sent.isOk then some (moduleOf msg, Job.ofMessage env msg.toMessage) else none
  | _ => none

theorem accepts_submit {m : Move} {a : String × Job} (h : accepts m = some a) :
    ∃ env msg, m.event = .request ⟨.submit, env, msg⟩ := by
  obtain ⟨pre, ⟨name', size⟩ | ⟨⟨handler, env, msg⟩⟩, post⟩ := m
  · cases h
  cases handler with
  | submit => exact ⟨env, msg, rfl⟩
  | getWork | setProgress | setResult | getResult | manage | status => cases h

/-- Job `j` was accepted with key `k` during the run. -/
def Submitted (tr : List Move) (j k : String) : Prop :=
  (j, k) ∈ tr.filterMap fun m => (accepts m).map fun a => (a.2.id, a.2.apiKey)

instance (tr : List Move) (j k : String) : Decidable (Submitted tr j k) := by
  unfold Submitted; infer_instance

/-- The step sends job `j` to a worker. -/
def Hands (j : String) (m : Move) : Prop :=
  (∃ env msg, m.event = .request ⟨.getWork, env, msg⟩ ∨ m.event = .request ⟨.submit, env, msg⟩) ∧
    ∃ (w : IncomingMessage) (job : Job), job.id = j ∧ w.reply job.toDocument ∈ sentIn m

/-- The step is an accepted `set_result` for `j`. -/
def SetsResult (j : String) (env : Env) (msg : IncomingMessage) (m : Move) : Prop :=
  m.event = .request ⟨.setResult, env, msg⟩ ∧ jobIdOf msg = j ∧ okIn m msg = true

/-- The step is a `get_result` for `j` that was answered ok. -/
def Collects (j : String) (msg : IncomingMessage) (m : Move) : Prop :=
  (∃ env, m.event = .request ⟨.getResult, env, msg⟩) ∧ jobIdOf msg = j ∧ okIn m msg = true

/-! ## Ids -/

/-- The job id an answer carries. -/
def jobIdIn (a : Sent) : Option String :=
  match a.answer with
  | .reply doc =>
    match doc.lookup "@job_id" with
    | some (.string id) => some id
    | _ => none
  | .reject _ => none

/-- The `manage` request leaves no job in the queue `name`. -/
def Empties (msg : IncomingMessage) (name : String) : Prop :=
  msg.getBool "clear_all" false = true ∨ msg.getBool "remove_all" false = true ∨
  (¬ Creates msg ∧ name = queueOf msg ∧ (clears msg = true ∨ removes msg = true))

instance (msg : IncomingMessage) (name : String) : Decidable (Empties msg name) := by
  unfold Empties; infer_instance

/-- The ids of the jobs in a queue, none when there is no queue. -/
def idsIn (o : Option (Queue Job)) : List String := (o.map fun q => q.q.map Job.id).getD []

/-- The ids of the jobs pending in the queue `name`, in order. -/
def pendingIds (jq : JobQueue) (name : String) : List String := idsIn (jq.queues.lookup name)

/-- The jobs a `get_work` hands to its worker: one at most. -/
def handedIn (m : Move) : List String :=
  match m.event with
  | .request ⟨.getWork, _, _⟩ => (sentIn m).filterMap jobIdIn
  | _ => []

/-- The jobs a `get_work` hands out from the queue `name`. -/
def handedFrom (name : String) (m : Move) : List String :=
  match m.event with
  | .request ⟨.getWork, _, msg⟩ => if moduleOf msg = name then handedIn m else []
  | _ => []

def reportedIn (m : Move) : List String :=
  match m.event with
  | .request ⟨.setResult, _, msg⟩ => if okIn m msg then [jobIdOf msg] else []
  | _ => []

def collectedIn (m : Move) : List String :=
  match m.event with
  | .request ⟨.getResult, _, msg⟩ => if okIn m msg then [jobIdOf msg] else []
  | _ => []

/-- The jobs a `manage` clears from the queue `name`, or removes with it. -/
def droppedFrom (name : String) (m : Move) : List String :=
  match m.event with
  | .request ⟨.manage, _, msg⟩ => if Empties msg name then pendingIds m.pre name else []
  | _ => []

/-! ## Steps as operations -/

/-- A `submit` to the queue hands its job to a parked worker. -/
def passesOn (jq : JobQueue) (name : String) : Bool :=
  match jq.workersAwaiting.lookup name with
  | some ws => ws.size ≠ 0
  | none => false

/-- What a step does to the queue `name`, in terms of job ids. -/
def fifoOp (name : String) (m : Move) : Fifo.Op String :=
  match m.event with
  | .request ⟨.submit, _, _⟩ =>
    match accepts m with
    | some (name', job) =>
      if name' = name ∧ passesOn m.pre name = false then .enter job.id else .keep
    | none => .keep
  | .request ⟨.getWork, _, msg⟩ => if moduleOf msg = name ∧ okIn m msg = true then .take else .keep
  | .request ⟨.manage, _, msg⟩ => if Empties msg name then .flush else .keep
  | _ => .keep

/-- What a step does to the entry of `j` in `in_progress_`. -/
def trackWrite (j : String) (m : Move) : Cell.Write Unit :=
  match m.event with
  | .request ⟨.getWork, _, _⟩ => if j ∈ handedIn m then .put () else .keep
  | .request ⟨.setResult, _, _⟩ => if j ∈ reportedIn m then .drop else .keep
  | _ => .keep

/-- What a step does to the result of `j`. -/
def resultWrite (j : String) (m : Move) : Cell.Write (Env × IncomingMessage) :=
  match m.event with
  | .request ⟨.setResult, env, msg⟩ =>
    if jobIdOf msg = j ∧ okIn m msg = true then .put (env, msg) else .keep
  | .request ⟨.getResult, _, msg⟩ =>
    if jobIdOf msg = j ∧ okIn m msg = true then .drop else .keep
  | _ => .keep

/-- The job `set_result` stores for a message. -/
def resultJob (r : Env × IncomingMessage) : Job := (Job.ofMessage r.1 r.2.toMessage).setProgress 100

theorem resultWrite_put {j : String} {m : Move} {env : Env} {msg : IncomingMessage} :
    resultWrite j m = .put (env, msg) ↔ SetsResult j env msg m := by
  obtain ⟨pre, ⟨name, size⟩ | ⟨⟨handler, env', msg'⟩⟩, post⟩ := m
  · simp [resultWrite, SetsResult]
  · cases handler <;> simp only [resultWrite, SetsResult]
    case setResult =>
      split_ifs with h
      · constructor
        · intro e; cases e; exact ⟨rfl, h⟩
        · rintro ⟨e, -⟩; cases e; rfl
      · constructor
        · intro e; cases e
        · rintro ⟨e, h'⟩; cases e; exact absurd h' h
    case getResult => split_ifs <;> simp
    all_goals simp

theorem resultWrite_drop {j : String} {m : Move} :
    resultWrite j m = .drop ↔ ∃ msg, Collects j msg m := by
  obtain ⟨pre, ⟨name, size⟩ | ⟨⟨handler, env', msg'⟩⟩, post⟩ := m
  · simp [resultWrite, Collects]
  · cases handler <;> simp only [resultWrite, Collects]
    case getResult =>
      split_ifs with h
      · exact ⟨fun _ => ⟨msg', ⟨env', rfl⟩, h⟩, fun _ => rfl⟩
      · constructor
        · intro e; cases e
        · rintro ⟨msg, ⟨env, e⟩, h'⟩; cases e; exact absurd h' h
    case setResult => split_ifs <;> simp
    all_goals simp

/-! ## Requests for a result -/

/-- The `get_result` request for `j` with key `k`. -/
def askFor (j k : String) : IncomingMessage :=
  ⟨⟨.object [("@job_id", .string j), ("@api_key", .string k)]⟩, 0, rfl⟩

@[simp] theorem jobIdOf_askFor (j k : String) : jobIdOf (askFor j k) = j :=
  Message.getMeta_of_lookup (by decide) rfl ""

@[simp] theorem keyOf_askFor (j k : String) : keyOf (askFor j k) = k :=
  Message.getMeta_of_lookup (by decide) rfl ""

end NixSrv.JobQueue
