import NixSrv.JobQueue.ManageEffect

/-!
# The configuration of the queues

* `QueueConfig`, `queueConfig`: capacity and flag of each queue, by name;
* `Operation.configure`, `configureAll`, `config_applyAll`: what operations make of it;
* **`queueConfig_handleRequest`**: a request to `manage` does the operations it asks for, and no
  other request changes it.
-/

namespace NixSrv.JobQueue

open Json

/-- Capacity and flag of each queue, by name. -/
abbrev QueueConfig := String → Option (ℕ × Bool)

def configOf (q : Queue Job) : ℕ × Bool := (q.queueSize, q.isClosed)

def queueConfig (jq : JobQueue) : QueueConfig := fun name => (jq.queues.lookup name).map configOf

/-- What an operation makes of the configuration. -/
def Operation.configure (config : QueueConfig) : Operation → QueueConfig
  | clearAll | clear _ => config
  | removeAll => fun _ => none
  | switchAll state => fun name => (config name).map fun c => (c.1, !state)
  | create name capacity =>
    Function.update config name (some ((config name).getD (configOf (.new capacity))))
  | enable name state => Function.update config name ((config name).map fun c => (c.1, !state))
  | remove name => Function.update config name none

def configureAll (ops : List Operation) (config : QueueConfig) : QueueConfig :=
  ops.foldl Operation.configure config

/-- The configuration of the queues after an operation. -/
theorem config_apply (qs : Queues) (op : Operation) :
    (fun name => (op.apply qs name).map configOf) =
      op.configure fun name => (qs name).map configOf := by
  funext name
  cases op with
  | clearAll =>
    change ((qs name).map Queue.clear).map configOf = (qs name).map configOf
    rw [Option.map_map]
    rfl
  | removeAll => rfl
  | switchAll state => simp [Operation.apply, Operation.configure, configOf, Function.comp_def]
  | create name' capacity | enable name' state | clear name' | remove name' =>
    simp only [Operation.apply, Operation.configure, Function.update_apply]
    split_ifs with hn
    · subst hn
      cases qs name <;> rfl
    · rfl

theorem config_applyAll (ops : List Operation) : ∀ qs : Queues,
    (fun name => (applyAll ops qs name).map configOf) =
      configureAll ops fun name => (qs name).map configOf := by
  induction ops with
  | nil => exact fun _ => rfl
  | cons op ops ih =>
    intro qs
    change (fun name => (applyAll ops (op.apply qs) name).map configOf) = _
    rw [ih, config_apply]
    rfl

/-- A queue in the place of one with the same configuration. -/
theorem queueConfig_insert {jq : JobQueue} {name : String} {q q' : Queue Job}
    (hq : jq.queues.lookup name = some q) (h : configOf q' = configOf q) :
    (fun n => ((jq.queues.insert name q').lookup n).map configOf) = jq.queueConfig := by
  funext n
  rw [Map.lookup_insert]
  split_ifs with hn
  · rw [hn, queueConfig, hq, Option.map_some, Option.map_some, h]
  · rfl

section Requests

variable [Jsoncpp]

theorem queueConfig_submit (jq : JobQueue) (env : Env) (msg : IncomingMessage) :
    (jq.submit env msg).state.queueConfig = jq.queueConfig := by
  cases submit_cases jq env msg with
  | refused _ _ _ h | noList _ _ h | closedList _ _ _ h => rw [h]
  | passed _ _ _ _ _ _ _ _ _ h =>
    rw [h]
    rfl
  | queued q ws _ hq hr _ _ h =>
    rw [h]
    exact queueConfig_insert hq rfl

theorem queueConfig_getWork (jq : JobQueue) (msg : IncomingMessage) :
    (jq.getWork msg).state.queueConfig = jq.queueConfig := by
  cases getWork_cases jq msg with
  | noQueue _ _ h | waits _ _ _ _ h | noList _ _ _ h => rw [h]
  | parked _ _ _ _ _ h =>
    rw [h]
    rfl
  | handed q _ _ hq _ _ h =>
    rw [h]
    exact queueConfig_insert hq rfl

theorem queueConfig_manage (jq : JobQueue) (msg : IncomingMessage) :
    (jq.manage msg).state.queueConfig = configureAll (operations msg) jq.queueConfig := by
  have h := byName_manage jq msg
  change (fun name => ((jq.manage msg).state.byName name).map configOf) = _
  rw [h, config_applyAll]
  rfl

/-- **A request to `manage` does the operations it asks for, and no other request changes the
configuration.** -/
theorem queueConfig_handleRequest (jq : JobQueue) (r : Request) :
    (jq.handleRequest r).state.queueConfig =
      if r.handler = .manage then configureAll (operations r.msg) jq.queueConfig
      else jq.queueConfig := by
  obtain ⟨handler, env, msg⟩ := r
  cases handler with
  | submit => exact queueConfig_submit jq env msg
  | getWork => exact queueConfig_getWork jq msg
  | manage => exact queueConfig_manage jq msg
  | setProgress =>
    change (jq.setProgress msg).state.queueConfig = _
    rcases setProgress_cases jq msg with h | ⟨_, _, -, h⟩
    · rw [h]
      rfl
    · rw [h]
      rfl
  | setResult =>
    change (jq.setResult env msg).state.queueConfig = _
    cases setResult_cases jq env msg with
    | refused _ h | stored _ h =>
      rw [h]
      rfl
  | getResult =>
    change (jq.getResult msg).state.queueConfig = _
    cases getResult_cases jq msg with
    | collected _ _ _ h | denied _ _ _ h | notReady _ _ _ h | notFound _ _ h =>
      rw [h]
      rfl
  | status =>
    change (jq.status msg).state.queueConfig = _
    rcases status_cases jq msg with ⟨_, h⟩ | h
    · rw [h]
      rfl
    · rw [h]
      rfl

end Requests

end NixSrv.JobQueue
