import NixSrv.JobQueue.Model

/-!
# What the handlers do

One lemma for each handler lists everything a call can come to.

* `moduleOf`, `jobIdOf`, `keyOf`: what a handler reads off a request;
* `SubmitCase`, `GetWorkCase`, `SetResultCase`, `GetResultCase` with **`submit_cases`**,
  **`getWork_cases`**, **`setResult_cases`**, **`getResult_cases`**;
* `queueAfter`, **`lookup_manage`**: what `manage` makes of each single queue, and the frame of
  `manage`, `setProgress` and `initQueue`.
-/

namespace NixSrv.JobQueue

open Json

variable [Jsoncpp]

/-! ## What a handler reads off a request -/

section Request

variable (msg : IncomingMessage)

/-- The queue a `submit` or `get_work` request names. -/
abbrev moduleOf : String := msg.getString "module" ""

abbrev jobIdOf : String := msg.getMeta "job_id" ""

abbrev keyOf : String := msg.getMeta "api_key" ""

/-- The content `submit` insists on. -/
def ValidSubmit : Prop :=
  moduleOf msg ≠ "" ∧ msg.getString "action" "" ≠ "" ∧ msg.hasKey "parameters" = true

instance : Decidable (ValidSubmit msg) := by unfold ValidSubmit; infer_instance

/-- The answer to an accepted `submit`. -/
abbrev accepted (job : Job) : Sent := msg.reply (Members.setMeta [] "job_id" (.string job.id))

end Request

/-! ## `submit` and `get_work` -/

/-- What a `submit` can come to. -/
inductive SubmitCase (jq : JobQueue) (env : Env) (msg : IncomingMessage) : Prop
  | refused (status : StatusCode) (reason : String) (hs : status ≠ .ok)
      (h : jq.submit env msg = .returned jq [msg.fail status reason])
  | noList (hw : jq.workersAwaiting.lookup (moduleOf msg) = none) (hq : moduleOf msg ∈ jq.queues)
      (h : jq.submit env msg = ⟨jq, [], .nullDeref⟩)
  | closedList (ws : Queue IncomingMessage)
      (hw : jq.workersAwaiting.lookup (moduleOf msg) = some ws) (hc : ws.isClosed = true)
      (h : jq.submit env msg = ⟨jq, [], .nullDeref⟩)
  | passed (q : Queue Job) (ws : Queue IncomingMessage) (w : IncomingMessage)
      (rest : List IncomingMessage) (hv : ValidSubmit msg)
      (hq : jq.queues.lookup (moduleOf msg) = some q) (ho : q.isClosed = false)
      (hw : jq.workersAwaiting.lookup (moduleOf msg) = some ws) (hws : ws.q = w :: rest)
      (h : jq.submit env msg = .returned
        { jq with workersAwaiting := jq.workersAwaiting.insert (moduleOf msg) ws.dropFront }
        [w.reply (Job.ofMessage env msg.toMessage).toDocument])
  | queued (q : Queue Job) (ws : Queue IncomingMessage) (hv : ValidSubmit msg)
      (hq : jq.queues.lookup (moduleOf msg) = some q) (hr : q.HasRoom)
      (hw : jq.workersAwaiting.lookup (moduleOf msg) = some ws) (hws : ws.q = [])
      (h : jq.submit env msg = .returned
        { jq with queues := jq.queues.insert (moduleOf msg)
                    (q.enqueue (Job.ofMessage env msg.toMessage) hr) }
        [accepted msg (Job.ofMessage env msg.toMessage)])

/-- A job for an open queue with a parked worker is passed on. -/
theorem submit_of_parked {jq : JobQueue} {msg : IncomingMessage} {q : Queue Job}
    {ws : Queue IncomingMessage} {w : IncomingMessage} {rest : List IncomingMessage}
    (hv : ValidSubmit msg) (hq : jq.queues.lookup (moduleOf msg) = some q)
    (ho : q.isClosed = false) (hw : jq.workersAwaiting.lookup (moduleOf msg) = some ws)
    (hc : ws.isClosed = false) (hws : ws.q = w :: rest) (env : Env) :
    jq.submit env msg = .returned
      { jq with workersAwaiting := jq.workersAwaiting.insert (moduleOf msg) ws.dropFront }
      [w.reply (Job.ofMessage env msg.toMessage).toDocument] := by
  obtain ⟨h1, h2, h3⟩ := hv
  simp [submit, persistent, hq, ho, h1, h2, h3, hw, Queue.size, hws, Queue.pop_cons hc hws]

/-- A job for a queue with room and no parked worker is put at its end. -/
theorem submit_of_hasRoom {jq : JobQueue} {msg : IncomingMessage} {q : Queue Job}
    {ws : Queue IncomingMessage} (hv : ValidSubmit msg)
    (hq : jq.queues.lookup (moduleOf msg) = some q) (hr : q.HasRoom)
    (hw : jq.workersAwaiting.lookup (moduleOf msg) = some ws) (hws : ws.q = []) (env : Env) :
    jq.submit env msg = .returned
      { jq with queues := jq.queues.insert (moduleOf msg)
                  (q.enqueue (Job.ofMessage env msg.toMessage) hr) }
      [accepted msg (Job.ofMessage env msg.toMessage)] := by
  obtain ⟨h1, h2, h3⟩ := hv
  simp [submit, persistent, hq, hr.1, h1, h2, h3, hw, Queue.size, hws, Queue.push_of_hasRoom hr]

theorem submit_cases (jq : JobQueue) (env : Env) (msg : IncomingMessage) :
    SubmitCase jq env msg := by
  cases hq : jq.queues.lookup (moduleOf msg) with
  | none => exact .refused .fail ("No queue for module: " ++ moduleOf msg) (by decide) (by
      simp [submit, persistent, hq])
  | some q =>
  cases ho : q.isClosed with
  | true => exact .refused .fail "Queue closed" (by decide) (by
      simp [submit, persistent, hq, ho])
  | false =>
  by_cases hv : ValidSubmit msg
  swap
  · refine .refused .dataInvalidContent "" (by decide) ?_
    simp only [submit, persistent, hq, ho, Bool.false_eq_true, if_false]
    exact if_pos hv
  have hv' := hv
  obtain ⟨h1, h2, h3⟩ := hv'
  cases hw : jq.workersAwaiting.lookup (moduleOf msg) with
  | none => exact .noList hw (Map.mem_of_lookup hq) (by
      simp [submit, persistent, hq, ho, h1, h2, h3, hw])
  | some ws =>
  cases hws : ws.q with
  | nil =>
    by_cases hr : q.HasRoom
    · exact .queued q ws hv hq hr hw hws (submit_of_hasRoom hv hq hr hw hws env)
    · exact .refused .tempLimitReached "Queue full" (by decide) (by
        simp [submit, persistent, hq, ho, h1, h2, h3, hw, Queue.size, hws,
          Queue.push_of_not_hasRoom hr])
  | cons w rest =>
    cases hc : ws.isClosed with
    | true => exact .closedList ws hw hc (by
        simp [submit, persistent, hq, ho, h1, h2, h3, hw, Queue.size, hws, Queue.pop_closed.mpr hc])
    | false =>
      exact .passed q ws w rest hv hq ho hw hws (submit_of_parked hv hq ho hw hc hws env)

/-- What a `get_work` can come to. -/
inductive GetWorkCase (jq : JobQueue) (msg : IncomingMessage) : Prop
  | noQueue (reason : String) (hq : jq.queues.lookup (moduleOf msg) = none)
      (h : jq.getWork msg = .returned jq [msg.fail .fail reason])
  | waits (q : Queue Job) (hq : jq.queues.lookup (moduleOf msg) = some q)
      (ho : q.isClosed = false) (he : q.q = []) (h : jq.getWork msg = ⟨jq, [], .blocked⟩)
  | handed (q : Queue Job) (job : Job) (rest : List Job)
      (hq : jq.queues.lookup (moduleOf msg) = some q) (ho : q.isClosed = false)
      (he : q.q = job :: rest)
      (h : jq.getWork msg = .returned { jq with
        queues := jq.queues.insert (moduleOf msg) q.dropFront
        inProgress := jq.inProgress.insert job.id job } [msg.reply job.toDocument])
  | noList (q : Queue Job) (hq : jq.queues.lookup (moduleOf msg) = some q)
      (hw : jq.workersAwaiting.lookup (moduleOf msg) = none)
      (h : jq.getWork msg = ⟨jq, [], .nullDeref⟩)
  | parked (q : Queue Job) (ws : Queue IncomingMessage)
      (hq : jq.queues.lookup (moduleOf msg) = some q) (hc : q.isClosed = true)
      (hw : jq.workersAwaiting.lookup (moduleOf msg) = some ws)
      (h : jq.getWork msg = .returned { jq with
        workersAwaiting := jq.workersAwaiting.insert (moduleOf msg) (ws.push msg).1 } [])

theorem getWork_cases (jq : JobQueue) (msg : IncomingMessage) : GetWorkCase jq msg := by
  cases hq : jq.queues.lookup (moduleOf msg) with
  | none => exact .noQueue _ hq (by simp only [getWork, persistent, hq]; rfl)
  | some q =>
  cases hc : q.isClosed with
  | true =>
    cases hw : jq.workersAwaiting.lookup (moduleOf msg) with
    | none => exact .noList q hq hw (by
        simp [getWork, persistent, hq, Queue.pop_closed.mpr hc, hw])
    | some ws => exact .parked q ws hq hc hw (by
        simp [getWork, persistent, hq, Queue.pop_closed.mpr hc, hw])
  | false =>
    cases he : q.q with
    | nil => exact .waits q hq hc he (by
        simp [getWork, persistent, hq, Queue.pop_waits.mpr ⟨hc, he⟩])
    | cons job rest => exact .handed q job rest hq hc he (by
        simp [getWork, persistent, hq, Queue.pop_cons hc he])

/-! ## `set_result` and `get_result` -/

/-- What a `set_result` can come to. -/
inductive SetResultCase (jq : JobQueue) (env : Env) (msg : IncomingMessage) : Prop
  | refused (hj : jobIdOf msg = "") (h : jq.setResult env msg = .returned jq [msg.fail .nullValue])
  | stored (hj : jobIdOf msg ≠ "") (h : jq.setResult env msg = .returned { jq with
        inProgress := jq.inProgress.erase (jobIdOf msg)
        completed := jq.completed.insert (jobIdOf msg)
          ((Job.ofMessage env msg.toMessage).setProgress 100)
        completedJobs := jq.completedJobs + 1 } [msg.replyEmpty])

theorem setResult_cases (jq : JobQueue) (env : Env) (msg : IncomingMessage) :
    SetResultCase jq env msg := by
  by_cases hj : jobIdOf msg = ""
  · exact .refused hj (by simp [setResult, hj])
  · exact .stored hj (by simp [setResult, persistent, hj])

/-- What a `get_result` can come to. -/
inductive GetResultCase (jq : JobQueue) (msg : IncomingMessage) : Prop
  | collected (job : Job) (hc : jq.completed.lookup (jobIdOf msg) = some job)
      (hk : job.apiKey = keyOf msg)
      (h : jq.getResult msg = .returned
        { jq with completed := jq.completed.erase (jobIdOf msg) } [msg.reply job.toDocument])
  | denied (job : Job) (hc : jq.completed.lookup (jobIdOf msg) = some job)
      (hk : job.apiKey ≠ keyOf msg) (h : jq.getResult msg = .returned jq [msg.fail .accessDenied])
  | notReady (job : Job) (hc : jq.completed.lookup (jobIdOf msg) = none)
      (hp : jq.inProgress.lookup (jobIdOf msg) = some job)
      (h : jq.getResult msg = .returned jq [msg.reply job.toDocument .notReady])
  | notFound (hc : jq.completed.lookup (jobIdOf msg) = none)
      (hp : jq.inProgress.lookup (jobIdOf msg) = none)
      (h : jq.getResult msg = .returned jq
        [msg.fail .fail "Job not found or not yet started"])

theorem getResult_cases (jq : JobQueue) (msg : IncomingMessage) : GetResultCase jq msg := by
  cases hc : jq.completed.lookup (jobIdOf msg) with
  | some job =>
    by_cases hk : job.apiKey = keyOf msg
    · exact .collected job hc hk (by simp [getResult, persistent, hc, hk])
    · exact .denied job hc hk (by simp [getResult, persistent, hc, hk])
  | none =>
    cases hp : jq.inProgress.lookup (jobIdOf msg) with
    | some job => exact .notReady job hc hp (by simp [getResult, persistent, hc, hp])
    | none => exact .notFound hc hp (by simp [getResult, persistent, hc, hp])

/-! ## `init_queue`, `set_progress`, `status` -/

omit [Jsoncpp] in
theorem initQueue_of_mem {jq : JobQueue} {name : String} (h : name ∈ jq.queues) (size : ℕ) :
    jq.initQueue name size = (jq, false) := by
  simp [initQueue, h]

omit [Jsoncpp] in
theorem initQueue_of_notMem {jq : JobQueue} {name : String} (h : name ∉ jq.queues) (size : ℕ) :
    ∃ n, jq.initQueue name size = ({ jq with
      queues := Map.emplace name (.new n) jq.queues
      workersAwaiting := Map.emplace name (.new n) jq.workersAwaiting }, true) :=
  ⟨_, by simp [initQueue, h]; exact ⟨rfl, rfl⟩⟩

/-- `set_progress` sends nothing, and replaces a job in progress when the number it reads is not
zero. -/
theorem setProgress_cases (jq : JobQueue) (msg : IncomingMessage) :
    jq.setProgress msg = .returned jq [] ∨
    ∃ job, jq.inProgress.lookup (jobIdOf msg) = some job ∧ msg.getDouble "progress" 0 ≠ 0 ∧
      jq.setProgress msg = .returned
        { jq with inProgress := jq.inProgress.insert (jobIdOf msg)
                    (job.setProgress (msg.getDouble "progress" 0)) } [] := by
  cases hp : jq.inProgress.lookup (jobIdOf msg) with
  | none => exact Or.inl (by simp [setProgress, hp])
  | some job =>
    by_cases h0 : msg.getDouble "progress" 0 = 0
    · exact Or.inl (by simp [setProgress, hp, h0])
    · exact Or.inr ⟨job, rfl, h0, by simp only [setProgress, hp]; exact if_pos h0⟩

omit [Jsoncpp] in
theorem status_cases (jq : JobQueue) (msg : IncomingMessage) :
    (∃ out, jq.status msg = .returned jq [msg.reply out]) ∨ jq.status msg = ⟨jq, [], .thrown⟩ := by
  unfold status
  cases jq.statusDocument with
  | ok out => exact Or.inl ⟨out, rfl⟩
  | error e => exact Or.inr rfl

/-! ## `manage` -/

section Manage

variable (jq : JobQueue) (msg : IncomingMessage)

/-- The queue a `manage` request names. -/
abbrev queueOf : String := msg.getString "queue" ""

/-- The request asks for a queue to be created. -/
def Creates : Prop := queueOf msg ≠ "" ∧ msg.isNull "create" = false

instance : Decidable (Creates msg) := by unfold Creates; infer_instance

/-- The request asks for the queue it names to be removed. -/
abbrev removes : Bool := !msg.isNull "remove" && msg.getBool "remove" false

/-- The request asks for the queue it names to be cleared. -/
abbrev clears : Bool := !msg.isNull "clear" && msg.getBool "clear" false

/-- What the first part of `manage` makes of a queue. -/
def queueAfterAll (o : Option (Queue Job)) : Option (Queue Job) :=
  let o := if msg.getBool "clear_all" false then o.map Queue.clear else o
  let o := if msg.getBool "remove_all" false then none else o
  if !msg.isNull "switch_all" then o.map (·.setEnabled (msg.getBool "switch_all" true)) else o

/-- What the second part of `manage` makes of the queue it names, when it creates none. -/
def queueAfterOwn (q : Queue Job) : Option (Queue Job) :=
  let q := if !msg.isNull "enable" then q.setEnabled (msg.getBool "enable" true) else q
  if removes msg then none else some (if clears msg then q.clear else q)

/-- What a `manage` can come to; `jq₁` is the state after its first part. -/
inductive ManageCase : Prop
  | created (n : ℕ) (hc : Creates msg) (hq : queueOf msg ∉ (jq.manageAll msg).queues)
      (h : jq.manage msg = .returned { jq.manageAll msg with
        queues := Map.emplace (queueOf msg) (.new n) (jq.manageAll msg).queues
        workersAwaiting := Map.emplace (queueOf msg) (.new n) (jq.manageAll msg).workersAwaiting }
        [msg.replyEmpty])
  | alreadyThere (hc : Creates msg) (hq : queueOf msg ∈ (jq.manageAll msg).queues)
      (h : jq.manage msg = .returned (jq.manageAll msg)
        [msg.fail .fail "Failed to create queue. Already exists?"])
  | own (q : Queue Job) (hc : ¬ Creates msg)
      (hq : (jq.manageAll msg).queues.lookup (queueOf msg) = some q)
      (h : jq.manage msg = .returned ((jq.manageAll msg).manageQueue msg (queueOf msg) q)
        [msg.replyEmpty])
  | none (hc : ¬ Creates msg) (hq : (jq.manageAll msg).queues.lookup (queueOf msg) = none)
      (h : jq.manage msg = .returned (jq.manageAll msg)
        (if anyAllAction msg then [] else [msg.fail .nullValue]))

theorem manage_cases : ManageCase jq msg := by
  by_cases hc : Creates msg
  · have hc' : queueOf msg ≠ "" ∧ (!msg.isNull "create") = true := ⟨hc.1, by simp [hc.2]⟩
    by_cases hq : queueOf msg ∈ (jq.manageAll msg).queues
    · exact .alreadyThere hc hq (by
        rw [manage, if_pos hc', initQueue_of_mem hq]; rfl)
    · obtain ⟨n, hn⟩ := initQueue_of_notMem hq (toSizeT (msg.getInt "create.size" 0))
      exact .created n hc hq (by rw [manage, if_pos hc', hn]; rfl)
  · have hc' : ¬ (queueOf msg ≠ "" ∧ (!msg.isNull "create") = true) := fun h =>
      hc ⟨h.1, by simpa using h.2⟩
    cases hq : (jq.manageAll msg).queues.lookup (queueOf msg) with
    | some q => exact .own q hc hq (by rw [manage, if_neg hc']; simp only [hq])
    | none => exact .none hc hq (by rw [manage, if_neg hc']; simp only [hq])

omit [Jsoncpp] in
theorem lookup_manageAll (name : String) :
    (jq.manageAll msg).queues.lookup name = queueAfterAll msg (jq.queues.lookup name) := by
  unfold manageAll queueAfterAll removeAll clearAll switchAll
  split_ifs <;> simp only [Map.lookup_mapVal, AList.lookup_empty]

omit [Jsoncpp] in
theorem manageAll_frame : (jq.manageAll msg).workersAwaiting = jq.workersAwaiting ∧
    (jq.manageAll msg).inProgress = jq.inProgress ∧ (jq.manageAll msg).completed = jq.completed ∧
    (jq.manageAll msg).completedJobs = jq.completedJobs := by
  unfold manageAll removeAll clearAll switchAll
  split_ifs <;> exact ⟨rfl, rfl, rfl, rfl⟩

omit [Jsoncpp] in
theorem lookup_manageQueue {name : String} {q : Queue Job}
    (name' : String) : (jq.manageQueue msg name q).queues.lookup name' =
      if name' = name then queueAfterOwn msg q else jq.queues.lookup name' := by
  unfold manageQueue queueAfterOwn
  split_ifs <;> simp_all [Map.lookup_erase, Map.lookup_insert]

omit [Jsoncpp] in
theorem manageQueue_frame (name : String) (q : Queue Job) :
    (jq.manageQueue msg name q).workersAwaiting = jq.workersAwaiting ∧
    (jq.manageQueue msg name q).inProgress = jq.inProgress ∧
    (jq.manageQueue msg name q).completed = jq.completed ∧
    (jq.manageQueue msg name q).completedJobs = jq.completedJobs := by
  unfold manageQueue
  split_ifs <;> exact ⟨rfl, rfl, rfl, rfl⟩

/-- What `manage` makes of the queue `name`; `n` is the capacity of a queue it creates. -/
def queueAfter (n : ℕ) (name : String) (o : Option (Queue Job)) : Option (Queue Job) :=
  let o := queueAfterAll msg o
  if name = queueOf msg then
    if Creates msg then some (o.getD (.new n)) else o.bind (queueAfterOwn msg)
  else o

/-- **The effect of `manage` on each queue.** -/
theorem lookup_manage : ∃ n, ∀ name,
    (jq.manage msg).state.queues.lookup name = queueAfter msg n name (jq.queues.lookup name) := by
  have key : ∀ name, (jq.manageAll msg).queues.lookup name =
    queueAfterAll msg (jq.queues.lookup name) := lookup_manageAll jq msg
  cases manage_cases jq msg with
  | created n hc hq h =>
    refine ⟨n, fun name => ?_⟩
    rw [h, queueAfter, if_pos hc, Map.lookup_emplace, key, key]
    split_ifs with hn
    · rw [hn]
    · rfl
  | alreadyThere hc hq h =>
    refine ⟨0, fun name => ?_⟩
    rw [h, queueAfter, if_pos hc, key]
    split_ifs with hn
    · obtain ⟨q, hq⟩ := Map.exists_lookup hq
      rw [key, ← hn] at hq
      rw [hq, Option.getD_some]
    · rfl
  | own q hc hq h =>
    refine ⟨0, fun name => ?_⟩
    rw [h, queueAfter, if_neg hc, lookup_manageQueue, key]
    split_ifs with hn
    · rw [hn, ← key, hq, Option.bind_some]
    · rfl
  | none hc hq h =>
    refine ⟨0, fun name => ?_⟩
    rw [h, queueAfter, if_neg hc, key]
    split_ifs with hn
    · rw [hn, ← key, hq, Option.bind_none]
    · rfl

/-- **The frame of `manage`.** -/
theorem manage_frame : (jq.manage msg).ending = .returned ∧
    (jq.manage msg).state.inProgress = jq.inProgress ∧
    (jq.manage msg).state.completed = jq.completed ∧
    (jq.manage msg).state.completedJobs = jq.completedJobs := by
  obtain ⟨-, hp, hd, hn⟩ := manageAll_frame jq msg
  cases manage_cases jq msg with
  | created n hc hq h => rw [h]; exact ⟨rfl, hp, hd, hn⟩
  | alreadyThere hc hq h => rw [h]; exact ⟨rfl, hp, hd, hn⟩
  | own q hc hq h =>
    obtain ⟨-, hp', hd', hn'⟩ := manageQueue_frame (jq.manageAll msg) msg (queueOf msg) q
    rw [h]
    exact ⟨rfl, hp'.trans hp, hd'.trans hd, hn'.trans hn⟩
  | none hc hq h => rw [h]; exact ⟨rfl, hp, hd, hn⟩

/-- `manage` adds an empty waiting list at most, and then under the name of a queue it creates. -/
theorem manage_workersAwaiting :
    (jq.manage msg).state.workersAwaiting = jq.workersAwaiting ∨
    ∃ n, (jq.manage msg).state.workersAwaiting =
        Map.emplace (queueOf msg) (.new n) jq.workersAwaiting ∧
      queueOf msg ∈ (jq.manage msg).state.queues := by
  obtain ⟨hw, -⟩ := manageAll_frame jq msg
  cases manage_cases jq msg with
  | created n hc hq h =>
    refine Or.inr ⟨n, ?_, ?_⟩
    · rw [h]
      exact congrArg (Map.emplace (queueOf msg) (.new n)) hw
    · rw [h]
      exact Map.mem_emplace.mpr (Or.inl rfl)
  | alreadyThere hc hq h => rw [h]; exact Or.inl hw
  | own q hc hq h =>
    rw [h]
    exact Or.inl ((manageQueue_frame (jq.manageAll msg) msg (queueOf msg) q).1.trans hw)
  | none hc hq h => rw [h]; exact Or.inl hw

/-- `manage` empties a queue or keeps its jobs in order. -/
theorem queueAfter_q {n : ℕ} {name : String} {o : Option (Queue Job)} {q' : Queue Job}
    (h : queueAfter msg n name o = some q') : q'.q = [] ∨ ∃ q, o = some q ∧ q'.q = q.q := by
  have hall : ∀ q₁, queueAfterAll msg o = some q₁ → q₁.q = [] ∨ ∃ q, o = some q ∧ q₁.q = q.q := by
    intro q₁ h₁
    cases o with
    | none => unfold queueAfterAll at h₁; split_ifs at h₁ <;> simp at h₁
    | some q =>
      unfold queueAfterAll at h₁
      split_ifs at h₁ <;> simp at h₁ <;> subst h₁ <;> simp
  unfold queueAfter at h
  split_ifs at h with hn hc
  · cases ho : queueAfterAll msg o with
    | none => rw [ho] at h; cases h; exact Or.inl rfl
    | some q₁ => rw [ho] at h; cases h; exact hall q₁ ho
  · obtain ⟨q₁, ho, hown⟩ := Option.bind_eq_some_iff.mp h
    unfold queueAfterOwn at hown
    rcases hall q₁ ho with he | ⟨q, hq, he⟩
    · left
      split_ifs at hown <;> cases hown <;> simp [he]
    · split_ifs at hown <;> cases hown <;> first | exact Or.inl rfl | exact Or.inr ⟨q, hq, he⟩
  · exact hall q' h

/-- A queue that is there after `manage` was there before, or has its waiting list now. -/
theorem mem_queues_manage {name : String} (h : name ∈ (jq.manage msg).state.queues) :
    name ∈ jq.queues ∨ name ∈ (jq.manage msg).state.workersAwaiting := by
  have hall : ∀ name, name ∈ (jq.manageAll msg).queues → name ∈ jq.queues := by
    intro name hn
    by_contra hc
    obtain ⟨q, hq⟩ := Map.exists_lookup hn
    rw [lookup_manageAll, AList.lookup_eq_none.mpr hc] at hq
    unfold queueAfterAll at hq
    split_ifs at hq <;> simp at hq
  cases manage_cases jq msg with
  | created n hc hq h' =>
    rw [h'] at h ⊢
    rcases Map.mem_emplace.mp h with hn | hn
    · exact Or.inr (Map.mem_emplace.mpr (Or.inl hn))
    · exact Or.inl (hall name hn)
  | alreadyThere hc hq h' => rw [h'] at h; exact Or.inl (hall name h)
  | own q hc hq h' =>
    rw [h'] at h
    obtain ⟨q', hq'⟩ := Map.exists_lookup h
    rw [lookup_manageQueue] at hq'
    split_ifs at hq' with hn
    · exact Or.inl (hall name (hn ▸ Map.mem_of_lookup hq))
    · exact Or.inl (hall name (Map.mem_of_lookup hq'))
  | none hc hq h' => rw [h'] at h; exact Or.inl (hall name h)

end Manage

end NixSrv.JobQueue
