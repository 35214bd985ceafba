import NixSrv.JobQueue.History

/-!
# What one call does to each container

* `AwaitingCase`, **`awaiting_cases`**: to the waiting lists;
* `handle_of_mem_sent`: whom it answers;
* `QueueCase`, **`queue_cases`**: to the queue of a given name;
* **`mem_inProgress_handle`**: to the entry of a given id in `in_progress_`;
* **`lookup_completed_handle`**: to the result of a given id;
* `TrackCase`, **`track_cases`**: the last two put together.
-/

namespace NixSrv.JobQueue

open Json Transition

variable [Jsoncpp]

/-! ## Waiting lists -/

/-- What a call can do to the waiting lists. -/
inductive AwaitingCase (jq : JobQueue) (c : Call) : Prop
  | kept (h : (jq.handle c).state.workersAwaiting = jq.workersAwaiting)
  | created (name : String) (n : ℕ) (hm : name ∈ (jq.handle c).state.queues)
      (h : (jq.handle c).state.workersAwaiting = Map.emplace name (.new n) jq.workersAwaiting)
  | served (env : Env) (msg : IncomingMessage) (ws : Queue IncomingMessage)
      (hc : c = .request ⟨.submit, env, msg⟩) (hq : moduleOf msg ∈ jq.queues)
      (hw : jq.workersAwaiting.lookup (moduleOf msg) = some ws)
      (h : (jq.handle c).state.workersAwaiting =
        jq.workersAwaiting.insert (moduleOf msg) ws.dropFront)
  | parked (env : Env) (msg : IncomingMessage) (q : Queue Job) (ws : Queue IncomingMessage)
      (hc : c = .request ⟨.getWork, env, msg⟩) (hq : jq.queues.lookup (moduleOf msg) = some q)
      (hcl : q.isClosed = true)
      (hw : jq.workersAwaiting.lookup (moduleOf msg) = some ws)
      (h : (jq.handle c).state.workersAwaiting =
        jq.workersAwaiting.insert (moduleOf msg) (ws.push msg).1)

theorem awaiting_cases (jq : JobQueue) (c : Call) : AwaitingCase jq c := by
  obtain ⟨name, size⟩ | ⟨⟨handler, env, msg⟩⟩ := c
  · by_cases hn : name ∈ jq.queues
    · exact .kept (by simp only [handle, initQueue_of_mem hn])
    · obtain ⟨n, h⟩ := initQueue_of_notMem hn size
      refine .created name n ?_ ?_
      · simp only [handle, h]
        exact Map.mem_emplace.mpr (Or.inl rfl)
      · simp only [handle, h]
  cases handler with
  | submit =>
    cases submit_cases jq env msg with
    | refused _ _ _ h | noList _ _ h | closedList _ _ _ h =>
      exact .kept (by simp only [handle, handleRequest, h])
    | passed q ws w rest hv hq ho hw hws h =>
      exact .served env msg ws rfl (Map.mem_of_lookup hq) hw (by
        simp only [handle, handleRequest, h])
    | queued _ _ _ _ _ _ _ h => exact .kept (by simp only [handle, handleRequest, h])
  | getWork =>
    cases getWork_cases jq msg with
    | noQueue _ _ h | waits _ _ _ _ h | noList _ _ _ h =>
      exact .kept (by simp only [handle, handleRequest, h])
    | handed _ _ _ _ _ _ h => exact .kept (by simp only [handle, handleRequest, h])
    | parked q ws hq hc hw h =>
      exact .parked env msg q ws rfl hq hc hw (by simp only [handle, handleRequest, h])
  | setProgress =>
    rcases setProgress_cases jq msg with h | ⟨_, _, -, h⟩
    · exact .kept (by simp only [handle, handleRequest, h])
    · exact .kept (by simp only [handle, handleRequest, h])
  | setResult =>
    cases setResult_cases jq env msg with
    | refused _ h | stored _ h => exact .kept (by simp only [handle, handleRequest, h])
  | getResult =>
    cases getResult_cases jq msg with
    | collected _ _ _ h | denied _ _ _ h | notReady _ _ _ h | notFound _ _ h =>
      exact .kept (by simp only [handle, handleRequest, h])
  | manage =>
    rcases manage_workersAwaiting jq msg with h | ⟨n, h, hm⟩
    · exact .kept h
    · exact .created _ n hm h
  | status =>
    rcases status_cases jq msg with ⟨_, h⟩ | h
    · exact .kept (by simp only [handle, handleRequest, h])
    · exact .kept (by simp only [handle, handleRequest, h])

/-! ## Answers -/

omit [Jsoncpp] in
theorem eq_of_mem_sent {o : Outcome} {jq : JobQueue} {a s : Sent}
    (h : o = .returned jq [a]) (hs : s ∈ o.sent) : s = a := by
  rw [h] at hs
  exact List.mem_singleton.mp hs

/-- All handlers but two answer the sender of their request. -/
theorem handle_of_mem_sent {jq : JobQueue} {r : Request} {s : Sent}
    (hr : r.handler ≠ .submit ∧ r.handler ≠ .getWork)
    (hs : s ∈ (jq.handleRequest r).sent) : s.handle = r.msg.handle := by
  obtain ⟨handler, env, msg⟩ := r
  cases handler with
  | submit => exact absurd rfl hr.1
  | getWork => exact absurd rfl hr.2
  | setProgress =>
    change s ∈ (jq.setProgress msg).sent at hs
    rcases setProgress_cases jq msg with h | ⟨_, _, -, h⟩
    · rw [h] at hs; cases hs
    · rw [h] at hs; cases hs
  | setResult =>
    change s ∈ (jq.setResult env msg).sent at hs
    cases setResult_cases jq env msg with
    | refused _ h | stored _ h =>
      rw [eq_of_mem_sent h hs]
      rfl
  | getResult =>
    change s ∈ (jq.getResult msg).sent at hs
    cases getResult_cases jq msg with
    | collected _ _ _ h | denied _ _ _ h | notReady _ _ _ h | notFound _ _ h =>
      rw [eq_of_mem_sent h hs]
      rfl
  | manage =>
    change s ∈ (jq.manage msg).sent at hs
    cases manage_cases jq msg with
    | created _ _ _ h | alreadyThere _ _ h | own _ _ _ h =>
      rw [eq_of_mem_sent h hs]
      rfl
    | none _ _ h =>
      rw [h] at hs
      split_ifs at hs
      · cases hs
      · rw [List.mem_singleton.mp hs]
        rfl
  | status =>
    change s ∈ (jq.status msg).sent at hs
    rcases status_cases jq msg with ⟨_, h⟩ | h
    · rw [eq_of_mem_sent h hs]
      rfl
    · rw [h] at hs; cases hs

/-! ## Queues -/

/-- What a call that ends can do to the queue `name`. -/
inductive QueueCase (jq : JobQueue) (c : Call) (post : JobQueue) (name : String) : Prop
  | kept (hop : fifoOp name ⟨jq, c, post⟩ = .keep)
      (h : (jq.handle c).state.queues.lookup name = jq.queues.lookup name)
  | created (n : ℕ) (hop : fifoOp name ⟨jq, c, post⟩ = .keep) (hq : jq.queues.lookup name = none)
      (h : (jq.handle c).state.queues.lookup name = some (.new n))
  | enqueued (q : Queue Job) (job : Job) (hr : q.HasRoom)
      (hop : fifoOp name ⟨jq, c, post⟩ = .enter job.id) (hq : jq.queues.lookup name = some q)
      (h : (jq.handle c).state.queues.lookup name = some (q.enqueue job hr))
  | dequeued (q : Queue Job) (job : Job) (rest : List Job)
      (hop : fifoOp name ⟨jq, c, post⟩ = .take) (hq : jq.queues.lookup name = some q)
      (hj : q.q = job :: rest)
      (h : (jq.handle c).state.queues.lookup name = some q.dropFront)
  | managed (env : Env) (msg : IncomingMessage) (n : ℕ) (hc : c = .request ⟨.manage, env, msg⟩)
      (h : (jq.handle c).state.queues.lookup name =
        queueAfter msg n name (jq.queues.lookup name))

omit [Jsoncpp] in
@[simp] theorem jobIdIn_reply_toDocument (msg : IncomingMessage) (job : Job)
    (status : StatusCode) : jobIdIn (msg.reply job.toDocument status) = some job.id := by
  simp only [jobIdIn, IncomingMessage.reply, Members.setStatusCode]
  rw [Members.lookup_put_ne (by decide), Job.lookup_toDocument_id]

omit [Jsoncpp] in
@[simp] theorem jobIdIn_fail (msg : IncomingMessage) (status : StatusCode) (reason : String) :
    jobIdIn (msg.fail status reason) = none := by
  simp only [jobIdIn, IncomingMessage.fail, Members.setStatus, Members.setStatusMsg,
    Members.setStatusCode]
  rw [Members.lookup_put_ne (by decide), Members.lookup_put_ne (by decide)]
  rfl

omit [Jsoncpp] in
/-- The document of a job is not the answer to an accepted `submit`. -/
theorem accepted_ne_reply {msg w : IncomingMessage} (job : Job) {job' : Job} :
    accepted msg job ≠ w.reply job'.toDocument := by
  intro h
  have hdoc := Answer.reply.inj (congrArg Sent.answer h)
  have hpar := congrArg (List.lookup "parameters") hdoc
  rw [Members.setStatusCode, Members.lookup_put_ne (by decide), Members.setMeta,
    Members.lookup_put_ne (by decide), Members.setStatusCode, Members.lookup_put_ne (by decide),
    Job.lookup_toDocument_parameters] at hpar
  cases hpar

/-- **What a call does to a queue.** -/
theorem queue_cases {jq : JobQueue} {c : Call} (hfin : (jq.handle c).Finished) (post : JobQueue)
    (name : String) : QueueCase jq c post name := by
  obtain ⟨name', size⟩ | ⟨⟨handler, env, msg⟩⟩ := c
  · by_cases hn : name' ∈ jq.queues
    · exact .kept rfl (by simp only [handle, initQueue_of_mem hn])
    · obtain ⟨n, h⟩ := initQueue_of_notMem hn size
      by_cases he : name = name'
      · have hnone : jq.queues.lookup name = none := he ▸ AList.lookup_eq_none.mpr hn
        refine .created n rfl hnone ?_
        simp only [handle, h, Map.lookup_emplace, if_pos he, AList.lookup_eq_none.mpr hn,
          Option.getD_none]
      · exact .kept rfl (by simp only [handle, h, Map.lookup_emplace, if_neg he])
  cases handler with
  | submit =>
    cases submit_cases jq env msg with
    | refused status reason hs h =>
      refine .kept ?_ (by simp only [handle, handleRequest, h])
      simp [fifoOp, accepts, sentIn, handle, handleRequest, h, hs]
    | noList _ _ h | closedList _ _ _ h =>
      simp [handle, handleRequest, h, Outcome.Finished] at hfin
    | passed q ws w rest hv hq ho hw hws h =>
      have hacc : accepts ⟨jq, .request ⟨.submit, env, msg⟩, post⟩ =
          some (moduleOf msg, Job.ofMessage env msg.toMessage) := by
        simp [accepts, sentIn, handle, handleRequest, h]
      refine .kept ?_ (by simp only [handle, handleRequest, h])
      simp only [fifoOp, hacc]
      refine if_neg ?_
      rintro ⟨rfl, hpass⟩
      simp [passesOn, hw, Queue.size, hws] at hpass
    | queued q ws hv hq hr hw hws h =>
      have hacc : accepts ⟨jq, .request ⟨.submit, env, msg⟩, post⟩ =
          some (moduleOf msg, Job.ofMessage env msg.toMessage) := by
        simp [accepts, sentIn, handle, handleRequest, h]
      by_cases he : moduleOf msg = name
      · refine .enqueued q (Job.ofMessage env msg.toMessage) hr ?_ (he ▸ hq) ?_
        · rw [he] at hw
          simp [fifoOp, hacc, passesOn, he, hw, Queue.size, hws]
        · simp only [handle, handleRequest, h, Map.lookup_insert, if_pos he.symm]
      · refine .kept (by simp [fifoOp, hacc, he]) ?_
        simp only [handle, handleRequest, h, Map.lookup_insert, if_neg (Ne.symm he)]
  | getWork =>
    cases getWork_cases jq msg with
    | noQueue _ _ h | waits _ _ _ _ h | noList _ _ _ h | parked _ _ _ _ _ h =>
      refine .kept ?_ (by simp only [handle, handleRequest, h])
      simp [fifoOp, okIn, sentIn, handle, handleRequest, h]
    | handed q job rest hq ho hj h =>
      by_cases he : moduleOf msg = name
      · refine .dequeued q job rest ?_ (he ▸ hq) hj ?_
        · simp [fifoOp, okIn, sentIn, handle, handleRequest, h, he]
        · simp only [handle, handleRequest, h, Map.lookup_insert, if_pos he.symm]
      · refine .kept (by simp [fifoOp, he]) ?_
        simp only [handle, handleRequest, h, Map.lookup_insert, if_neg (Ne.symm he)]
  | setProgress =>
    rcases setProgress_cases jq msg with h | ⟨_, _, -, h⟩
    · exact .kept rfl (by simp only [handle, handleRequest, h])
    · exact .kept rfl (by simp only [handle, handleRequest, h])
  | setResult =>
    cases setResult_cases jq env msg with
    | refused _ h | stored _ h => exact .kept rfl (by simp only [handle, handleRequest, h])
  | getResult =>
    cases getResult_cases jq msg with
    | collected _ _ _ h | denied _ _ _ h | notReady _ _ _ h | notFound _ _ h =>
      exact .kept rfl (by simp only [handle, handleRequest, h])
  | manage =>
    obtain ⟨n, h⟩ := lookup_manage jq msg
    exact .managed env msg n rfl (h name)
  | status =>
    rcases status_cases jq msg with ⟨_, h⟩ | h
    · exact .kept rfl (by simp only [handle, handleRequest, h])
    · exact .kept rfl (by simp only [handle, handleRequest, h])

/-! ## Jobs in progress -/

omit [Jsoncpp] in
theorem status_state (jq : JobQueue) (msg : IncomingMessage) : (jq.status msg).state = jq := by
  rcases status_cases jq msg with ⟨_, h⟩ | h <;> rw [h]

omit [Jsoncpp] in
theorem initQueue_frame (jq : JobQueue) (name : String) (size : ℕ) :
    (jq.initQueue name size).1.inProgress = jq.inProgress ∧
    (jq.initQueue name size).1.completed = jq.completed ∧
    (jq.initQueue name size).1.completedJobs = jq.completedJobs := by
  by_cases hn : name ∈ jq.queues
  · rw [initQueue_of_mem hn]; exact ⟨rfl, rfl, rfl⟩
  · obtain ⟨n, h⟩ := initQueue_of_notMem hn size
    rw [h]; exact ⟨rfl, rfl, rfl⟩

theorem submit_inProgress (jq : JobQueue) (env : Env) (msg : IncomingMessage) :
    (jq.submit env msg).state.inProgress = jq.inProgress := by
  cases submit_cases jq env msg with
  | refused _ _ _ h | noList _ _ h | closedList _ _ _ h => rw [h]
  | passed _ _ _ _ _ _ _ _ _ h | queued _ _ _ _ _ _ _ h => rw [h]

theorem getResult_inProgress (jq : JobQueue) (msg : IncomingMessage) :
    (jq.getResult msg).state.inProgress = jq.inProgress := by
  cases getResult_cases jq msg with
  | collected _ _ _ h | denied _ _ _ h | notReady _ _ _ h | notFound _ _ h => rw [h]

theorem mem_inProgress_setProgress (jq : JobQueue) (msg : IncomingMessage) (j : String) :
    j ∈ (jq.setProgress msg).state.inProgress ↔ j ∈ jq.inProgress := by
  rcases setProgress_cases jq msg with h | ⟨job, hp, -, h⟩
  · rw [h]
  · rw [h]
    change j ∈ jq.inProgress.insert _ _ ↔ j ∈ jq.inProgress
    rw [AList.mem_insert]
    exact ⟨fun hj => hj.elim (fun he => he ▸ Map.mem_of_lookup hp) id, Or.inr⟩

/-- **A call makes or drops at most one entry of `in_progress_`.** -/
theorem mem_inProgress_handle (jq : JobQueue) (c : Call) (post : JobQueue) (j : String) :
    j ∈ (jq.handle c).state.inProgress ↔
      match trackWrite j ⟨jq, c, post⟩ with
      | .put _ => True
      | .drop => False
      | .keep => j ∈ jq.inProgress := by
  obtain ⟨name, size⟩ | ⟨⟨handler, env, msg⟩⟩ := c
  · exact iff_of_eq (congrArg (j ∈ ·) (initQueue_frame jq name size).1)
  cases handler with
  | submit => exact iff_of_eq (congrArg (j ∈ ·) (submit_inProgress jq env msg))
  | getResult => exact iff_of_eq (congrArg (j ∈ ·) (getResult_inProgress jq msg))
  | manage => exact iff_of_eq (congrArg (j ∈ ·) (manage_frame jq msg).2.1)
  | status => exact iff_of_eq (congrArg (fun s => j ∈ s.inProgress) (status_state jq msg))
  | getWork =>
    change j ∈ (jq.getWork msg).state.inProgress ↔ _
    simp only [trackWrite, handedIn, sentIn, handle, handleRequest]
    cases getWork_cases jq msg with
    | noQueue _ _ h | waits _ _ _ _ h | noList _ _ _ h | parked _ _ _ _ _ h => simp [h]
    | handed q job rest hq ho hj h =>
      simp only [h, AList.mem_insert]
      by_cases he : j = job.id
      · simp [he]
      · simp [he]
  | setProgress =>
    exact mem_inProgress_setProgress jq msg j
  | setResult =>
    change j ∈ (jq.setResult env msg).state.inProgress ↔ _
    simp only [trackWrite, reportedIn, okIn, sentIn, handle, handleRequest]
    cases setResult_cases jq env msg with
    | refused _ h => simp [h]
    | stored hj h =>
      simp only [h, AList.mem_erase]
      by_cases he : j = jobIdOf msg
      · simp [he]
      · simp [he]

/-! ## Results -/

theorem submit_completed (jq : JobQueue) (env : Env) (msg : IncomingMessage) :
    (jq.submit env msg).state.completed = jq.completed := by
  cases submit_cases jq env msg with
  | refused _ _ _ h | noList _ _ h | closedList _ _ _ h => rw [h]
  | passed _ _ _ _ _ _ _ _ _ h | queued _ _ _ _ _ _ _ h => rw [h]

theorem getWork_completed (jq : JobQueue) (msg : IncomingMessage) :
    (jq.getWork msg).state.completed = jq.completed := by
  cases getWork_cases jq msg with
  | noQueue _ _ h | waits _ _ _ _ h | noList _ _ _ h => rw [h]
  | handed _ _ _ _ _ _ h | parked _ _ _ _ _ h => rw [h]

theorem setProgress_completed (jq : JobQueue) (msg : IncomingMessage) :
    (jq.setProgress msg).state.completed = jq.completed := by
  rcases setProgress_cases jq msg with h | ⟨_, _, _, h⟩ <;> rw [h]

/-- **A call writes at most one cell of `completed_`.** -/
theorem lookup_completed_handle (jq : JobQueue) (c : Call) (post : JobQueue) (j : String) :
    (jq.handle c).state.completed.lookup j =
      match resultWrite j ⟨jq, c, post⟩ with
      | .put r => some (resultJob r)
      | .drop => none
      | .keep => jq.completed.lookup j := by
  obtain ⟨name, size⟩ | ⟨⟨handler, env, msg⟩⟩ := c
  · exact congrArg (AList.lookup j) (initQueue_frame jq name size).2.1
  cases handler with
  | submit => exact congrArg (AList.lookup j) (submit_completed jq env msg)
  | getWork => exact congrArg (AList.lookup j) (getWork_completed jq msg)
  | setProgress => exact congrArg (AList.lookup j) (setProgress_completed jq msg)
  | manage => exact congrArg (AList.lookup j) (manage_frame jq msg).2.2.1
  | status => exact congrArg (fun s => AList.lookup j s.completed) (status_state jq msg)
  | setResult =>
    change (jq.setResult env msg).state.completed.lookup j = _
    simp only [resultWrite, okIn, sentIn, handle, handleRequest]
    cases setResult_cases jq env msg with
    | refused hj h => simp [h]
    | stored hj h =>
      simp only [h, Map.lookup_insert]
      by_cases he : j = jobIdOf msg
      · simp [he, resultJob]
      · simp [he, Ne.symm he]
  | getResult =>
    change (jq.getResult msg).state.completed.lookup j = _
    simp only [resultWrite, okIn, sentIn, handle, handleRequest]
    cases getResult_cases jq msg with
    | collected job hc hk h =>
      simp only [h, Map.lookup_erase]
      by_cases he : j = jobIdOf msg
      · simp [he]
      · simp [he, Ne.symm he]
    | denied job hc hk h => simp [h]
    | notReady job hc hp h => simp [h]
    | notFound hc hp h => simp [h]

/-! ## What becomes of one job -/

/-- How often `j` is in `in_progress_`. -/
def tracked (jq : JobQueue) (j : String) : ℕ := if j ∈ jq.inProgress then 1 else 0

/-- How often `j` is in `completed_`. -/
def resulted (jq : JobQueue) (j : String) : ℕ := if j ∈ jq.completed then 1 else 0

omit [Jsoncpp] in
@[simp] theorem tracked_eq_one {jq : JobQueue} {j : String} :
    tracked jq j = 1 ↔ j ∈ jq.inProgress := by
  simp [tracked]

omit [Jsoncpp] in
@[simp] theorem resulted_eq_one {jq : JobQueue} {j : String} :
    resulted jq j = 1 ↔ j ∈ jq.completed := by
  simp [resulted]

/-- What a call can do with the job `j` once it has left its queue. -/
inductive TrackCase (jq : JobQueue) (c : Call) (post : JobQueue) (j : String) : Prop
  | other (hh : (handedIn ⟨jq, c, post⟩).count j = 0)
      (hr : (reportedIn ⟨jq, c, post⟩).count j = 0) (hc : (collectedIn ⟨jq, c, post⟩).count j = 0)
      (ht : tracked (jq.handle c).state j = tracked jq j)
      (hd : resulted (jq.handle c).state j = resulted jq j)
  | handed (hh : (handedIn ⟨jq, c, post⟩).count j = 1)
      (hr : (reportedIn ⟨jq, c, post⟩).count j = 0) (hc : (collectedIn ⟨jq, c, post⟩).count j = 0)
      (ht : tracked (jq.handle c).state j = 1)
      (hd : resulted (jq.handle c).state j = resulted jq j)
  | reported (env : Env) (msg : IncomingMessage) (he : c = .request ⟨.setResult, env, msg⟩)
      (hh : (handedIn ⟨jq, c, post⟩).count j = 0)
      (hr : (reportedIn ⟨jq, c, post⟩).count j = 1) (hc : (collectedIn ⟨jq, c, post⟩).count j = 0)
      (ht : tracked (jq.handle c).state j = 0) (hd : resulted (jq.handle c).state j = 1)
  | collected (hh : (handedIn ⟨jq, c, post⟩).count j = 0)
      (hr : (reportedIn ⟨jq, c, post⟩).count j = 0) (hc : (collectedIn ⟨jq, c, post⟩).count j = 1)
      (ht : tracked (jq.handle c).state j = tracked jq j)
      (hd : resulted jq j = 1) (hd' : resulted (jq.handle c).state j = 0)

theorem tracked_of_keep {jq : JobQueue} {c : Call} (post : JobQueue) {j : String}
    (h : trackWrite j ⟨jq, c, post⟩ = .keep) :
    tracked (jq.handle c).state j = tracked jq j := by
  have hm := mem_inProgress_handle jq c post j
  rw [h] at hm
  exact if_congr hm rfl rfl

omit [Jsoncpp] in
theorem resulted_of_lookup {jq jq' : JobQueue} {j : String}
    (h : jq'.completed.lookup j = jq.completed.lookup j) : resulted jq' j = resulted jq j :=
  if_congr (by rw [← AList.lookup_isSome, ← AList.lookup_isSome, h]) rfl rfl

theorem resulted_of_keep {jq : JobQueue} {c : Call} (post : JobQueue) {j : String}
    (h : resultWrite j ⟨jq, c, post⟩ = .keep) :
    resulted (jq.handle c).state j = resulted jq j := by
  have hl := lookup_completed_handle jq c post j
  rw [h] at hl
  exact resulted_of_lookup hl

/-- **What a call does with one job.** -/
theorem track_cases (jq : JobQueue) (c : Call) (post : JobQueue) (j : String) :
    TrackCase jq c post j := by
  obtain ⟨name, size⟩ | ⟨⟨handler, env, msg⟩⟩ := c
  · exact .other rfl rfl rfl (tracked_of_keep post rfl) (resulted_of_keep post rfl)
  cases handler with
  | submit | setProgress | manage | status =>
    exact .other rfl rfl rfl (tracked_of_keep post rfl) (resulted_of_keep post rfl)
  | getWork =>
    have hd : resulted (jq.handle (.request ⟨.getWork, env, msg⟩)).state j = resulted jq j :=
      resulted_of_keep post rfl
    have hout : handedIn ⟨jq, .request ⟨.getWork, env, msg⟩, post⟩ = [] ∨
        ∃ id, handedIn ⟨jq, .request ⟨.getWork, env, msg⟩, post⟩ = [id] := by
      cases getWork_cases jq msg with
      | noQueue _ _ h | waits _ _ _ _ h | noList _ _ _ h | parked _ _ _ _ _ h =>
        exact Or.inl (by simp [handedIn, sentIn, handle, handleRequest, h])
      | handed q job rest hq ho hj h =>
        exact Or.inr ⟨job.id, by simp [handedIn, sentIn, handle, handleRequest, h]⟩
    have hm := mem_inProgress_handle jq (.request ⟨.getWork, env, msg⟩) post j
    by_cases hj : j ∈ handedIn ⟨jq, .request ⟨.getWork, env, msg⟩, post⟩
    · refine .handed ?_ rfl rfl (if_pos ?_) hd
      · rcases hout with h | ⟨id, h⟩
        · rw [h] at hj; cases hj
        · rw [h] at hj ⊢
          rw [List.mem_singleton.mp hj, List.count_singleton_self]
      · rw [hm]
        simp only [trackWrite, if_pos hj]
    · exact .other (List.count_eq_zero.mpr hj) rfl rfl
        (tracked_of_keep post (by simp only [trackWrite, if_neg hj])) hd
  | setResult =>
    cases setResult_cases jq env msg with
    | refused _ h =>
      have hout : reportedIn ⟨jq, .request ⟨.setResult, env, msg⟩, post⟩ = [] := by
        simp [reportedIn, okIn, sentIn, handle, handleRequest, h]
      refine .other rfl (by rw [hout]; rfl) rfl (tracked_of_keep post ?_) (resulted_of_keep post ?_)
      · simp [trackWrite, hout]
      · simp [resultWrite, okIn, sentIn, handle, handleRequest, h]
    | stored hj h =>
      have hok : okIn ⟨jq, .request ⟨.setResult, env, msg⟩, post⟩ msg = true := by
        simp [okIn, sentIn, handle, handleRequest, h]
      have hout : reportedIn ⟨jq, .request ⟨.setResult, env, msg⟩, post⟩ = [jobIdOf msg] := by
        simp only [reportedIn, if_pos hok]
      by_cases he : jobIdOf msg = j
      · subst he
        refine .reported env msg rfl rfl (by rw [hout, List.count_singleton_self]) rfl ?_ ?_
        · refine if_neg ?_
          simp [handle, handleRequest, h, AList.mem_erase]
        · refine if_pos ?_
          simp [handle, handleRequest, h, AList.mem_insert]
      · refine .other rfl (List.count_eq_zero.mpr ?_) rfl (tracked_of_keep post ?_)
          (resulted_of_keep post ?_)
        · rw [hout]
          exact fun hm => he (List.mem_singleton.mp hm).symm
        · simp [trackWrite, hout, Ne.symm he]
        · simp [resultWrite, he]
  | getResult =>
    have ht : tracked (jq.handle (.request ⟨.getResult, env, msg⟩)).state j = tracked jq j :=
      tracked_of_keep post rfl
    cases getResult_cases jq msg with
    | collected job hc hk h =>
      have hok : okIn ⟨jq, .request ⟨.getResult, env, msg⟩, post⟩ msg = true := by
        simp [okIn, sentIn, handle, handleRequest, h]
      have hout : collectedIn ⟨jq, .request ⟨.getResult, env, msg⟩, post⟩ = [jobIdOf msg] := by
        simp only [collectedIn, if_pos hok]
      by_cases he : jobIdOf msg = j
      · subst he
        refine .collected rfl rfl (by rw [hout, List.count_singleton_self]) ht
          (if_pos (Map.mem_of_lookup hc)) (if_neg ?_)
        simp [handle, handleRequest, h, AList.mem_erase]
      · refine .other rfl rfl (List.count_eq_zero.mpr ?_) ht (resulted_of_keep post ?_)
        · rw [hout]
          exact fun hm => he (List.mem_singleton.mp hm).symm
        · simp [resultWrite, he]
    | denied _ _ _ h | notReady _ _ _ h | notFound _ _ h =>
      refine .other rfl rfl ?_ ht (resulted_of_keep post ?_)
      · simp [collectedIn, okIn, sentIn, handle, handleRequest, h]
      · simp [resultWrite, okIn, sentIn, handle, handleRequest, h]

end NixSrv.JobQueue
