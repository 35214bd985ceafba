import NixSrv.JobQueue.Workers

/-!
# The direct hand-over

When a worker is parked at an open queue, `submit` hands it the new job by itself instead of
queueing the job and serving the worker.

* `queuedPath`: the job is pushed and the worker served by `get_work`;
* `HandsOver`, **`queuedPath_handsOver`**: what that comes to;
* **`submit_passes`**: what the direct hand-over comes to;
* **`submit_not_handsOver`**: the two never agree.
-/

namespace NixSrv.JobQueue

open Json Transition

section Paths

variable [Jsoncpp]

/-- The state in which `submit` hands a job over: `q` is the open queue the request names, `w` the
request parked first under it. -/
structure HandOver (jq : JobQueue) (msg : IncomingMessage) (q : Queue Job)
    (ws : Queue IncomingMessage) (w : IncomingMessage) : Prop where
  valid : ValidSubmit msg
  queue : jq.queues.lookup (moduleOf msg) = some q
  enabled : q.isClosed = false
  list : jq.workersAwaiting.lookup (moduleOf msg) = some ws
  head : ws.q.head? = some w

/-- The job is pushed on the queue, and the worker at the head of the list is served from it. -/
def queuedPath (jq : JobQueue) (env : Env) (msg : IncomingMessage) (q : Queue Job)
    (ws : Queue IncomingMessage) (w : IncomingMessage) : Outcome :=
  let job := Job.ofMessage env msg.toMessage
  let (queue, success) := q.push job
  let answer := if success then accepted msg job else msg.fail .tempLimitReached "Queue full"
  let served := getWork { jq with
    queues := jq.queues.insert (moduleOf msg) queue
    workersAwaiting := jq.workersAwaiting.insert (moduleOf msg) ws.dropFront } w
  { served with sent := answer :: served.sent }

/-- The job the worker is due: the oldest one. -/
def dueJob (q : Queue Job) (job : Job) : Job := q.q.headD job

/-- The submitter is told the id of its job, the worker is sent the job it is due, and that job is
the one now in progress and gone from the queue. -/
structure HandsOver (env : Env) (msg : IncomingMessage) (q : Queue Job) (w : IncomingMessage)
    (o : Outcome) : Prop where
  ending : o.ending = .returned
  submitter : o.sent.filter (fun a => a.handle = msg.handle) =
    [accepted msg (Job.ofMessage env msg.toMessage)]
  worker : o.sent.filter (fun a => a.handle = w.handle) =
    [w.reply (dueJob q (Job.ofMessage env msg.toMessage)).toDocument]
  tracked : o.state.inProgress.lookup (dueJob q (Job.ofMessage env msg.toMessage)).id =
    some (dueJob q (Job.ofMessage env msg.toMessage))
  pending : (o.state.queues.lookup (moduleOf msg)).map Queue.q =
    some (q.q ++ [Job.ofMessage env msg.toMessage]).tail

variable {jq : JobQueue} {env : Env} {msg w : IncomingMessage} {q : Queue Job}
  {ws : Queue IncomingMessage}

/-- In a run the worker at the head has asked for work of this queue. -/
theorem HandOver.moduleOf_eq {tr : List Move} (hr : Run system tr jq)
    (hh : HandOver jq msg q ws w) : moduleOf w = moduleOf msg :=
  (parked_origin hr _ ws hh.list w (List.mem_of_mem_head? hh.head)).1.symm

/-- `get_work` on an open queue with jobs. -/
theorem getWork_of_cons {s : JobQueue} {p : Queue Job} {job : Job} {rest : List Job}
    (hq : s.queues.lookup (moduleOf w) = some p) (ho : p.isClosed = false)
    (hj : p.q = job :: rest) : s.getWork w = .returned { s with
      queues := s.queues.insert (moduleOf w) p.dropFront
      inProgress := s.inProgress.insert job.id job } [w.reply job.toDocument] := by
  simp only [getWork, persistent, Bool.false_eq_true, if_false, hq, Queue.pop_cons ho hj]

omit [Jsoncpp] in
theorem append_eq_dueJob (q : Queue Job) (job : Job) :
    q.q ++ [job] = dueJob q job :: (q.q ++ [job]).tail := by
  unfold dueJob
  cases q.q with
  | nil => rfl
  | cons x xs => rfl

/-- The queued path, when the queue has room. -/
theorem queuedPath_of_hasRoom (hm : moduleOf w = moduleOf msg) (hr : q.HasRoom) :
    jq.queuedPath env msg q ws w = .returned
      { jq with
        queues := (jq.queues.insert (moduleOf msg)
          (q.enqueue (Job.ofMessage env msg.toMessage) hr)).insert (moduleOf msg)
          (q.enqueue (Job.ofMessage env msg.toMessage) hr).dropFront
        workersAwaiting := jq.workersAwaiting.insert (moduleOf msg) ws.dropFront
        inProgress := jq.inProgress.insert (dueJob q (Job.ofMessage env msg.toMessage)).id
          (dueJob q (Job.ofMessage env msg.toMessage)) }
      [accepted msg (Job.ofMessage env msg.toMessage),
        w.reply (dueJob q (Job.ofMessage env msg.toMessage)).toDocument] := by
  have hserve := getWork_of_cons (w := w) (s := { jq with
      queues := jq.queues.insert (moduleOf msg) (q.enqueue (Job.ofMessage env msg.toMessage) hr)
      workersAwaiting := jq.workersAwaiting.insert (moduleOf msg) ws.dropFront })
    (p := q.enqueue (Job.ofMessage env msg.toMessage) hr) (by rw [hm, AList.lookup_insert]) hr.1
    (append_eq_dueJob q _)
  simp only [queuedPath, Queue.push_of_hasRoom hr, if_true, hserve, hm]

/-- **Queueing the job and serving the worker hands the oldest job over.** -/
theorem queuedPath_handsOver (hh : HandOver jq msg q ws w) (hm : moduleOf w = moduleOf msg)
    (hne : w.handle ≠ msg.handle) (hroom : q.q.length < q.queueSize) :
    HandsOver env msg q w (jq.queuedPath env msg q ws w) := by
  have hr : q.HasRoom := ⟨hh.enabled, hroom⟩
  rw [queuedPath_of_hasRoom hm hr]
  refine ⟨rfl, ?_, ?_, AList.lookup_insert _, ?_⟩
  · rw [List.filter_cons_of_pos (by simp), List.filter_cons_of_neg (by simp [hne]),
      List.filter_nil]
  · rw [List.filter_cons_of_neg (by simp [hne.symm]), List.filter_cons_of_pos (by simp),
      List.filter_nil]
  · rw [AList.lookup_insert, Option.map_some, Queue.q_dropFront, Queue.q_enqueue]

/-- **What the direct hand-over comes to**: the worker is sent the new job and leaves the list, and
nothing else changes. -/
theorem submit_passes (hh : HandOver jq msg q ws w) (ho : ws.isClosed = false) (env : Env) :
    jq.submit env msg = .returned
      { jq with workersAwaiting := jq.workersAwaiting.insert (moduleOf msg) ws.dropFront }
      [w.reply (Job.ofMessage env msg.toMessage).toDocument] := by
  obtain ⟨hv, hq, hopen, hw, hhead⟩ := hh
  obtain ⟨h1, h2, h3⟩ := hv
  obtain ⟨rest, hws⟩ := List.head?_eq_some_iff.mp hhead
  have hsize : ws.size ≠ 0 := by rw [Queue.size, hws]; simp
  simp [submit, persistent, hq, hopen, h1, h2, h3, hw, hsize, Queue.pop_cons ho hws]

/-- Two outcomes that a client cannot tell apart, now or later: the same answers are sent, in
whatever order, and the containers find the same. -/
structure Outcome.Agree (o o' : Outcome) : Prop where
  ending : o.ending = o'.ending
  sent : o.sent.Perm o'.sent
  completedJobs : o.state.completedJobs = o'.state.completedJobs
  queues : ∀ name, o.state.queues.lookup name = o'.state.queues.lookup name
  workersAwaiting : ∀ name, o.state.workersAwaiting.lookup name =
    o'.state.workersAwaiting.lookup name
  inProgress : ∀ id, o.state.inProgress.lookup id = o'.state.inProgress.lookup id
  completed : ∀ id, o.state.completed.lookup id = o'.state.completed.lookup id

/-- The queued path answers the submitter and the worker. -/
theorem length_sent_queuedPath (hh : HandOver jq msg q ws w) (hm : moduleOf w = moduleOf msg) :
    (jq.queuedPath env msg q ws w).sent.length = 2 := by
  by_cases hr : q.HasRoom
  · rw [queuedPath_of_hasRoom hm hr]
    rfl
  · have hfull : ¬ q.q.length < q.queueSize := fun h => hr ⟨hh.enabled, h⟩
    obtain ⟨job, rest, hj⟩ := List.exists_cons_of_ne_nil (l := q.q) fun he => by
      have := q.size_pos
      rw [he, List.length_nil] at hfull
      omega
    have hserve := getWork_of_cons (w := w) (s := { jq with
        queues := jq.queues.insert (moduleOf msg) q
        workersAwaiting := jq.workersAwaiting.insert (moduleOf msg) ws.dropFront })
      (by rw [hm, AList.lookup_insert]) hh.enabled hj
    simp only [queuedPath, Queue.push_of_not_hasRoom hr, hserve]
    rfl

/-- **The direct hand-over never agrees with the queued path.** The submitter gets no answer. -/
theorem submit_not_handsOver {tr : List Move} (hr : Run system tr jq)
    (hh : HandOver jq msg q ws w) (env : Env) :
    ¬ (jq.submit env msg).Agree (jq.queuedPath env msg q ws w) ∧
    ¬ HandsOver env msg q w (jq.submit env msg) := by
  have hpass := submit_passes hh ((wellFormed_of_run hr).awaiting_open _ ws hh.list) env
  have hm := hh.moduleOf_eq hr
  constructor
  · intro ha
    have hlen := ha.sent.length_eq
    rw [hpass, length_sent_queuedPath hh hm] at hlen
    cases hlen
  · intro ho
    have hsub := ho.submitter
    rw [hpass] at hsub
    have hmem : accepted msg (Job.ofMessage env msg.toMessage) ∈
        [w.reply (Job.ofMessage env msg.toMessage).toDocument] :=
      List.mem_of_mem_filter (hsub ▸ List.mem_singleton.mpr rfl)
    exact accepted_ne_reply _ (List.mem_singleton.mp hmem)

end Paths

section Sample

attribute [local instance] Jsoncpp.integral

/-- A worker that asked for work of a closed queue. -/
def parkedRequest : IncomingMessage := ⟨⟨.object [("module", .string "q")]⟩, 2, rfl⟩

/-- The queue is closed, the worker comes, and the queue is opened again. -/
def parkedWorker : List Call := [
  .initQueue "q" 2,
  callOf .manage 1 [("queue", .string "q"), ("enable", .bool false)],
  .request ⟨.getWork, ⟨⟨"uuid", uuid_ne⟩, 1⟩, parkedRequest⟩,
  callOf .manage 3 [("queue", .string "q"), ("enable", .bool true)]]

def submission : IncomingMessage :=
  ⟨⟨.object [("module", .string "q"), ("action", .string "a"), ("parameters", .null)]⟩, 4, rfl⟩

def waitingList : Queue IncomingMessage := ((Queue.new 2).push parkedRequest).1

theorem handOver_parkedWorker :
    HandOver (stateAfter parkedWorker) submission (.new 2) waitingList parkedRequest where
  valid := by decide
  queue := by rfl
  enabled := rfl
  list := by rfl
  head := by rfl

theorem submit_not_handsOver_parkedWorker :
    ¬ ((stateAfter parkedWorker).submit ⟨⟨"uuid", by decide⟩, 1⟩ submission).Agree
      ((stateAfter parkedWorker).queuedPath ⟨⟨"uuid", by decide⟩, 1⟩ submission (.new 2)
        waitingList parkedRequest) ∧
    ¬ HandsOver ⟨⟨"uuid", by decide⟩, 1⟩ submission (.new 2) parkedRequest
      ((stateAfter parkedWorker).submit ⟨⟨"uuid", by decide⟩, 1⟩ submission) :=
  submit_not_handsOver (run_historyOf (by decide)) handOver_parkedWorker _

/-- The submitter of a job that goes to a parked worker gets no answer. -/
theorem parkedWorker_not_handsOver :
    ∃ tr jq env q ws, Run system tr jq ∧ HandOver jq submission q ws parkedRequest ∧
      ¬ (jq.submit env submission).Agree (jq.queuedPath env submission q ws parkedRequest) ∧
      ¬ HandsOver env submission q parkedRequest (jq.submit env submission) := by
  refine ⟨historyOf parkedWorker, stateAfter parkedWorker, ⟨⟨"uuid", by decide⟩, 1⟩, _, _,
    run_historyOf (by decide), handOver_parkedWorker, fun h => ?_, fun h => ?_⟩
  · exact absurd h.sent.length_eq (by decide)
  · exact absurd (congrArg List.length h.submitter) (by decide)

end Sample

end NixSrv.JobQueue
