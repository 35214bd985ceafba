import NixSrv.JobQueue.Threads

/-!
# A handler alone

* `Alone`: what a thread comes to that no other disturbs;
* `alone_submit`, `alone_getWork`, `alone_manage`: the handlers of more than one step;
* **`alone_handleRequest`**: a handler that runs undisturbed does what `handleRequest` says.
-/

namespace NixSrv.JobQueue

open Json

variable [Jsoncpp]

/-- A thread that no other disturbs comes to an outcome. -/
inductive Alone : JobQueue → Thread → Outcome → Prop
  | idle (jq : JobQueue) : Alone jq .idle ⟨jq, [], .returned⟩
  | thrown (jq : JobQueue) : Alone jq .thrown ⟨jq, [], .thrown⟩
  | undefined (jq : JobQueue) : Alone jq .undefined ⟨jq, [], .nullDeref⟩
  | waiting (jq : JobQueue) (pc : Pc) : Alone jq (.waiting pc) ⟨jq, [], .blocked⟩
  | step {jq : JobQueue} {pc : Pc} {r : Stepped} {o : Outcome} (h : pc.step jq = r)
      (ho : Alone r.state r.thread o) :
      Alone jq (.running pc) ⟨o.state, r.sent ++ o.sent, o.ending⟩

theorem Alone.silent {jq jq' : JobQueue} {pc : Pc} {th : Thread} {o : Outcome}
    (h : pc.step jq = ⟨jq', th, []⟩) (ho : Alone jq' th o) : Alone jq (.running pc) o :=
  .step h ho

theorem Alone.last {jq jq' : JobQueue} {pc : Pc} {sent : List Sent}
    (h : pc.step jq = ⟨jq', .idle, sent⟩) : Alone jq (.running pc) ⟨jq', sent, .returned⟩ := by
  have ho := Alone.step h (.idle jq')
  rwa [List.append_nil] at ho

theorem Alone.answer {jq : JobQueue} (a : Sent) :
    Alone jq (.running (.answer a)) ⟨jq, [a], .returned⟩ :=
  .last rfl

/-- A step after which only an answer is left to send. -/
theorem Alone.answers {jq jq' : JobQueue} {pc : Pc} {a : Sent}
    (h : pc.step jq = ⟨jq', .running (.answer a), []⟩) :
    Alone jq (.running pc) ⟨jq', [a], .returned⟩ :=
  .silent h (.answer a)

/-- `submit` with a worker parked takes the first one, unless the list is closed. -/
theorem alone_popWorker {jq : JobQueue} {msg : IncomingMessage} {awaiting : Queue IncomingMessage}
    (hw : jq.workersAwaiting.lookup (moduleOf msg) = some awaiting) (job : Job) :
    Alone jq (.running (.popWorker job msg)) (match awaiting.pop with
      | .waits => ⟨jq, [], .blocked⟩
      | .closed => ⟨jq, [], .nullDeref⟩
      | .item worker rest => .returned
          { jq with workersAwaiting := jq.workersAwaiting.insert (moduleOf msg) rest }
          [worker.reply job.toDocument]) := by
  cases hp : awaiting.pop with
  | item worker rest =>
    have hs : Pc.step jq (.popWorker job msg) =
        ⟨{ jq with workersAwaiting := jq.workersAwaiting.insert (moduleOf msg) rest },
          .running (.replyWorker job worker), []⟩ := by
      simp only [Pc.step, hw, hp]
    exact .silent hs (.last rfl)
  | closed =>
    have hs : Pc.step jq (.popWorker job msg) = ⟨jq, .undefined, []⟩ := by
      simp only [Pc.step, hw, hp]
    exact .silent hs (.undefined jq)
  | waits =>
    have hs : Pc.step jq (.popWorker job msg) = ⟨jq, .waiting (.popWorker job msg), []⟩ := by
      simp only [Pc.step, hw, hp]
    exact .silent hs (.waiting jq _)

/-- `submit` with no worker parked queues the job, unless the queue is full. -/
theorem alone_pushJob {jq : JobQueue} {msg : IncomingMessage} {queue : Queue Job}
    (hq : jq.queues.lookup (moduleOf msg) = some queue) (job : Job) :
    Alone jq (.running (.pushJob job msg)) (if (queue.push job).2 = false
      then .returned jq [msg.fail .tempLimitReached "Queue full"]
      else .returned { jq with queues := jq.queues.insert (moduleOf msg) (queue.push job).1 }
        [accepted msg job]) := by
  by_cases hp : (queue.push job).2 = false
  · rw [if_pos hp]
    exact .answers (by simp [Pc.step, hq, hp])
  · rw [if_neg hp]
    exact .answers (by simp [Pc.step, hq, hp])

/-- `submit` once the request has passed the checks. -/
theorem alone_countWorkers {jq : JobQueue} {msg : IncomingMessage} {queue : Queue Job}
    (hq : jq.queues.lookup (moduleOf msg) = some queue) (hc : queue.isClosed = false)
    (hv : ValidSubmit msg) (env : Env) :
    Alone jq (.running (.countWorkers (.ofMessage env msg.toMessage) msg))
      (jq.submit env msg) := by
  obtain ⟨h1, h2, h3⟩ := hv
  generalize hjob : Job.ofMessage env msg.toMessage = job
  cases hw : jq.workersAwaiting.lookup (moduleOf msg) with
  | none =>
    have ho : jq.submit env msg = ⟨jq, [], .nullDeref⟩ := by
      simp [submit, persistent, hq, hc, h1, h2, h3, hw]
    have hs : Pc.step jq (.countWorkers job msg) = ⟨jq, .undefined, []⟩ := by
      simp only [Pc.step, hw]
    rw [ho]
    exact .silent hs (.undefined jq)
  | some awaiting =>
  by_cases hz : awaiting.size = 0
  · have hs : Pc.step jq (.countWorkers job msg) = ⟨jq, .running (.pushJob job msg), []⟩ := by
      simp [Pc.step, hw, hz]
    have ho : jq.submit env msg = if (queue.push job).2 = false
        then .returned jq [msg.fail .tempLimitReached "Queue full"]
        else .returned { jq with queues := jq.queues.insert (moduleOf msg) (queue.push job).1 }
          [accepted msg job] := by
      simp [submit, persistent, hq, hc, h1, h2, h3, hw, hz, hjob]
    rw [ho]
    exact .silent hs (alone_pushJob hq job)
  · have hs : Pc.step jq (.countWorkers job msg) = ⟨jq, .running (.popWorker job msg), []⟩ := by
      simp [Pc.step, hw, hz]
    have ho : jq.submit env msg = match awaiting.pop with
        | .waits => ⟨jq, [], .blocked⟩
        | .closed => ⟨jq, [], .nullDeref⟩
        | .item worker rest => .returned
            { jq with workersAwaiting := jq.workersAwaiting.insert (moduleOf msg) rest }
            [worker.reply job.toDocument] := by
      cases hp : awaiting.pop with
      | item | closed | waits => simp [submit, persistent, hq, hc, h1, h2, h3, hw, hz, hp, hjob]
    rw [ho]
    exact .silent hs (alone_popWorker hw job)

theorem alone_submit (jq : JobQueue) (env : Env) (msg : IncomingMessage) :
    Alone jq (.running (.submit env msg)) (jq.submit env msg) := by
  cases hq : jq.queues.lookup (moduleOf msg) with
  | none =>
    have ho : jq.submit env msg =
        .returned jq [msg.fail .fail ("No queue for module: " ++ moduleOf msg)] := by
      simp [submit, persistent, hq]
    rw [ho]
    exact .answers (by simp only [Pc.step, hq])
  | some queue =>
  have hs : Pc.step jq (.submit env msg) = ⟨jq, .running (.checkOpen env msg), []⟩ := by
    simp only [Pc.step, hq]
  refine .silent hs ?_
  cases hc : queue.isClosed with
  | true =>
    have ho : jq.submit env msg = .returned jq [msg.fail .fail "Queue closed"] := by
      simp [submit, persistent, hq, hc]
    rw [ho]
    exact .answers (by simp only [Pc.step, hq, hc, if_true])
  | false =>
  by_cases hv : ValidSubmit msg
  · have hs : Pc.step jq (.checkOpen env msg) =
        ⟨jq, .running (.countWorkers (.ofMessage env msg.toMessage) msg), []⟩ := by
      simp [Pc.step, hq, hc, hv]
    exact .silent hs (alone_countWorkers hq hc hv env)
  · have ho : jq.submit env msg = .returned jq [msg.fail .dataInvalidContent] := by
      simp only [submit, persistent, hq, hc, Bool.false_eq_true, if_false]
      exact if_pos hv
    rw [ho]
    exact .answers (by simp [Pc.step, hq, hc, hv])

theorem alone_getWork (jq : JobQueue) (msg : IncomingMessage) :
    Alone jq (.running (.getWork msg)) (jq.getWork msg) := by
  cases hq : jq.queues.lookup (moduleOf msg) with
  | none =>
    have ho : jq.getWork msg =
        .returned jq [msg.fail .fail ("No queue for module: " ++ moduleOf msg)] := by
      simp [getWork, persistent, hq]
    rw [ho]
    exact .answers (by simp only [Pc.step, hq])
  | some queue =>
  have hs : Pc.step jq (.getWork msg) = ⟨jq, .running (.popJob msg), []⟩ := by
    simp only [Pc.step, hq]
  refine .silent hs ?_
  cases hp : queue.pop with
  | item job rest =>
    have ho : jq.getWork msg = .returned { jq with
        queues := jq.queues.insert (moduleOf msg) rest
        inProgress := jq.inProgress.insert job.id job } ([msg.reply job.toDocument] ++ []) := by
      simp [getWork, persistent, hq, hp]
    have hs : Pc.step jq (.popJob msg) =
        ⟨{ jq with queues := jq.queues.insert (moduleOf msg) rest },
          .running (.replyWork job msg), []⟩ := by
      simp only [Pc.step, hq, hp]
    have hr : Pc.step { jq with queues := jq.queues.insert (moduleOf msg) rest }
        (.replyWork job msg) = ⟨{ jq with queues := jq.queues.insert (moduleOf msg) rest },
          .running (.register job), [msg.reply job.toDocument]⟩ := rfl
    rw [ho]
    exact .silent hs (.step hr (.last rfl))
  | closed =>
    have hs : Pc.step jq (.popJob msg) = ⟨jq, .running (.park msg), []⟩ := by
      simp only [Pc.step, hq, hp]
    refine .silent hs ?_
    cases hw : jq.workersAwaiting.lookup (moduleOf msg) with
    | none =>
      have ho : jq.getWork msg = ⟨jq, [], .nullDeref⟩ := by
        simp [getWork, persistent, hq, hp, hw]
      have hs : Pc.step jq (.park msg) = ⟨jq, .undefined, []⟩ := by
        simp only [Pc.step, hw]
      rw [ho]
      exact .silent hs (.undefined jq)
    | some awaiting =>
      have ho : jq.getWork msg = .returned { jq with
          workersAwaiting :=
            jq.workersAwaiting.insert (moduleOf msg) (awaiting.push msg).1 } [] := by
        simp [getWork, persistent, hq, hp, hw]
      rw [ho]
      exact .last (by simp only [Pc.step, hw])
  | waits =>
    have ho : jq.getWork msg = ⟨jq, [], .blocked⟩ := by
      simp [getWork, persistent, hq, hp]
    have hs : Pc.step jq (.popJob msg) = ⟨jq, .waiting (.popJob msg), []⟩ := by
      simp only [Pc.step, hq, hp]
    rw [ho]
    exact .silent hs (.waiting jq _)

/-- `remove_all` closes and clears the queues before it erases them. -/
theorem alone_removeAll (jq : JobQueue) (msg : IncomingMessage) {o : Outcome}
    (h : Alone (if msg.getBool "remove_all" false then jq.removeAll else jq)
      (.running (.switchAll msg)) o) : Alone jq (.running (.removeAll msg)) o := by
  cases hr : msg.getBool "remove_all" false with
  | true =>
    rw [hr] at h
    have hs : Pc.step jq (.removeAll msg) = ⟨jq.switchAll false, .running (.emptyAll msg), []⟩ := by
      simp only [Pc.step, hr, if_true]
    exact .silent hs (.silent rfl (.silent rfl h))
  | false =>
    rw [hr] at h
    have hs : Pc.step jq (.removeAll msg) = ⟨jq, .running (.switchAll msg), []⟩ := by
      simp only [Pc.step, hr, Bool.false_eq_true, if_false]
    exact .silent hs h

/-- `manage` creates a queue and then its list. -/
theorem alone_createQueue {jq : JobQueue} (msg : IncomingMessage) (hq : queueOf msg ∉ jq.queues) :
    Alone jq (.running (.createQueue msg)) (.returned
      (jq.initQueue (queueOf msg) (toSizeT (msg.getInt "create.size" 0))).1 [msg.replyEmpty]) := by
  have hi : (jq.initQueue (queueOf msg) (toSizeT (msg.getInt "create.size" 0))).1 = { jq with
      queues := Map.emplace (queueOf msg) (.new (sizeOf msg)) jq.queues
      workersAwaiting :=
        Map.emplace (queueOf msg) (.new (sizeOf msg)) jq.workersAwaiting } := by
    simp only [initQueue, if_neg hq, sizeOf]
  rw [hi]
  exact .silent rfl (.silent rfl (.answer _))

/-- A step of `manage` on a queue that is there, and what the handler does after it. -/
theorem Alone.onQueue {jq : JobQueue} {pc next : Pc} {msg : IncomingMessage} {queue : Queue Job}
    {needed : Bool} {f : Queue Job → Queue Job} {o : Outcome}
    (hs : pc.step jq = JobQueue.onQueue jq msg needed f next)
    (hq : jq.queues.lookup (queueOf msg) = some queue)
    (ho : Alone { jq with queues := jq.queues.insert (queueOf msg) (f queue) } (.running next) o) :
    Alone jq (.running pc) o := by
  refine .silent (hs.trans ?_) ho
  simp only [JobQueue.onQueue, hq]

/-- `manage` closes and clears a queue before it erases it. -/
theorem alone_closeQueue {jq : JobQueue} {msg : IncomingMessage} {queue : Queue Job}
    (hq : jq.queues.lookup (queueOf msg) = some queue) :
    Alone jq (.running (.closeQueue msg))
      (.returned { jq with queues := jq.queues.erase (queueOf msg) } [msg.replyEmpty]) := by
  refine .onQueue rfl hq (.onQueue rfl (AList.lookup_insert _) (.silent ?_ (.answer _)))
  simp only [Pc.step, AList.lookup_insert, Map.erase_insert]

/-- `manage` on a queue that is there. -/
theorem alone_manageQueue {jq : JobQueue} {msg : IncomingMessage} {queue : Queue Job}
    (hq : jq.queues.lookup (queueOf msg) = some queue) :
    Alone jq (.running (.manageQueue msg))
      (.returned (jq.manageQueue msg (queueOf msg) queue) [msg.replyEmpty]) := by
  refine .onQueue rfl hq (.onQueue rfl (AList.lookup_insert _) ?_)
  rw [AList.insert_insert]
  cases hr : removes msg with
  | true =>
    have hm : jq.manageQueue msg (queueOf msg) queue =
        { jq with queues := jq.queues.erase (queueOf msg) } := if_pos hr
    rw [hm, if_pos rfl, ← Map.erase_insert]
    exact alone_closeQueue (AList.lookup_insert _)
  | false =>
    have hm : jq.manageQueue msg (queueOf msg) queue = { jq with queues := _ } :=
      if_neg (ne_true_of_eq_false hr)
    rw [hm, if_neg Bool.false_ne_true]
    exact .answer _

theorem alone_manage (jq : JobQueue) (msg : IncomingMessage) :
    Alone jq (.running (.clearAll msg)) (jq.manage msg) := by
  refine .silent rfl (alone_removeAll _ _ (.silent rfl ?_))
  change Alone (jq.manageAll msg) (.running (.findQueue msg)) (jq.manage msg)
  generalize hj : jq.manageAll msg = jq₁
  by_cases hc : Creates msg
  · have hc' : queueOf msg ≠ "" ∧ (!msg.isNull "create") = true := ⟨hc.1, by simp [hc.2]⟩
    rw [manage, if_pos hc', hj]
    by_cases hq : queueOf msg ∈ jq₁.queues
    · rw [initQueue_of_mem hq]
      exact .answers (by simp only [Pc.step, if_pos hc, if_pos hq])
    · have hs : Pc.step jq₁ (.findQueue msg) = ⟨jq₁, .running (.createQueue msg), []⟩ := by
        simp only [Pc.step, if_pos hc, if_neg hq]
      have ha := alone_createQueue msg hq
      obtain ⟨n, hi⟩ := initQueue_of_notMem hq (toSizeT (msg.getInt "create.size" 0))
      rw [hi] at ha ⊢
      exact .silent hs ha
  · have hc' : ¬ (queueOf msg ≠ "" ∧ (!msg.isNull "create") = true) := fun h =>
      hc ⟨h.1, by simpa using h.2⟩
    rw [manage, if_neg hc', hj]
    cases hq : jq₁.queues.lookup (queueOf msg) with
    | some queue =>
      have hs : Pc.step jq₁ (.findQueue msg) = ⟨jq₁, .running (.manageQueue msg), []⟩ := by
        simp only [Pc.step, if_neg hc, hq]
      exact .silent hs (alone_manageQueue hq)
    | none =>
      by_cases ha : anyAllAction msg = true
      · rw [if_pos ha]
        exact .last (by simp only [Pc.step, if_neg hc, hq, if_pos ha])
      · rw [if_neg ha]
        exact .answers (by simp only [Pc.step, if_neg hc, hq, if_neg ha])

/-- **A request handled without interference comes to the outcome of its handler.** -/
theorem alone_handleRequest (jq : JobQueue) (r : Request) :
    Alone jq (.running (.start r)) (jq.handleRequest r) := by
  obtain ⟨handler, env, msg⟩ := r
  cases handler with
  | submit => exact alone_submit jq env msg
  | getWork => exact alone_getWork jq msg
  | setProgress =>
    change Alone jq (.running (.setProgress msg)) (jq.setProgress msg)
    rcases setProgress_cases jq msg with h | ⟨_, _, -, h⟩
    · rw [h]; exact .last (by simp only [Pc.step, h])
    · rw [h]; exact .last (by simp only [Pc.step, h])
  | setResult =>
    change Alone jq (.running (.setResult env msg)) (jq.setResult env msg)
    cases setResult_cases jq env msg with
    | refused hj h =>
      rw [h]
      exact .answers (if_pos hj)
    | stored hj h =>
      have hs : Pc.step jq (.setResult env msg) =
          ⟨(jq.setResult env msg).state, .running (.acknowledge msg), []⟩ := if_neg hj
      rw [h] at hs ⊢
      exact .silent hs (.last rfl)
  | getResult =>
    change Alone jq (.running (.getResult msg)) (jq.getResult msg)
    cases getResult_cases jq msg with
    | collected _ _ _ h | denied _ _ _ h | notReady _ _ _ h | notFound _ _ h =>
      rw [h]
      exact .last (by simp only [Pc.step, h])
  | manage => exact alone_manage jq msg
  | status =>
    change Alone jq (.running (.status msg)) (jq.status msg)
    unfold status
    cases hd : jq.statusDocument with
    | ok out =>
      exact .answers (by simp only [Pc.step, hd])
    | error e =>
      have hs : Pc.step jq (.status msg) = ⟨jq, .thrown, []⟩ := by simp only [Pc.step, hd]
      exact .silent hs (.thrown jq)

end NixSrv.JobQueue
