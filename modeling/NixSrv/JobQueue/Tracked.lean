import NixSrv.JobQueue.Steps

/-!
# The jobs that the module holds

* `Pending`, `Holds`: a job waits in a queue, is in progress, or is completed;
* `Enqueues`: a `submit` whose job is put into a queue;
* **`pending_cases`**: where a job comes from that waits after a call;
* `InProgressCase`, **`inProgress_cases`**: where a job comes from that is in progress after a call;
* `HoldsCase`, **`holds_cases`**: where a job comes from that is held after a call;
* `holds_submit`, `holds_setProgress`: jobs that calls put there.
-/

namespace NixSrv.JobQueue

open Json

/-- The job waits in a queue. -/
def Pending (jq : JobQueue) (job : Job) : Prop :=
  ∃ name q, jq.queues.lookup name = some q ∧ job ∈ q.q

/-- The module holds the job. -/
inductive Holds (jq : JobQueue) (job : Job) : Prop
  | pending (h : Pending jq job)
  | inProgress (id : String) (h : jq.inProgress.lookup id = some job)
  | completed (id : String) (h : jq.completed.lookup id = some job)

variable [Jsoncpp]

/-- The job of the `submit` is put into a queue: the request is valid, the queue has room, and no
worker is parked. -/
def Enqueues (jq : JobQueue) (msg : IncomingMessage) : Prop :=
  ValidSubmit msg ∧ (∃ q ∈ jq.queues.lookup (moduleOf msg), q.HasRoom) ∧
    ∃ ws ∈ jq.workersAwaiting.lookup (moduleOf msg), ws.size = 0

instance (jq : JobQueue) (msg : IncomingMessage) : Decidable (Enqueues jq msg) := by
  unfold Enqueues; infer_instance

/-- Where a job comes from that the module holds after a call. -/
inductive HoldsCase (jq : JobQueue) (c : Call) (job : Job) : Prop
  | held (h : Holds jq job)
  | submitted (env : Env) (msg : IncomingMessage) (hc : c = .request ⟨.submit, env, msg⟩)
      (hq : Enqueues jq msg) (h : job = Job.ofMessage env msg.toMessage)
  | progressed (env : Env) (msg : IncomingMessage) (job₀ : Job)
      (hc : c = .request ⟨.setProgress, env, msg⟩)
      (hj : jq.inProgress.lookup (jobIdOf msg) = some job₀)
      (hp : msg.getDouble "progress" 0 ≠ 0)
      (h : job = job₀.setProgress (msg.getDouble "progress" 0))
  | reported (env : Env) (msg : IncomingMessage) (hc : c = .request ⟨.setResult, env, msg⟩)
      (h : job = (Job.ofMessage env msg.toMessage).setProgress 100)

/-! ## Jobs that wait -/

omit [Jsoncpp] in
theorem pending_initQueue {jq : JobQueue} {job : Job} (name : String) (size : ℕ)
    (h : Pending (jq.initQueue name size).1 job) : Pending jq job := by
  obtain ⟨name', q, hq, hj⟩ := h
  by_cases hn : name ∈ jq.queues
  · rw [initQueue_of_mem hn] at hq
    exact ⟨name', q, hq, hj⟩
  · obtain ⟨n, hi⟩ := initQueue_of_notMem hn size
    rw [hi, Map.lookup_emplace, AList.lookup_eq_none.mpr hn] at hq
    split_ifs at hq with he
    · cases hq
      cases hj
    · exact ⟨name', q, hq, hj⟩

theorem pending_submit {jq : JobQueue} (env : Env) (msg : IncomingMessage) {job : Job}
    (h : Pending (jq.submit env msg).state job) :
    Pending jq job ∨ Enqueues jq msg ∧ job = Job.ofMessage env msg.toMessage := by
  cases submit_cases jq env msg with
  | refused _ _ _ hs | noList _ _ hs | closedList _ _ _ hs | passed _ _ _ _ _ _ _ _ _ hs =>
    rw [hs] at h
    exact Or.inl h
  | queued q ws hv hq hr hw hws hs =>
    rw [hs] at h
    obtain ⟨name, q', hq', hj⟩ := h
    rw [Map.lookup_insert] at hq'
    split_ifs at hq' with he
    · cases hq'
      rcases List.mem_append.mp hj with hj | hj
      · exact Or.inl ⟨_, q, hq, hj⟩
      · exact Or.inr ⟨⟨hv, ⟨q, hq, hr⟩, ws, hw, by rw [Queue.size, hws]; rfl⟩,
          List.mem_singleton.mp hj⟩
    · exact Or.inl ⟨name, q', hq', hj⟩

theorem pending_getWork {jq : JobQueue} (msg : IncomingMessage) {job : Job}
    (h : Pending (jq.getWork msg).state job) : Pending jq job := by
  cases getWork_cases jq msg with
  | noQueue _ _ hg | waits _ _ _ _ hg | noList _ _ _ hg | parked _ _ _ _ _ hg =>
    rw [hg] at h
    exact h
  | handed q job₀ rest hq ho he hg =>
    rw [hg] at h
    obtain ⟨name, q', hq', hj⟩ := h
    rw [Map.lookup_insert] at hq'
    split_ifs at hq' with hn
    · cases hq'
      exact ⟨_, q, hq, List.mem_of_mem_tail hj⟩
    · exact ⟨name, q', hq', hj⟩

theorem pending_manage {jq : JobQueue} (msg : IncomingMessage) {job : Job}
    (h : Pending (jq.manage msg).state job) : Pending jq job := by
  obtain ⟨name, q, hq, hj⟩ := h
  obtain ⟨n, hl⟩ := lookup_manage jq msg
  rw [hl] at hq
  rcases queueAfter_q msg hq with he | ⟨q₀, hq₀, he⟩
  · rw [he] at hj
    cases hj
  · exact ⟨name, q₀, hq₀, he ▸ hj⟩

/-- **A job that waits after a call has waited before it, or is put into its queue by it.** -/
theorem pending_cases {jq : JobQueue} {c : Call} {job : Job}
    (h : Pending (jq.handle c).state job) :
    Pending jq job ∨ ∃ env msg, c = .request ⟨.submit, env, msg⟩ ∧ Enqueues jq msg ∧
      job = Job.ofMessage env msg.toMessage := by
  obtain ⟨name, size⟩ | ⟨⟨handler, env, msg⟩⟩ := c
  · exact Or.inl (pending_initQueue name size h)
  cases handler with
  | submit => exact (pending_submit env msg h).imp_right fun hs => ⟨env, msg, rfl, hs⟩
  | getWork => exact Or.inl (pending_getWork msg h)
  | manage => exact Or.inl (pending_manage msg h)
  | setProgress =>
    change Pending (jq.setProgress msg).state job at h
    rcases setProgress_cases jq msg with hs | ⟨_, _, _, hs⟩
    · rw [hs] at h
      exact Or.inl h
    · rw [hs] at h
      exact Or.inl h
  | setResult =>
    change Pending (jq.setResult env msg).state job at h
    cases setResult_cases jq env msg with
    | refused _ hs | stored _ hs =>
      rw [hs] at h
      exact Or.inl h
  | getResult =>
    change Pending (jq.getResult msg).state job at h
    cases getResult_cases jq msg with
    | collected _ _ _ hs | denied _ _ _ hs | notReady _ _ _ hs | notFound _ _ hs =>
      rw [hs] at h
      exact Or.inl h
  | status =>
    have hs := status_state jq msg
    exact Or.inl (hs ▸ h)

/-! ## Jobs in progress and results -/

/-- Where a job comes from that is in progress under `id` after a call. -/
inductive InProgressCase (jq : JobQueue) (c : Call) (id : String) (job : Job) : Prop
  | kept (h : jq.inProgress.lookup id = some job)
  | taken (h : Pending jq job) (hid : job.id = id)
  | progressed (env : Env) (msg : IncomingMessage) (job₀ : Job)
      (hc : c = .request ⟨.setProgress, env, msg⟩) (hid : jobIdOf msg = id)
      (hj : jq.inProgress.lookup (jobIdOf msg) = some job₀)
      (hp : msg.getDouble "progress" 0 ≠ 0)
      (h : job = job₀.setProgress (msg.getDouble "progress" 0))

/-- **A job in progress after a call** was so before it, has waited, or is an advanced one. -/
theorem inProgress_cases {jq : JobQueue} {c : Call} {id : String} {job : Job}
    (h : (jq.handle c).state.inProgress.lookup id = some job) : InProgressCase jq c id job := by
  obtain ⟨name, size⟩ | ⟨⟨handler, env, msg⟩⟩ := c
  · exact .kept ((initQueue_frame jq name size).1 ▸ h)
  cases handler with
  | submit => exact .kept (submit_inProgress jq env msg ▸ h)
  | getResult => exact .kept (getResult_inProgress jq msg ▸ h)
  | manage => exact .kept ((manage_frame jq msg).2.1 ▸ h)
  | status =>
    have hs := status_state jq msg
    exact .kept (hs ▸ h)
  | getWork =>
    change (jq.getWork msg).state.inProgress.lookup id = some job at h
    cases getWork_cases jq msg with
    | noQueue _ _ hg | waits _ _ _ _ hg | noList _ _ _ hg | parked _ _ _ _ _ hg =>
      rw [hg] at h
      exact .kept h
    | handed q job₀ rest hq ho he hg =>
      rw [hg, Map.lookup_insert] at h
      split_ifs at h with hi
      · cases h
        exact .taken ⟨_, q, hq, by rw [he]; exact List.mem_cons_self⟩ hi.symm
      · exact .kept h
  | setProgress =>
    change (jq.setProgress msg).state.inProgress.lookup id = some job at h
    rcases setProgress_cases jq msg with hs | ⟨job₀, hj, hp, hs⟩
    · rw [hs] at h
      exact .kept h
    · rw [hs, Map.lookup_insert] at h
      split_ifs at h with hi
      · cases h
        exact .progressed env msg job₀ rfl hi.symm hj hp rfl
      · exact .kept h
  | setResult =>
    change (jq.setResult env msg).state.inProgress.lookup id = some job at h
    cases setResult_cases jq env msg with
    | refused _ hs =>
      rw [hs] at h
      exact .kept h
    | stored _ hs =>
      rw [hs, Map.lookup_erase] at h
      split_ifs at h with hi
      exact .kept h

theorem completed_cases {jq : JobQueue} {c : Call} {id : String} {job : Job}
    (h : (jq.handle c).state.completed.lookup id = some job) : HoldsCase jq c job := by
  rw [lookup_completed_handle jq c jq id] at h
  cases hw : resultWrite id ⟨jq, c, jq⟩ with
  | keep =>
    rw [hw] at h
    exact .held (.completed id h)
  | drop =>
    rw [hw] at h
    cases h
  | put r =>
    rw [hw] at h
    cases h
    exact .reported r.1 r.2 (resultWrite_put.mp hw).1 rfl

/-- **Where a job comes from** that the module holds after a call. -/
theorem holds_cases {jq : JobQueue} {c : Call} {job : Job} (h : Holds (jq.handle c).state job) :
    HoldsCase jq c job := by
  cases h with
  | pending h =>
    rcases pending_cases h with h | ⟨env, msg, hc, hq, hj⟩
    · exact .held (.pending h)
    · exact .submitted env msg hc hq hj
  | inProgress id h =>
    cases inProgress_cases h with
    | kept h => exact .held (.inProgress id h)
    | taken h _ => exact .held (.pending h)
    | progressed env msg job₀ hc _ hj hp hs => exact .progressed env msg job₀ hc hj hp hs
  | completed id h => exact completed_cases h

/-! ## Jobs that calls put there -/

theorem holds_submit {jq : JobQueue} (env : Env) {msg : IncomingMessage} (h : Enqueues jq msg) :
    Holds (jq.submit env msg).state (Job.ofMessage env msg.toMessage) := by
  obtain ⟨hv, ⟨q, hq, hr⟩, ws, hw, hws⟩ := h
  rw [submit_of_hasRoom hv hq hr hw (List.eq_nil_of_length_eq_zero hws)]
  exact .pending ⟨_, _, AList.lookup_insert _, by simp⟩

theorem holds_setProgress {jq : JobQueue} {msg : IncomingMessage} {job₀ : Job}
    (hj : jq.inProgress.lookup (jobIdOf msg) = some job₀)
    (hp : msg.getDouble "progress" 0 ≠ 0) :
    Holds (jq.setProgress msg).state (job₀.setProgress (msg.getDouble "progress" 0)) := by
  refine .inProgress (jobIdOf msg) ?_
  simp only [setProgress, hj, hp, ne_eq, not_false_eq_true, if_true]
  exact AList.lookup_insert _

end NixSrv.JobQueue
