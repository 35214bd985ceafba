import NixSrv.JobQueue.Spec

/-!
# The representation invariant

* `WellFormed`: what holds of the five fields of the module between calls;
* `WellFormed.submit` … `WellFormed.manage`, `WellFormed.handle`: every call keeps it;
* **`wellFormed_of_run`**: it holds after every run;
* `WellFormed.ending_ne_nullDeref`: no handler dereferences a missing waiting list;
* **`representation`**: the invariant with the bounds the queues carry themselves.
-/

namespace NixSrv.JobQueue

open Json Transition

/-- **The representation invariant.** -/
structure WellFormed (jq : JobQueue) : Prop where
  awaiting : ∀ name ∈ jq.queues, name ∈ jq.workersAwaiting
  awaiting_open : ∀ name ws, jq.workersAwaiting.lookup name = some ws → ws.isClosed = false
  pending_id : ∀ name q, jq.queues.lookup name = some q → ∀ job ∈ q.q, job.id ≠ ""
  inProgress_id : ∀ id job, jq.inProgress.lookup id = some job → id ≠ "" ∧ job.id = id
  completed_id : ∀ id job, jq.completed.lookup id = some job → id ≠ "" ∧ job.id = id
  completed_done : ∀ id job, jq.completed.lookup id = some job →
    job.completed = true ∧ job.progress = 100
  completed_size : Map.size jq.completed ≤ jq.completedJobs

theorem wellFormed_empty : WellFormed {} where
  awaiting _ h := absurd h (AList.notMem_empty _)
  awaiting_open _ _ h := by simp at h
  pending_id _ _ h := by simp at h
  inProgress_id _ _ h := by simp at h
  completed_id _ _ h := by simp at h
  completed_done _ _ h := by simp at h
  completed_size := le_rfl

namespace WellFormed

variable {jq : JobQueue} (hw : WellFormed jq)

include hw

/-- A change of a waiting list under its own name. -/
theorem insertAwaiting (name : String) {ws : Queue IncomingMessage} (ho : ws.isClosed = false) :
    WellFormed { jq with workersAwaiting := jq.workersAwaiting.insert name ws } :=
  { hw with
    awaiting := fun name' h => (AList.mem_insert _).mpr (Or.inr (hw.awaiting name' h))
    awaiting_open := by
      intro name' ws' h
      rw [Map.lookup_insert] at h
      split_ifs at h with hn
      · cases h; exact ho
      · exact hw.awaiting_open name' ws' h }

/-- A change of a queue that is there, to jobs that all have an id. -/
theorem insertQueue {name : String} (hn : name ∈ jq.queues) {q : Queue Job}
    (hq : ∀ job ∈ q.q, job.id ≠ "") :
    WellFormed { jq with queues := jq.queues.insert name q } :=
  { hw with
    awaiting := by
      intro name' h
      rcases (AList.mem_insert _).mp h with rfl | h
      · exact hw.awaiting _ hn
      · exact hw.awaiting name' h
    pending_id := by
      intro name' q' h
      rw [Map.lookup_insert] at h
      split_ifs at h with hn'
      · cases h; exact hq
      · exact hw.pending_id name' q' h }

/-- A job put into `in_progress_` under its own id. -/
theorem insertInProgress {id : String} {job : Job} (hid : id ≠ "") (hj : job.id = id) :
    WellFormed { jq with inProgress := jq.inProgress.insert id job } :=
  { hw with
    inProgress_id := by
      intro id' job' h
      rw [Map.lookup_insert] at h
      split_ifs at h with hi
      · cases h
        exact ⟨hi ▸ hid, hj.trans hi.symm⟩
      · exact hw.inProgress_id id' job' h }

/-- A change of the queues that adds neither a queue nor a job. -/
theorem withQueues {queues : Map String (Queue Job)}
    (hn : ∀ name q', queues.lookup name = some q' → ∃ q, jq.queues.lookup name = some q ∧
      ∀ job ∈ q'.q, job ∈ q.q) :
    WellFormed { jq with queues } :=
  { hw with
    awaiting := by
      intro name h
      obtain ⟨q', hq'⟩ := Map.exists_lookup h
      obtain ⟨q, hq, -⟩ := hn name q' hq'
      exact hw.awaiting name (Map.mem_of_lookup hq)
    pending_id := by
      intro name q' hq' job hj
      obtain ⟨q, hq, hsub⟩ := hn name q' hq'
      exact hw.pending_id name q hq job (hsub job hj) }

/-- A change of every queue that adds no job. -/
theorem mapQueues {f : Queue Job → Queue Job} (hf : ∀ q, ∀ job ∈ (f q).q, job ∈ q.q) :
    WellFormed { jq with queues := Map.mapVal f jq.queues } := by
  refine hw.withQueues fun name q' h => ?_
  rw [Map.lookup_mapVal, Option.map_eq_some_iff] at h
  obtain ⟨q, hq, rfl⟩ := h
  exact ⟨q, hq, hf q⟩

theorem initQueue (name : String) (size : ℕ) : WellFormed (jq.initQueue name size).1 := by
  by_cases hn : name ∈ jq.queues
  · rw [initQueue_of_mem hn]
    exact hw
  obtain ⟨n, h⟩ := initQueue_of_notMem hn size
  rw [h]
  exact { hw with
    awaiting := by
      intro name' h
      rcases Map.mem_emplace.mp h with rfl | h
      · exact Map.mem_emplace.mpr (Or.inl rfl)
      · exact Map.mem_emplace.mpr (Or.inr (hw.awaiting name' h))
    awaiting_open := by
      intro name' ws h
      rw [Map.lookup_emplace] at h
      split_ifs at h with hn'
      · cases ho : jq.workersAwaiting.lookup name with
        | none => rw [ho] at h; cases h; rfl
        | some ws' => rw [ho] at h; cases h; exact hw.awaiting_open name _ ho
      · exact hw.awaiting_open name' ws h
    pending_id := by
      intro name' q h
      rw [Map.lookup_emplace, AList.lookup_eq_none.mpr hn] at h
      split_ifs at h with hn'
      · cases h
        intro job hj
        cases hj
      · exact hw.pending_id name' q h }

variable [Jsoncpp]

theorem submit (env : Env) (msg : IncomingMessage) : WellFormed (jq.submit env msg).state := by
  cases submit_cases jq env msg with
  | refused _ _ _ h | noList _ _ h | closedList _ _ _ h => rw [h]; exact hw
  | passed q ws w rest hv hq ho hws _ h =>
    rw [h]
    exact hw.insertAwaiting _ (hw.awaiting_open _ ws hws)
  | queued q ws hv hq hr _ _ h =>
    rw [h]
    refine hw.insertQueue (Map.mem_of_lookup hq) fun job hj => ?_
    rcases List.mem_append.mp hj with hj | hj
    · exact hw.pending_id _ q hq job hj
    · rw [List.mem_singleton.mp hj]
      exact Job.id_ofMessage_ne _ _

theorem getWork (msg : IncomingMessage) : WellFormed (jq.getWork msg).state := by
  cases getWork_cases jq msg with
  | noQueue _ _ h | waits _ _ _ _ h | noList _ _ _ h => rw [h]; exact hw
  | handed q job rest hq ho he h =>
    rw [h]
    have hid : ∀ j ∈ q.q, j.id ≠ "" := hw.pending_id _ q hq
    refine (hw.insertQueue (Map.mem_of_lookup hq) fun j hj => ?_).insertInProgress
      (hid job (by rw [he]; exact List.mem_cons_self)) rfl
    exact hid j (List.mem_of_mem_tail hj)
  | parked q ws hq hc hws h =>
    rw [h]
    refine hw.insertAwaiting _ ?_
    by_cases hr : ws.HasRoom
    · rw [Queue.push_of_hasRoom hr]
      exact hw.awaiting_open _ ws hws
    · rw [Queue.push_of_not_hasRoom hr]
      exact hw.awaiting_open _ ws hws

theorem setProgress (msg : IncomingMessage) : WellFormed (jq.setProgress msg).state := by
  rcases setProgress_cases jq msg with h | ⟨job, hp, -, h⟩
  · rw [h]
    exact hw
  · obtain ⟨hid, hj⟩ := hw.inProgress_id _ job hp
    rw [h]
    exact hw.insertInProgress hid (by rw [Job.id_setProgress, hj])

theorem setResult (env : Env) (msg : IncomingMessage) :
    WellFormed (jq.setResult env msg).state := by
  cases setResult_cases jq env msg with
  | refused hj h => rw [h]; exact hw
  | stored hj h =>
    rw [h]
    have hid : ((Job.ofMessage env msg.toMessage).setProgress 100).id = jobIdOf msg := by
      rw [Job.id_setProgress, Job.id_ofMessage_of_ne _ _ hj]
    exact { hw with
      inProgress_id := by
        intro id job h
        rw [Map.lookup_erase] at h
        split_ifs at h with hi
        exact hw.inProgress_id id job h
      completed_id := by
        intro id job h
        rw [Map.lookup_insert] at h
        split_ifs at h with hi
        · cases h
          exact ⟨hi ▸ hj, hid.trans hi.symm⟩
        · exact hw.completed_id id job h
      completed_done := by
        intro id job h
        rw [Map.lookup_insert] at h
        split_ifs at h with hi
        · cases h
          rw [Job.setProgress_hundred]
          exact ⟨rfl, rfl⟩
        · exact hw.completed_done id job h
      completed_size := (Map.size_insert_le _ _ _).trans (Nat.succ_le_succ hw.completed_size) }

theorem getResult (msg : IncomingMessage) : WellFormed (jq.getResult msg).state := by
  cases getResult_cases jq msg with
  | denied _ _ _ h | notReady _ _ _ h | notFound _ _ h => rw [h]; exact hw
  | collected job hc hk h =>
    rw [h]
    have hsub : ∀ id job', (jq.completed.erase (jobIdOf msg)).lookup id = some job' →
        jq.completed.lookup id = some job' := by
      intro id job' h
      rw [Map.lookup_erase] at h
      split_ifs at h
      exact h
    exact { hw with
      completed_id := fun id job' h => hw.completed_id id job' (hsub id job' h)
      completed_done := fun id job' h => hw.completed_done id job' (hsub id job' h)
      completed_size := (Map.size_erase_le _ _).trans hw.completed_size }

theorem manage (msg : IncomingMessage) : WellFormed (jq.manage msg).state := by
  obtain ⟨-, hp, hd, hn⟩ := manage_frame jq msg
  obtain ⟨n, hl⟩ := lookup_manage jq msg
  refine ⟨fun name h => ?_, fun name ws h => ?_, fun name q h => ?_, ?_, ?_, ?_, ?_⟩
  · rcases mem_queues_manage jq msg h with h | h
    · rcases manage_workersAwaiting jq msg with hw' | ⟨n, hw', -⟩
      · rw [hw']
        exact hw.awaiting name h
      · rw [hw']
        exact Map.mem_emplace.mpr (Or.inr (hw.awaiting name h))
    · exact h
  · rcases manage_workersAwaiting jq msg with hw' | ⟨n, hw', -⟩
    · rw [hw'] at h
      exact hw.awaiting_open name ws h
    · rw [hw', Map.lookup_emplace] at h
      split_ifs at h with hn'
      · cases ho : jq.workersAwaiting.lookup (queueOf msg) with
        | none => rw [ho] at h; cases h; rfl
        | some ws' => rw [ho] at h; cases h; exact hw.awaiting_open _ _ ho
      · exact hw.awaiting_open name ws h
  · rw [hl] at h
    rcases queueAfter_q msg h with he | ⟨q₀, hq₀, he⟩
    · rw [he]
      intro job hj
      cases hj
    · rw [he]
      exact hw.pending_id name q₀ hq₀
  · rw [hp]; exact hw.inProgress_id
  · rw [hd]; exact hw.completed_id
  · rw [hd]; exact hw.completed_done
  · rw [hd, hn]; exact hw.completed_size

theorem handle (c : Call) : WellFormed (jq.handle c).state := by
  obtain ⟨name, size⟩ | ⟨⟨handler, env, msg⟩⟩ := c
  · exact hw.initQueue name size
  cases handler with
  | submit => exact hw.submit env msg
  | getWork => exact hw.getWork msg
  | setProgress => exact hw.setProgress msg
  | setResult => exact hw.setResult env msg
  | getResult => exact hw.getResult msg
  | manage => exact hw.manage msg
  | status =>
    change WellFormed (jq.status msg).state
    rcases status_cases jq msg with ⟨out, h⟩ | h
    · rw [h]; exact hw
    · rw [h]; exact hw

/-- **No handler dereferences a missing waiting list.** -/
theorem ending_ne_nullDeref (c : Call) : (jq.handle c).ending ≠ .nullDeref := by
  obtain ⟨name, size⟩ | ⟨⟨handler, env, msg⟩⟩ := c
  · exact Ending.noConfusion
  cases handler with
  | submit =>
    change (jq.submit env msg).ending ≠ _
    cases submit_cases jq env msg with
    | refused _ _ _ h | passed _ _ _ _ _ _ _ _ _ h | queued _ _ _ _ _ _ _ h =>
      rw [h]; exact Ending.noConfusion
    | noList hl hq h => exact absurd (hw.awaiting _ hq) (AList.lookup_eq_none.mp hl)
    | closedList ws hl hc h => exact absurd hc (by rw [hw.awaiting_open _ ws hl]; simp)
  | getWork =>
    change (jq.getWork msg).ending ≠ _
    cases getWork_cases jq msg with
    | noQueue _ _ h | waits _ _ _ _ h | handed _ _ _ _ _ _ h | parked _ _ _ _ _ h =>
      rw [h]; exact Ending.noConfusion
    | noList q hq hl h =>
      exact absurd (hw.awaiting _ (Map.mem_of_lookup hq)) (AList.lookup_eq_none.mp hl)
  | setProgress =>
    change (jq.setProgress msg).ending ≠ _
    rcases setProgress_cases jq msg with h | ⟨_, _, -, h⟩
    · rw [h]; exact Ending.noConfusion
    · rw [h]; exact Ending.noConfusion
  | setResult =>
    change (jq.setResult env msg).ending ≠ _
    cases setResult_cases jq env msg with
    | refused _ h | stored _ h => rw [h]; exact Ending.noConfusion
  | getResult =>
    change (jq.getResult msg).ending ≠ _
    cases getResult_cases jq msg with
    | collected _ _ _ h | denied _ _ _ h | notReady _ _ _ h | notFound _ _ h =>
      rw [h]; exact Ending.noConfusion
  | manage =>
    change (jq.manage msg).ending ≠ _
    rw [(manage_frame jq msg).1]
    exact Ending.noConfusion
  | status =>
    change (jq.status msg).ending ≠ _
    rcases status_cases jq msg with ⟨out, h⟩ | h
    · rw [h]; exact Ending.noConfusion
    · rw [h]; exact Ending.noConfusion

end WellFormed

section Runs

variable [Jsoncpp]

/-- **The invariant holds after every run.** -/
theorem wellFormed_of_run {tr : List Move} {jq : JobQueue} (hr : Run system tr jq) :
    WellFormed jq := by
  refine hr.state_invariant ?_ fun s c s' hs h => ?_
  · rintro s rfl
    exact wellFormed_empty
  · rw [(step_iff.mp h).2]
    exact hs.handle c

/-- Every queue and every waiting list keeps to its capacity, which is positive. -/
def Bounded (jq : JobQueue) : Prop :=
  (∀ name q, jq.queues.lookup name = some q → q.q.length ≤ q.queueSize ∧ 0 < q.queueSize) ∧
  ∀ name ws, jq.workersAwaiting.lookup name = some ws →
    ws.q.length ≤ ws.queueSize ∧ 0 < ws.queueSize

omit [Jsoncpp] in
theorem bounded (jq : JobQueue) : Bounded jq :=
  ⟨fun _ q _ => ⟨q.length_le, q.size_pos⟩, fun _ ws _ => ⟨ws.length_le, ws.size_pos⟩⟩

/-- **The representation invariant of the module.** -/
theorem representation {tr : List Move} {jq : JobQueue} (hr : Run system tr jq) :
    WellFormed jq ∧ Bounded jq ∧ ∀ c, (jq.handle c).ending ≠ .nullDeref :=
  ⟨wellFormed_of_run hr, bounded jq, (wellFormed_of_run hr).ending_ne_nullDeref⟩

end Runs

section Sample

attribute [local instance] Jsoncpp.integral

/-- A job is submitted, worked on and given a result. -/
def oneJob : List Call := [
  .initQueue "q" 2,
  callOf .submit 1 [("@job_id", .string "j"), ("module", .string "q"), ("action", .string "a"),
    ("parameters", .null)],
  callOf .getWork 2 [("module", .string "q")],
  callOf .setResult 3 [("@job_id", .string "j")]]

theorem representation_oneJob : WellFormed (stateAfter oneJob) ∧ Bounded (stateAfter oneJob) ∧
    ∀ c, ((stateAfter oneJob).handle c).ending ≠ .nullDeref :=
  representation (run_historyOf (by decide))

end Sample

end NixSrv.JobQueue
