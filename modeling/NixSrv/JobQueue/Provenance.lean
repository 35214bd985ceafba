import NixSrv.JobQueue.Tracked

/-!
# The submits that stored jobs come from

An id can be used by many submits, so a job is told by the submit it comes from. A job that waits or
is in progress is stored as it was submitted. A result is stored as the worker sent it, with the id
only: it is a result of the job that was sent to a worker last under this id.

* `acceptedJobs`, `acceptedJob`, `sentJob`: the jobs that steps accept and send to workers;
* **`hands_iff`**: a step sends a job to a worker if and only if `sentJob` tells which;
* `Provenance`, `provenance`: the jobs behind an id during a run;
* `subject`, `owner`: the job whose data are stored under an id, and its key;
* **`descends_of_run`**: these are jobs of accepted submits, and so are the stored ones.
-/

namespace NixSrv

/-- What `set_progress` can make of a job. -/
def Job.Advances (job₀ job : Job) : Prop :=
  job = { job₀ with progress := job.progress, completed := job.completed }

theorem Job.Advances.refl (job : Job) : job.Advances job := rfl

theorem Job.Advances.setProgress {job₀ job : Job} (h : job₀.Advances job) (p : ℚ) :
    job₀.Advances (job.setProgress p) := by
  unfold Job.Advances at h ⊢
  rw [h]
  unfold Job.setProgress
  split_ifs <;> rfl

namespace JobQueue

open Json Transition

variable [Jsoncpp]

/-- The jobs of the submits that were accepted. -/
def acceptedJobs (tr : List Move) : List Job := tr.filterMap fun m => (accepts m).map Prod.snd

/-- The job with the id `j` that a step accepts. -/
def acceptedJob (j : String) (m : Move) : Option Job :=
  ((accepts m).map Prod.snd).filter fun job => job.id = j

/-- The job with the id `j` that a step sends to a worker. -/
def sentJob (j : String) (m : Move) : Option Job :=
  match m.event with
  | .request ⟨.getWork, _, msg⟩ =>
    match (m.pre.queues.lookup (moduleOf msg)).map Queue.pop with
    | some (.item job _) => if job.id = j then some job else none
    | _ => none
  | .request ⟨.submit, _, msg⟩ => if passesOn m.pre (moduleOf msg) then acceptedJob j m else none
  | _ => none

theorem mem_acceptedJob {j : String} {m : Move} {job : Job} :
    job ∈ acceptedJob j m ↔ job ∈ (accepts m).map Prod.snd ∧ job.id = j := by
  simp only [acceptedJob, Option.mem_def, Option.filter_eq_some_iff, decide_eq_true_eq]

theorem mem_acceptedJobs_snoc {tr : List Move} {m : Move} {job : Job} :
    job ∈ acceptedJobs (tr ++ [m]) ↔
      job ∈ acceptedJobs tr ∨ job ∈ (accepts m).map Prod.snd := by
  simp only [acceptedJobs, List.filterMap_append, List.mem_append, List.mem_filterMap,
    List.mem_singleton, exists_eq_left, Option.mem_def]

/-! ## Jobs sent to workers -/

theorem not_hands_of_fail {j : String} {m : Move} {msg : IncomingMessage} {status : StatusCode}
    {reason : String} (hs : sentIn m = [msg.fail status reason]) : ¬ Hands j m := by
  rintro ⟨-, w, job, -, hmem⟩
  rw [hs] at hmem
  have hid := congrArg jobIdIn (List.mem_singleton.mp hmem)
  simp at hid

/-- A step that sends the job `job₀` to a worker, and nothing else. -/
theorem hands_of_reply {j : String} {m : Move} {msg : IncomingMessage} {job₀ : Job}
    (hc : ∃ env msg,
      m.event = .request ⟨.getWork, env, msg⟩ ∨ m.event = .request ⟨.submit, env, msg⟩)
    (hs : sentIn m = [msg.reply job₀.toDocument]) : Hands j m ↔ job₀.id = j := by
  constructor
  · rintro ⟨-, w, job, hj, hmem⟩
    rw [hs] at hmem
    have hid := congrArg jobIdIn (List.mem_singleton.mp hmem)
    simp only [jobIdIn_reply_toDocument, Option.some_inj] at hid
    exact hid.symm.trans hj
  · exact fun hj => ⟨hc, msg, job₀, hj, by rw [hs]; exact List.mem_singleton_self _⟩

theorem hands_getWork_iff {jq : JobQueue} {env : Env} {msg : IncomingMessage}
    (hfin : (jq.getWork msg).Finished) (post : JobQueue) (j : String) :
    Hands j ⟨jq, .request ⟨.getWork, env, msg⟩, post⟩ ↔
      ∃ job, sentJob j ⟨jq, .request ⟨.getWork, env, msg⟩, post⟩ = some job := by
  have hsent : sentIn ⟨jq, .request ⟨.getWork, env, msg⟩, post⟩ = (jq.getWork msg).sent := rfl
  cases getWork_cases jq msg with
  | waits _ _ _ _ h | noList _ _ _ h => simp [h, Outcome.Finished] at hfin
  | noQueue reason hq h =>
    refine iff_of_false (not_hands_of_fail (hsent.trans (by rw [h]))) ?_
    simp [sentJob, hq]
  | handed q job rest hq ho he h =>
    rw [hands_of_reply ⟨env, msg, Or.inl rfl⟩ (hsent.trans (by rw [h]))]
    simp [sentJob, hq, Queue.pop_cons ho he]
  | parked q ws hq hc hw h =>
    refine iff_of_false ?_ (by simp [sentJob, hq, Queue.pop_closed.mpr hc])
    rintro ⟨-, w, job, -, hmem⟩
    rw [hsent, h] at hmem
    cases hmem

theorem hands_submit_iff {jq : JobQueue} {env : Env} {msg : IncomingMessage}
    (hfin : (jq.submit env msg).Finished) (post : JobQueue) (j : String) :
    Hands j ⟨jq, .request ⟨.submit, env, msg⟩, post⟩ ↔
      ∃ job, sentJob j ⟨jq, .request ⟨.submit, env, msg⟩, post⟩ = some job := by
  have hsent : sentIn ⟨jq, .request ⟨.submit, env, msg⟩, post⟩ = (jq.submit env msg).sent := rfl
  cases submit_cases jq env msg with
  | noList _ _ h | closedList _ _ _ h => simp [h, Outcome.Finished] at hfin
  | refused status reason hs h =>
    refine iff_of_false (not_hands_of_fail (hsent.trans (by rw [h]))) ?_
    simp [sentJob, acceptedJob, accepts, hsent, h, hs]
  | passed q ws w rest hv hq ho hw hws h =>
    rw [hands_of_reply ⟨env, msg, Or.inr rfl⟩ (hsent.trans (by rw [h]))]
    simp [sentJob, acceptedJob, accepts, hsent, h, passesOn, hw, Queue.size, hws]
  | queued q ws hv hq hr hw hws h =>
    refine iff_of_false ?_ (by simp [sentJob, passesOn, hw, Queue.size, hws])
    rintro ⟨-, w, job, -, hmem⟩
    rw [hsent, h] at hmem
    exact accepted_ne_reply _ (List.mem_singleton.mp hmem).symm

/-- **A step sends a job to a worker if and only if `sentJob` tells which.** -/
theorem hands_iff {jq : JobQueue} {c : Call} (hfin : (jq.handle c).Finished) (post : JobQueue)
    (j : String) : Hands j ⟨jq, c, post⟩ ↔ ∃ job, sentJob j ⟨jq, c, post⟩ = some job := by
  have hnot : ∀ c, (∀ env msg, c ≠ .request ⟨.getWork, env, msg⟩ ∧
      c ≠ .request ⟨.submit, env, msg⟩) → ¬ Hands j ⟨jq, c, post⟩ := by
    rintro c hc ⟨⟨env, msg, h | h⟩, -⟩
    · exact (hc env msg).1 h
    · exact (hc env msg).2 h
  obtain ⟨name, size⟩ | ⟨⟨handler, env, msg⟩⟩ := c
  · exact iff_of_false (hnot _ (by simp)) (by simp [sentJob])
  cases handler with
  | getWork => exact hands_getWork_iff hfin post j
  | submit => exact hands_submit_iff hfin post j
  | setProgress | setResult | getResult | manage | status =>
    exact iff_of_false (hnot _ (by simp)) (by simp [sentJob])

theorem mem_accepts_of_enqueues {jq : JobQueue} {msg : IncomingMessage} (h : Enqueues jq msg)
    (env : Env) (post : JobQueue) : Job.ofMessage env msg.toMessage ∈
      (accepts ⟨jq, .request ⟨.submit, env, msg⟩, post⟩).map Prod.snd := by
  obtain ⟨hv, ⟨q, hq, hr⟩, ws, hw, hws⟩ := h
  have hs := submit_of_hasRoom hv hq hr hw (List.eq_nil_of_length_eq_zero hws) env
  simp [accepts, sentIn, handle, handleRequest, hs]

/-! ## Provenance -/

/-- The jobs behind an id: the one accepted last, the one sent to a worker last, and the one whose
result was set last. -/
structure Provenance where
  submitted : Option Job := none
  sent : Option Job := none
  reported : Option Job := none

namespace Provenance

/-- The job that a result is of. -/
def current (p : Provenance) : Option Job := p.sent.or p.submitted

def step (j : String) (p : Provenance) (m : Move) : Provenance where
  submitted := (acceptedJob j m).or p.submitted
  sent := (sentJob j m).or p.sent
  reported := if j ∈ reportedIn m then p.current else p.reported

end Provenance

/-- The jobs behind the id `j` after a run. -/
def provenance (j : String) (tr : List Move) : Provenance := tr.foldl (Provenance.step j) {}

@[simp] theorem provenance_snoc (j : String) (tr : List Move) (m : Move) :
    provenance j (tr ++ [m]) = (provenance j tr).step j m := by
  simp [provenance]

/-- The job whose data are stored under the id `j`, where `get_result` finds them. -/
def subject (tr : List Move) (jq : JobQueue) (j : String) : Option Job :=
  if j ∈ jq.completed then (provenance j tr).reported else jq.inProgress.lookup j

/-- The key with which this job was submitted. -/
def owner (tr : List Move) (jq : JobQueue) (j : String) : Option String :=
  (subject tr jq j).map Job.apiKey

/-- A job that is there was accepted in the run, under the id `j`. -/
def AcceptedAs (tr : List Move) (j : String) (o : Option Job) : Prop :=
  ∀ job ∈ o, job ∈ acceptedJobs tr ∧ job.id = j

theorem AcceptedAs.snoc {tr : List Move} {j : String} {o : Option Job} (h : AcceptedAs tr j o)
    (m : Move) : AcceptedAs (tr ++ [m]) j o := fun job hj =>
  ⟨mem_acceptedJobs_snoc.mpr (Or.inl (h job hj).1), (h job hj).2⟩

theorem AcceptedAs.or {tr : List Move} {j : String} {o o' : Option Job} (h : AcceptedAs tr j o)
    (h' : AcceptedAs tr j o') : AcceptedAs tr j (o.or o') := by
  cases o with
  | none => exact h'
  | some job => exact h

/-- What is known of the jobs behind an id, and of the jobs that wait or are in progress. -/
structure Descends (tr : List Move) (jq : JobQueue) (j : String) : Prop where
  pending : ∀ job, Pending jq job → job ∈ acceptedJobs tr
  inProgress : ∀ job, jq.inProgress.lookup j = some job →
    ∃ job₀ ∈ acceptedJobs tr, job₀.id = j ∧ job₀.Advances job
  submitted : AcceptedAs tr j (provenance j tr).submitted
  sent : AcceptedAs tr j (provenance j tr).sent
  reported : AcceptedAs tr j (provenance j tr).reported

/-- A job that a step sends to a worker has waited, or the step accepts it. -/
theorem sentJob_cases {j : String} {m : Move} {job : Job} (h : job ∈ sentJob j m) :
    job.id = j ∧ (Pending m.pre job ∨ job ∈ (accepts m).map Prod.snd) := by
  unfold sentJob at h
  split at h
  · split at h
    · rename_i msg _ job' rest hp
      split_ifs at h with hj
      swap
      · cases h
      cases h
      obtain ⟨q, hq, hpop⟩ := Option.map_eq_some_iff.mp hp
      exact ⟨hj, Or.inl ⟨_, q, hq, Queue.mem_of_pop hpop⟩⟩
    · cases h
  · split_ifs at h
    · exact ⟨(mem_acceptedJob.mp h).2, Or.inr (mem_acceptedJob.mp h).1⟩
    · cases h
  · cases h

/-- **Stored jobs, and the jobs behind an id, come from accepted submits.** -/
theorem descends_of_run {tr : List Move} {jq : JobQueue} (hr : Run system tr jq) (j : String) :
    Descends tr jq j := by
  induction hr with
  | nil h =>
    cases h
    have hnone : AcceptedAs [] j none := fun _ h => by cases h
    refine ⟨?_, ?_, hnone, hnone, hnone⟩
    · rintro job ⟨name, q, hq, -⟩
      simp at hq
    · intro job hp
      simp at hp
  | @snoc tr s s' c hr hs ih =>
    have hacc : AcceptedAs (tr ++ [⟨s, c, s'⟩]) j (acceptedJob j ⟨s, c, s'⟩) := by
      intro job hj
      obtain ⟨hmem, hid⟩ := mem_acceptedJob.mp hj
      exact ⟨mem_acceptedJobs_snoc.mpr (Or.inr hmem), hid⟩
    have hsent : AcceptedAs (tr ++ [⟨s, c, s'⟩]) j (sentJob j ⟨s, c, s'⟩) := by
      intro job hj
      obtain ⟨hid, hp | hmem⟩ := sentJob_cases hj
      · exact ⟨mem_acceptedJobs_snoc.mpr (Or.inl (ih.pending job hp)), hid⟩
      · exact ⟨mem_acceptedJobs_snoc.mpr (Or.inr hmem), hid⟩
    constructor
    · intro job hp
      rw [(step_iff.mp hs).2] at hp
      rcases pending_cases hp with hp | ⟨env, msg, rfl, hq, rfl⟩
      · exact mem_acceptedJobs_snoc.mpr (Or.inl (ih.pending job hp))
      · exact mem_acceptedJobs_snoc.mpr (Or.inr (mem_accepts_of_enqueues hq env s'))
    · intro job hp
      rw [(step_iff.mp hs).2] at hp
      have hold : ∀ job₀, s.inProgress.lookup j = some job₀ →
          ∃ job₁ ∈ acceptedJobs (tr ++ [⟨s, c, s'⟩]), job₁.id = j ∧ job₁.Advances job₀ := by
        intro job₀ hj
        obtain ⟨job₁, hmem, hid, hadv⟩ := ih.inProgress job₀ hj
        exact ⟨job₁, mem_acceptedJobs_snoc.mpr (Or.inl hmem), hid, hadv⟩
      cases inProgress_cases hp with
      | kept hj => exact hold job hj
      | taken hj hid =>
        exact ⟨job, mem_acceptedJobs_snoc.mpr (Or.inl (ih.pending job hj)), hid, .refl job⟩
      | progressed env msg job₀ hc hid hj _ hset =>
        obtain ⟨job₁, hmem, hid₁, hadv⟩ := hold job₀ (hid ▸ hj)
        exact ⟨job₁, hmem, hid₁, hset ▸ hadv.setProgress _⟩
    · rw [provenance_snoc]
      exact hacc.or (ih.submitted.snoc _)
    · rw [provenance_snoc]
      exact hsent.or (ih.sent.snoc _)
    · rw [provenance_snoc]
      simp only [Provenance.step]
      split_ifs
      · exact (ih.sent.or ih.submitted).snoc _
      · exact ih.reported.snoc _

/-- The job behind stored data was accepted under the id. -/
theorem subject_accepted {tr : List Move} {jq : JobQueue} (hr : Run system tr jq) {j : String} :
    ∀ job ∈ subject tr jq j, ∃ job₀ ∈ acceptedJobs tr, job₀.id = j ∧ job₀.Advances job := by
  intro job hj
  have hd := descends_of_run hr j
  unfold subject at hj
  split_ifs at hj
  · obtain ⟨hmem, hid⟩ := hd.reported job hj
    exact ⟨job, hmem, hid, .refl job⟩
  · exact hd.inProgress job hj

end JobQueue

end NixSrv
