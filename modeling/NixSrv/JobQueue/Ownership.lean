import NixSrv.JobQueue.Provenance
import NixSrv.JobQueue.Results

/-!
# Whom a job belongs to

A job belongs to the key it was submitted with. `get_result` compares with the key of the job it
has stored, which for a completed job is the key of the worker, and for a job in progress not at
all.

* `OwnedBy`, **`ownedBy_iff`**: when the submitter, and no one else, gets the result;
* `Confidential`, **`confidential_iff`**: when a reply says nothing of a job to anyone but the one
  who has submitted it.
-/

namespace NixSrv.JobQueue

open Json Transition Cell

/-! ## Results -/

section Ownership

variable [Jsoncpp]

/-- `k` is answered with the result of `j` that was set by `rmsg`, any other key is denied. -/
def OwnedBy (jq : JobQueue) (j k : String) (rmsg : IncomingMessage) : Prop :=
  ∀ msg, jobIdOf msg = j →
    (keyOf msg = k → ∃ post doc sent, jq.getResult msg = .returned post sent ∧
      Delivers j rmsg msg doc sent) ∧
    (keyOf msg ≠ k → jq.getResult msg = .returned jq [msg.fail .accessDenied])

/-- In the run `j` was submitted with key `k` and handed to a worker, then `rmsg` was accepted as
its result, which has neither been replaced nor collected. -/
def Reported (tr : List Move) (j k : String) (rmsg : IncomingMessage) : Prop :=
  ∃ a m b env, tr = a ++ m :: b ∧ Submitted a j k ∧ (∃ m' ∈ a, Hands j m') ∧
    SetsResult j env rmsg m ∧
    ∀ m' ∈ b, (∀ env' msg, ¬ SetsResult j env' msg m') ∧ ∀ msg, ¬ Collects j msg m'

theorem resultWrite_keep {j : String} {m : Move} (hs : ∀ env msg, ¬ SetsResult j env msg m)
    (hc : ∀ msg, ¬ Collects j msg m) : resultWrite j m = .keep := by
  cases h : resultWrite j m with
  | put r => exact absurd (resultWrite_put.mp h) (hs r.1 r.2)
  | drop =>
    obtain ⟨msg, hm⟩ := resultWrite_drop.mp h
    exact absurd hm (hc msg)
  | keep => rfl

/-- After the report `completed_` holds the result as `set_result` built it. -/
theorem Reported.lookup_completed {tr : List Move} {jq : JobQueue} (hr : Run system tr jq)
    {j k : String} {rmsg : IncomingMessage} (h : Reported tr j k rmsg) :
    jobIdOf rmsg = j ∧ j ≠ "" ∧
      ∃ env, jq.completed.lookup j = some (resultJob (env, rmsg)) := by
  obtain ⟨a, m, b, env, rfl, -, -, hset, hrest⟩ := h
  refine ⟨hset.2.1, ne_empty_of_setsResult hset, env, ?_⟩
  have hkeep : ∀ m' ∈ b, resultWrite j m' = .keep := fun m' hm' =>
    resultWrite_keep (hrest m' hm').1 (hrest m' hm').2
  have hcontent : content (resultWrite j) (a ++ m :: b) = some (env, rmsg) := by
    rw [List.append_cons, content_append_of_keep _ hkeep, content_snoc, resultWrite_put.mpr hset]
    rfl
  rw [completed_of_run hr, hcontent, Option.map_some]

/-- **A result belongs to the submitter if and only if the worker reported it with the submitter's
key.** -/
theorem ownedBy_iff {tr : List Move} {jq : JobQueue} (hr : Run system tr jq) {j k : String}
    {rmsg : IncomingMessage} (h : Reported tr j k rmsg) :
    OwnedBy jq j k rmsg ↔ keyOf rmsg = k := by
  obtain ⟨hj, hne, env, hc⟩ := h.lookup_completed hr
  have hkey : (resultJob (env, rmsg)).apiKey = keyOf rmsg := by
    rw [resultJob, Job.apiKey_setProgress, Job.apiKey_ofMessage]
  constructor
  · intro hown
    obtain ⟨post, doc, sent, hget, hdel⟩ :=
      (hown (askFor j k) (jobIdOf_askFor j k)).1 (keyOf_askFor j k)
    cases getResult_cases jq (askFor j k) with
    | collected job hc' hk _ =>
      rw [jobIdOf_askFor, hc] at hc'
      cases hc'
      rw [← hkey, hk, keyOf_askFor]
    | denied job hc' hk hget' =>
      rw [hget'] at hget
      cases hget
      obtain ⟨hsent, hok, -⟩ := hdel
      rw [← List.singleton_inj.mp hsent, isOk_fail] at hok
      cases hok
    | notReady job hc' _ _ => rw [jobIdOf_askFor, hc] at hc'; cases hc'
    | notFound hc' _ _ => rw [jobIdOf_askFor, hc] at hc'; cases hc'
  · rintro rfl msg hmsg
    cases getResult_cases jq msg with
    | collected job hc' hk hget =>
      rw [hmsg, hc] at hc'
      cases hc'
      refine ⟨fun _ => ⟨_, _, _, hget, (delivers_resultJob (r := (env, rmsg)) hj hne msg).1⟩,
        fun hk' => ?_⟩
      exact absurd (hk.symm.trans hkey) hk'
    | denied job hc' hk hget =>
      rw [hmsg, hc] at hc'
      cases hc'
      exact ⟨fun hk' => absurd (hkey.trans hk'.symm) hk, fun _ => hget⟩
    | notReady job hc' _ _ => rw [hmsg, hc] at hc'; cases hc'
    | notFound hc' _ _ => rw [hmsg, hc] at hc'; cases hc'

end Ownership

section Sample

attribute [local instance] Jsoncpp.integral

/-- The job `j` is submitted with key `k` and handed to a worker. -/
def handedJob : List Call := [
  .initQueue "q" 2,
  callOf .submit 1 [("@job_id", .string "j"), ("@api_key", .string "k"), ("module", .string "q"),
    ("action", .string "a"), ("parameters", .null)],
  callOf .getWork 2 [("@api_key", .string "w"), ("module", .string "q")]]

/-- The worker's report, sent with the given key. -/
def reportWith (key : String) : IncomingMessage :=
  ⟨⟨.object [("@job_id", .string "j"), ("@api_key", .string key)]⟩, 3, rfl⟩

def reportedJob (key : String) : List Call :=
  handedJob ++ [.request ⟨.setResult, ⟨⟨"uuid", uuid_ne⟩, 1⟩, reportWith key⟩]

theorem submitted_handedJob : Submitted (historyOf handedJob) "j" "k" := by decide

theorem hands_handedJob : ∃ m ∈ historyOf handedJob, Hands "j" m := by
  refine ⟨(historyOf handedJob)[2], List.getElem_mem _, ⟨_, _, Or.inl rfl⟩, _, _, ?_,
    List.mem_singleton.mpr rfl⟩
  decide

theorem ownedBy_iff_submitter :
    OwnedBy (stateAfter (reportedJob "k")) "j" "k" (reportWith "k") ↔
      keyOf (reportWith "k") = "k" :=
  ownedBy_iff (run_historyOf (by decide)) ⟨historyOf handedJob, _, [], _, rfl, submitted_handedJob,
    hands_handedJob, ⟨rfl, by decide, by decide⟩, by simp⟩

/-- The submitter is denied the result when the worker reports it with its own key. -/
theorem not_ownedBy_worker :
    ∃ tr jq, Run system tr jq ∧ Reported tr "j" "k" (reportWith "w") ∧
      ¬ OwnedBy jq "j" "k" (reportWith "w") := by
  refine ⟨historyOf (reportedJob "w"), stateAfter (reportedJob "w"), run_historyOf (by decide),
    ⟨historyOf handedJob, _, [], _, rfl, submitted_handedJob, hands_handedJob,
      ⟨rfl, by decide, by decide⟩, by simp⟩, fun hown => ?_⟩
  obtain ⟨post, doc, sent, hget, hsent, hok, -⟩ :=
    (hown (askFor "j" "k") (by decide)).1 (by decide)
  have hall : ((stateAfter (reportedJob "w")).getResult (askFor "j" "k")).sent.all
      (fun a => !a.isOk) = true := by decide
  rw [hget, hsent] at hall
  simp [hok] at hall

end Sample

/-! ## Disclosure -/

section Disclosure

variable [Jsoncpp]

/-- The answer to the request carries the job stored under its id. -/
def Discloses (jq : JobQueue) (msg : IncomingMessage) : Prop :=
  ∃ job status, (jq.completed.lookup (jobIdOf msg) = some job ∨
      jq.inProgress.lookup (jobIdOf msg) = some job) ∧
    (jq.getResult msg).sent = [msg.reply job.toDocument status]

/-- `jq'` differs in the data of `j`, which have another key than `k`, and in its queues. -/
structure SameButFor (j k : String) (jq jq' : JobQueue) : Prop where
  completed : ∀ id ≠ j, jq'.completed.lookup id = jq.completed.lookup id
  inProgress : ∀ id ≠ j, jq'.inProgress.lookup id = jq.inProgress.lookup id
  completed_mem : j ∈ jq'.completed ↔ j ∈ jq.completed
  inProgress_mem : j ∈ jq'.inProgress ↔ j ∈ jq.inProgress
  completed_key : ∀ job, jq'.completed.lookup j = some job → job.apiKey ≠ k
  inProgress_key : ∀ job, jq'.inProgress.lookup j = some job → job.apiKey ≠ k

/-- Only the key with which the job was submitted gets its data; for any other key the answer does
not depend on them. -/
def Confidential (tr : List Move) (jq : JobQueue) (msg : IncomingMessage) : Prop :=
  (Discloses jq msg → owner tr jq (jobIdOf msg) = some (keyOf msg)) ∧
  (owner tr jq (jobIdOf msg) ≠ some (keyOf msg) →
    ∀ jq', SameButFor (jobIdOf msg) (keyOf msg) jq jq' →
      (jq'.getResult msg).sent = (jq.getResult msg).sent)

/-- No result of `j` was reported with key `k`, and `j` is not in progress unless it has one. -/
def Withheld (jq : JobQueue) (j k : String) : Prop :=
  (∀ job, jq.completed.lookup j = some job → job.apiKey ≠ k) ∧
  (j ∈ jq.inProgress → j ∈ jq.completed)

omit [Jsoncpp] in
/-- A failure is not the document of a job. -/
theorem fail_ne_reply (msg : IncomingMessage) (status status' : StatusCode) (reason : String)
    (job : Job) : msg.fail status reason ≠ msg.reply job.toDocument status' := by
  intro h
  have hdoc : Members.setStatus [] status reason = job.toDocument.setStatusCode status' :=
    Answer.reply.inj (congrArg Sent.answer h)
  have hid := congrArg (List.lookup "@job_id") hdoc
  rw [Members.setStatus, Members.setStatusMsg, Members.lookup_put_ne (by decide),
    Members.setStatusCode, Members.lookup_put_ne (by decide), Members.setStatusCode,
    Members.lookup_put_ne (by decide), Job.lookup_toDocument_id] at hid
  cases hid

theorem discloses_iff (jq : JobQueue) (msg : IncomingMessage) :
    Discloses jq msg ↔ ¬ Withheld jq (jobIdOf msg) (keyOf msg) := by
  cases getResult_cases jq msg with
  | collected job hc hk h =>
    refine iff_of_true ⟨job, .ok, Or.inl hc, by rw [h]⟩ fun hw => ?_
    exact hw.1 job hc hk
  | denied job hc hk h =>
    refine iff_of_false ?_ (not_not_intro ⟨fun job' hc' => ?_, fun _ => Map.mem_of_lookup hc⟩)
    · rintro ⟨job', status, -, hsent⟩
      rw [h] at hsent
      exact fail_ne_reply _ _ _ _ _ (List.singleton_inj.mp hsent)
    · rw [hc] at hc'
      cases hc'
      exact hk
  | notReady job hc hp h =>
    refine iff_of_true ⟨job, .notReady, Or.inr hp, by rw [h]⟩ fun hw => ?_
    exact AList.lookup_eq_none.mp hc (hw.2 (Map.mem_of_lookup hp))
  | notFound hc hp h =>
    refine iff_of_false ?_ (not_not_intro ⟨fun job hc' => ?_, fun hm => ?_⟩)
    · rintro ⟨job', status, -, hsent⟩
      rw [h] at hsent
      exact fail_ne_reply _ _ _ _ _ (List.singleton_inj.mp hsent)
    · rw [hc] at hc'
      cases hc'
    · exact absurd hm (AList.lookup_eq_none.mp hp)

/-- What is withheld does not show in the answer. -/
theorem Withheld.sent_eq {jq jq' : JobQueue} {msg : IncomingMessage}
    (hw : Withheld jq (jobIdOf msg) (keyOf msg))
    (hs : SameButFor (jobIdOf msg) (keyOf msg) jq jq') :
    (jq'.getResult msg).sent = (jq.getResult msg).sent := by
  have hw' : Withheld jq' (jobIdOf msg) (keyOf msg) :=
    ⟨hs.completed_key, fun h => hs.completed_mem.mpr (hw.2 (hs.inProgress_mem.mp h))⟩
  have key : ∀ s : JobQueue, Withheld s (jobIdOf msg) (keyOf msg) → (s.getResult msg).sent =
      if jobIdOf msg ∈ s.completed then [msg.fail .accessDenied]
      else [msg.fail .fail "Job not found or not yet started"] := by
    intro s hw
    cases getResult_cases s msg with
    | collected job hc hk h => exact absurd hk (hw.1 job hc)
    | denied job hc hk h => rw [h, if_pos (Map.mem_of_lookup hc)]
    | notReady job hc hp h =>
      exact absurd (hw.2 (Map.mem_of_lookup hp)) (AList.lookup_eq_none.mp hc)
    | notFound hc hp h => rw [h, if_neg (AList.lookup_eq_none.mp hc)]
  rw [key jq hw, key jq' hw']
  simp only [hs.completed_mem]

/-- **A reply keeps the data of a job from others if and only if it is asked for by the submitter,
or there are none to be given away.** The job is that of an accepted submit under the id. -/
theorem confidential_iff {tr : List Move} {jq : JobQueue} (hr : Run system tr jq)
    (msg : IncomingMessage) :
    (∀ job ∈ subject tr jq (jobIdOf msg), ∃ job₀ ∈ acceptedJobs tr,
      job₀.id = jobIdOf msg ∧ job₀.Advances job) ∧
    (Confidential tr jq msg ↔ owner tr jq (jobIdOf msg) = some (keyOf msg) ∨
      Withheld jq (jobIdOf msg) (keyOf msg)) := by
  refine ⟨subject_accepted hr, ?_⟩
  constructor
  · rintro ⟨hdis, -⟩
    by_cases hown : owner tr jq (jobIdOf msg) = some (keyOf msg)
    · exact Or.inl hown
    · refine Or.inr (not_not.mp fun hw => hown (hdis ?_))
      exact (discloses_iff jq msg).mpr hw
  · rintro (hown | hw)
    · exact ⟨fun _ => hown, fun hn => absurd hown hn⟩
    · exact ⟨fun hdis => absurd hw ((discloses_iff jq msg).mp hdis), fun _ _ hs => hw.sent_eq hs⟩

end Disclosure

section Sample

attribute [local instance] Jsoncpp.integral

/-- The id is used again by another submitter while the result of its first job is there. -/
def reusedJob : List Call := reportedJob "k" ++ [
  callOf .submit 4 [("@job_id", .string "j"), ("@api_key", .string "x"), ("module", .string "q"),
    ("action", .string "a"), ("parameters", .null)],
  callOf .getWork 5 [("@api_key", .string "w"), ("module", .string "q")]]

theorem confidential_iff_reusedJob :
    (∀ job ∈ subject (historyOf reusedJob) (stateAfter reusedJob) (jobIdOf (askFor "j" "x")),
      ∃ job₀ ∈ acceptedJobs (historyOf reusedJob),
        job₀.id = jobIdOf (askFor "j" "x") ∧ job₀.Advances job) ∧
    (Confidential (historyOf reusedJob) (stateAfter reusedJob) (askFor "j" "x") ↔
      owner (historyOf reusedJob) (stateAfter reusedJob) (jobIdOf (askFor "j" "x")) =
        some (keyOf (askFor "j" "x")) ∨
      Withheld (stateAfter reusedJob) (jobIdOf (askFor "j" "x")) (keyOf (askFor "j" "x"))) :=
  confidential_iff (run_historyOf (by decide)) (askFor "j" "x")

/-- Anyone who knows the id is sent the document of a job in progress. -/
theorem not_confidential_handedJob : Run system (historyOf handedJob) (stateAfter handedJob) ∧
    ¬ Confidential (historyOf handedJob) (stateAfter handedJob) (askFor "j" "x") := by
  refine ⟨run_historyOf (by decide), fun h => ?_⟩
  have hown : owner (historyOf handedJob) (stateAfter handedJob) (jobIdOf (askFor "j" "x")) ≠
    some (keyOf (askFor "j" "x")) := by decide
  exact hown (h.1 ⟨_, .notReady, Or.inr rfl, rfl⟩)

end Sample

end NixSrv.JobQueue
