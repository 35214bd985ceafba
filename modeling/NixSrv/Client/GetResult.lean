import NixSrv.JobQueue.Invariant
import NixSrv.Client.Model

/-!
# Asking for a result

`JobQueueClient::get_result` against the handler `JobQueue::get_result`: the request is the job the
client has, and the answer is read as a job.

* `exchange`: the transport, with a resolver and a server at its other end;
* `Obtains`: the client gets the job it asked for, and none when the server answers with a failure;
* `run_getResult_of_reply`: every reply of the server is read as a job;
* `Available`, **`obtains_iff`**: when the client gets the job it asked for.
-/

namespace NixSrv.Client

open Json Transition
open JobQueue (jobIdOf keyOf getResult_cases)

/-- The request that a server makes of the text of a message. -/
def incoming (handle : ℕ) (msg : Option Members) : IncomingMessage :=
  ⟨⟨.object (msg.getD [])⟩, handle, Value.isObject_object _⟩

/-- What becomes of a message with these answers. -/
def deliveryOf : List Sent → Delivery
  | [] => .transmitted
  | ⟨_, .reply m⟩ :: _ => .replied (some (.object m))
  | ⟨_, .reject reason⟩ :: _ => .rejected reason

section Exchange

variable [Jsoncpp]

/-- The first message is answered by a resolver, the next one by `JobQueue::get_result`. -/
def exchange (resolved : Delivery) (jq : JobQueue) (handle : ℕ) : ℕ → Call → Outcome
  | 0, _ => .sent resolved
  | _ + 1, c => .sent (deliveryOf (jq.getResult (incoming handle c.msg)).sent)

/-- The address that the resolver's answer gives for the origin of the job. -/
def originAddress (resolved : Delivery) (j : Job) : String :=
  (Response.new resolved).getString j.originNode ""

/-- The server answers the request for the job with this status. -/
def AnswersWith (jq : JobQueue) (handle : ℕ) (j : Job) (status : StatusCode) : Prop :=
  ∃ s ∈ (jq.getResult (incoming handle j.toDocument)).sent, s.status = some (.int status.toInt)

/-- A job is returned only with the id that was asked for, and it is when the server is asked and
answers ok or not ready. -/
def Obtains (config : ClientConfig) (env : Env) (resolved : Delivery) (jq : JobQueue) (handle : ℕ)
    (j : Job) : Prop :=
  ∃ n r, Dialogue.run (exchange resolved jq handle) 0 (getResult config env j) = (n, .ok r) ∧
    (∀ job, r = some job → job.id = j.id) ∧ (n < 2 → r = none) ∧
    (n = 2 → ∀ status, AnswersWith jq handle j status →
      (r.isSome = true ↔ status = .ok ∨ status = .notReady))

/-- The server has a job for the request. -/
def Available (jq : JobQueue) (j : Job) : Prop :=
  (∃ job, jq.completed.lookup j.id = some job ∧ job.apiKey = j.apiKey) ∨
    jq.completed.lookup j.id = none ∧ j.id ∈ jq.inProgress

/-! ## The request and the answer -/

variable (config : ClientConfig) (env : Env) (resolved : Delivery) {jq : JobQueue} (handle : ℕ)
  (j : Job)

theorem jobIdOf_incoming : jobIdOf (incoming handle j.toDocument) = j.id := by
  change (Message.ofMembers j.toDocument).getMeta "job_id" "" = j.id
  refine Message.getMeta_of_lookup (by decide) ?_ ""
  exact j.lookup_toDocument_id

theorem keyOf_incoming : keyOf (incoming handle j.toDocument) = j.apiKey := by
  change (Message.ofMembers j.toDocument).getMeta "api_key" "" = j.apiKey
  refine Message.getMeta_of_lookup (by decide) ?_ ""
  exact j.lookup_toDocument_apiKey

/-- A job that is sent is received with its id. -/
theorem id_ofMessage_reply {job : Job} (hid : job.id ≠ "") (status : StatusCode) :
    (Job.ofMessage env (.ofMembers (job.toDocument.setStatusCode status))).id = job.id := by
  have hmeta : (Message.ofMembers (job.toDocument.setStatusCode status)).getMeta "job_id" "" =
      job.id := by
    refine Message.getMeta_of_lookup (by decide) ?_ ""
    exact (Members.lookup_put_ne (by decide) _ _).trans job.lookup_toDocument_id
  rw [Job.id_ofMessage_of_ne _ _ (hmeta.symm ▸ hid), hmeta]

/-- Without an address the server is not asked. -/
theorem run_getResult_of_noAddress (h : originAddress resolved j = "") :
    Dialogue.run (exchange resolved jq handle) 0 (getResult config env j) = (1, .ok none) := by
  rw [getResult, Dialogue.run_bind_of_ok (run_resolveNode_of_sent config j.originNode rfl)]
  change Dialogue.run _ 1 (if originAddress resolved j ≠ "" then _ else pure none) = _
  rw [if_neg (not_not.mpr h)]
  rfl

/-- Every reply of the server is read as a job. -/
theorem run_getResult_of_reply (h : originAddress resolved j ≠ "") {m : Members}
    (hs : (jq.getResult (incoming handle j.toDocument)).sent = [⟨handle, .reply m⟩]) :
    Dialogue.run (exchange resolved jq handle) 0 (getResult config env j) =
      (2, .ok (some (.ofMessage env (.ofMembers m)))) := by
  rw [getResult, Dialogue.run_bind_of_ok (run_resolveNode_of_sent config j.originNode rfl)]
  change Dialogue.run _ 1 (if originAddress resolved j ≠ "" then _ else pure none) = _
  rw [if_pos h, Dialogue.run_bind_of_ok (run_call _ _ _ _), exchange, hs]
  rfl

theorem answersWith_iff {m : Members} {c : StatusCode}
    (hs : (jq.getResult (incoming handle j.toDocument)).sent = [⟨handle, .reply m⟩])
    (hc : m.lookup "@status_code" = some (.int c.toInt)) (status : StatusCode) :
    AnswersWith jq handle j status ↔ status = c := by
  simp only [AnswersWith, hs, List.mem_singleton, exists_eq_left]
  change m.lookup "@status_code" = some (.int status.toInt) ↔ status = c
  rw [hc, Option.some_inj, Value.int.injEq, StatusCode.toInt_injective.eq_iff, eq_comm]

/-- A reply is to carry the id that was asked for, and to be ok or not ready. -/
theorem obtains_of_reply (h : originAddress resolved j ≠ "") {m : Members} {c : StatusCode}
    (hs : (jq.getResult (incoming handle j.toDocument)).sent = [⟨handle, .reply m⟩])
    (hc : m.lookup "@status_code" = some (.int c.toInt)) :
    Obtains config env resolved jq handle j ↔
      (Job.ofMessage env (.ofMembers m)).id = j.id ∧ (c = .ok ∨ c = .notReady) := by
  have hrun := run_getResult_of_reply config env resolved handle j h hs
  constructor
  · rintro ⟨n, r, hr, hid, -, hstatus⟩
    rw [hrun] at hr
    cases hr
    exact ⟨hid _ rfl, (hstatus rfl c ((answersWith_iff handle j hs hc c).mpr rfl)).mp rfl⟩
  · rintro ⟨hid, hok⟩
    refine ⟨2, _, hrun, ?_, fun hn => absurd hn (lt_irrefl 2), fun _ status hst => ?_⟩
    · rintro _ ⟨⟩
      exact hid
    · rw [(answersWith_iff handle j hs hc status).mp hst]
      exact iff_of_true rfl hok

/-- The client gets a job that the server sends under the id it has. -/
theorem obtains_of_job (h : originAddress resolved j ≠ "") {job : Job} {c : StatusCode}
    (hs : (jq.getResult (incoming handle j.toDocument)).sent =
      [(incoming handle j.toDocument).reply job.toDocument c])
    (hid : j.id ≠ "" ∧ job.id = j.id) (hc : c = .ok ∨ c = .notReady) :
    Obtains config env resolved jq handle j := by
  refine (obtains_of_reply config env resolved handle j h hs (lookup_setStatusCode _ _)).mpr
    ⟨?_, hc⟩
  rw [id_ofMessage_reply env (hid.2.symm ▸ hid.1), hid.2]

/-- It does not get what it should when the server answers with a failure. -/
theorem not_obtains_of_fail (h : originAddress resolved j ≠ "") {c : StatusCode} {reason : String}
    (hs : (jq.getResult (incoming handle j.toDocument)).sent =
      [(incoming handle j.toDocument).fail c reason]) (hc : c ≠ .ok ∧ c ≠ .notReady) :
    ¬ Obtains config env resolved jq handle j := by
  intro ho
  have hreply := (obtains_of_reply config env resolved handle j h hs (lookup_setStatus _ _ _)).mp ho
  exact hreply.2.elim hc.1 hc.2

/-- **When the client gets the job it asked for.** Other answers of the server are failures, which
the client reads as a job with a new id. -/
theorem obtains_iff {tr : List JobQueue.Move} (hr : Run JobQueue.system tr jq) :
    Obtains config env resolved jq handle j ↔
      originAddress resolved j = "" ∨ Available jq j := by
  have hwf := JobQueue.wellFormed_of_run hr
  by_cases ha : originAddress resolved j = ""
  · refine iff_of_true ⟨1, none, run_getResult_of_noAddress config env resolved handle j ha, ?_,
      fun _ => rfl, ?_⟩ (.inl ha)
    · rintro _ ⟨⟩
    · rintro ⟨⟩
  rw [or_iff_right ha]
  cases getResult_cases jq (incoming handle j.toDocument) with
  | collected job hc hk h =>
    rw [jobIdOf_incoming] at hc
    rw [keyOf_incoming] at hk
    exact iff_of_true (obtains_of_job config env resolved handle j ha (by rw [h])
      (hwf.completed_id _ _ hc) (.inl rfl)) (.inl ⟨job, hc, hk⟩)
  | denied job hc hk h =>
    rw [jobIdOf_incoming] at hc
    rw [keyOf_incoming] at hk
    refine iff_of_false (not_obtains_of_fail config env resolved handle j ha (by rw [h])
      (by simp)) ?_
    rintro (⟨job', hc', hk'⟩ | ⟨hc', -⟩)
    · rw [hc] at hc'
      cases hc'
      exact hk hk'
    · rw [hc] at hc'
      cases hc'
  | notReady job hc hp h =>
    rw [jobIdOf_incoming] at hc hp
    exact iff_of_true (obtains_of_job config env resolved handle j ha (by rw [h])
      (hwf.inProgress_id _ _ hp) (.inr rfl)) (.inr ⟨hc, Map.mem_of_lookup hp⟩)
  | notFound hc hp h =>
    rw [jobIdOf_incoming] at hc hp
    refine iff_of_false (not_obtains_of_fail config env resolved handle j ha (by rw [h])
      (by simp)) ?_
    rintro (⟨job', hc', -⟩ | ⟨-, hp'⟩)
    · rw [hc] at hc'
      cases hc'
    · exact AList.lookup_eq_none.mp hp hp'

end Exchange

section Sample

attribute [local instance] Jsoncpp.integral

/-- The resolver knows the address of the node. -/
def knownNode : Delivery := .replied (some (.object [("node", .string "tcp://127.0.0.1:1")]))

def jobOf (id : String) : Job := { id := id, originNode := "node" }

def sampleEnv : Env := ⟨⟨"uuid", JobQueue.uuid_ne⟩, 1⟩

/-- The server after the result of a job has been set. -/
def reported : List JobQueue.Call := [JobQueue.callOf .setResult 1 [("@job_id", .string "j")]]

/-- The result is obtained. -/
theorem obtains_reported :
    Obtains {} sampleEnv knownNode (JobQueue.stateAfter reported) 2 (jobOf "j") := by
  have hr : Run JobQueue.system (JobQueue.historyOf reported) (JobQueue.stateAfter reported) :=
    JobQueue.run_historyOf (by decide)
  exact (obtains_iff {} sampleEnv knownNode 2 (jobOf "j") hr).mpr (.inr (.inl ⟨_, rfl, rfl⟩))

/-- The failure for an unknown job is read as a job with a new id. -/
theorem not_obtains_unknown :
    Run JobQueue.system [] {} ∧
    (∃ job, Dialogue.run (exchange knownNode {} 1) 0 (getResult {} sampleEnv (jobOf "j")) =
        (2, .ok (some job)) ∧ job.id = "uuid") ∧
      ¬ Obtains {} sampleEnv knownNode {} 1 (jobOf "j") := by
  have ha : originAddress knownNode (jobOf "j") ≠ "" := by decide
  have hs : (JobQueue.getResult {} (incoming 1 (jobOf "j").toDocument)).sent =
      [⟨1, .reply (Members.setStatus [] .fail "Job not found or not yet started")⟩] := rfl
  exact ⟨.nil rfl, ⟨_, run_getResult_of_reply {} sampleEnv knownNode 1 (jobOf "j") ha hs,
    by decide⟩, not_obtains_of_fail {} sampleEnv knownNode 1 (jobOf "j") ha hs (by simp)⟩

end Sample

end NixSrv.Client
