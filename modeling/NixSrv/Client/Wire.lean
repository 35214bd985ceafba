import NixSrv.JobQueue.Tracked
import NixSrv.Client.GetResult

/-!
# Jobs on the wire

A job is written to a text on its way to the server and to a worker, and is read back from the
message that the text is parsed to.

* `Job.toText`, `JsonText.RoundTrips`: the text of a job, and texts that are read as what was
  written;
* `Job.ReadsBack`, **`readsBack_of_roundTrips`**: a job is read back from its text, also from a
  message that has got a status since;
* `submitted`, `run_submit`: the job as `submit` sends it;
* `SentCase`, **`sent_cases`**: what the handlers answer;
* `GetsSubmitted`, **`job_survives`**: a worker gets a job that was submitted, unless the answer is
  a failure.
-/

namespace NixSrv

open Json Transition

/-- The text of a value is not empty and is read as that value. -/
structure JsonText.RoundTrips [JsonText] (v : Value) : Prop where
  write_ne : JsonText.write v ≠ ""
  read_write : JsonText.read (JsonText.write v) = some v

namespace Job

/-- `Job::to_string`. -/
def toText [JsonText] (job : Job) : String := JsonText.write (.object job.toDocument)

theorem carries_reply (job : Job) (c : StatusCode) : Carries (job.toDocument.setStatusCode c) job :=
  (carries_toDocument job).put (by decide) _

section Text

variable [Jsoncpp]

/-- The job is read from the message `msg`, and also when the message has got a status. -/
structure ReadFrom (env : Env) (job : Job) (msg : Message) : Prop where
  plain : ofMessage env msg = job
  reply : ∀ status, ∃ m, msg.reply status = .ok m ∧ ofMessage env m = job
  status : ∀ status text, ∃ m, msg.setStatus status text = .ok m ∧ ofMessage env m = job

/-- The job is read back from its text, which is parsed to a message. -/
def ReadsBack [JsonText] (env : Env) (job : Job) (m : Message) : Prop :=
  ∃ msg, m.parse job.toText = some msg ∧ ReadFrom env job msg

/-- A job is read from every message that carries it. -/
theorem Carries.readFrom {ms : Members} {job : Job} (h : Carries ms job) (hc : job.Constructed)
    (env : Env) : ReadFrom env job (.ofMembers ms) where
  plain := h.ofMessage hc env
  reply _ := ⟨_, rfl, (h.put (by decide) _).ofMessage hc env⟩
  status _ _ := ⟨_, rfl, ((h.put (by decide) _).put (by decide) _).ofMessage hc env⟩

/-- **A job is read back from its text.** -/
theorem readsBack_of_roundTrips [JsonText] {job : Job} (hc : job.Constructed)
    (ht : JsonText.RoundTrips (.object job.toDocument)) (env : Env) (m : Message) :
    ReadsBack env job m := by
  refine ⟨.ofMembers job.toDocument, ?_, (carries_toDocument job).readFrom hc env⟩
  rw [Message.parse, toText, if_neg ht.write_ne, ht.read_write]
  rfl

end Text

end Job

namespace Client

variable (config : ClientConfig) (env : Env)

/-! ## Submitting a job -/

/-- The job as `submit` leaves and sends it. -/
def submitted (job : Job) : Job :=
  { job with apiKey := config.apiKeyPrivate, originNode := config.localNodename }

/-- **`submit` sends the document of this job.** -/
theorem run_submit (net : ℕ → Call → Outcome) (n : ℕ) (job : Job) :
    Dialogue.run net n (submit config job) =
      (n + 1, .ok (submitted config job, (net n ⟨false, config.srvJobQueueAddress, "JobQueue",
        "job/submit", some (submitted config job).toDocument⟩).response)) := rfl

theorem constructed_submitted {job : Job} (h : job.Constructed) :
    (submitted config job).Constructed :=
  ⟨h.id_ne, h.ctime_ne, h.inInt_ctime⟩

/-! ## The answers of the module -/

section Answers

variable [Jsoncpp]

/-- What a handler can answer. -/
inductive SentCase (jq : JobQueue) (c : JobQueue.Call) (s : Sent) : Prop
  /-- The answer goes to the sender of a request that is no `get_work`. -/
  | own (r : JobQueue.Request) (hc : c = .request r) (hr : r.handler ≠ .getWork)
      (h : s.handle = r.msg.handle)
  | failed (status : StatusCode) (reason : String) (hs : status ≠ .ok)
      (h : s.answer = .reply (Members.setStatus [] status reason))
  /-- A job that has waited is handed to a worker. -/
  | handed (job : Job) (hj : jq.Pending job)
      (h : s.answer = .reply (job.toDocument.setStatusCode .ok))
  /-- The job of a `submit` is passed on to a worker. -/
  | passed (env : Env) (msg : IncomingMessage) (hc : c = .request ⟨.submit, env, msg⟩)
      (h : s.answer = .reply ((Job.ofMessage env msg.toMessage).toDocument.setStatusCode .ok))

/-- **What the handlers answer.** -/
theorem sent_cases {jq : JobQueue} {c : JobQueue.Call} {s : Sent} (hs : s ∈ (jq.handle c).sent) :
    SentCase jq c s := by
  obtain ⟨name, size⟩ | ⟨⟨handler, env, msg⟩⟩ := c
  · cases hs
  by_cases hr : handler ≠ .submit ∧ handler ≠ .getWork
  · exact .own _ rfl hr.2 (JobQueue.handle_of_mem_sent hr hs)
  cases handler with
  | setProgress | setResult | getResult | manage | status => exact absurd (by decide) hr
  | submit =>
    change s ∈ (jq.submit env msg).sent at hs
    cases JobQueue.submit_cases jq env msg with
    | noList _ _ h | closedList _ _ _ h =>
      rw [h] at hs
      cases hs
    | refused status reason hst h =>
      rw [JobQueue.eq_of_mem_sent h hs]
      exact .failed status reason hst rfl
    | queued q ws hv hq hroom hw hws h =>
      rw [JobQueue.eq_of_mem_sent h hs]
      exact .own ⟨.submit, env, msg⟩ rfl (show JobQueue.Handler.submit ≠ .getWork by decide) rfl
    | passed q ws w rest hv hq ho hw hws h =>
      rw [JobQueue.eq_of_mem_sent h hs]
      exact .passed env msg rfl rfl
  | getWork =>
    change s ∈ (jq.getWork msg).sent at hs
    cases JobQueue.getWork_cases jq msg with
    | waits _ _ _ _ h | noList _ _ _ h | parked _ _ _ _ _ h =>
      rw [h] at hs
      cases hs
    | noQueue reason _ h =>
      rw [JobQueue.eq_of_mem_sent h hs]
      exact .failed .fail reason (by decide) rfl
    | handed q job rest hq ho he h =>
      rw [JobQueue.eq_of_mem_sent h hs]
      exact .handed job ⟨_, q, hq, by rw [he]; exact List.mem_cons_self⟩ rfl

/-! ## What a worker gets -/

/-- What `get_work` comes to when its request is answered by `s`. -/
def workFrom (module : String) (s : Sent) : Except Failure (Option Job) :=
  (Dialogue.run (fun _ _ => .sent (deliveryOf [s])) 0 (getWork config env module)).2

/-- A worker reads a job from an answer that is ok, and gets none otherwise. -/
theorem workFrom_of_reply (module : String) {s : Sent} {ms : Members} {c : StatusCode}
    (hs : s.answer = .reply ms) (hc : ms.lookup "@status_code" = some (.int c.toInt)) :
    workFrom config env module s =
      .ok (if c = .ok then some (Job.ofMessage env (.ofMembers ms)) else none) := by
  obtain ⟨handle, answer⟩ := s
  cases hs
  have hrun : Dialogue.run (fun _ _ => .sent (deliveryOf [⟨handle, .reply ms⟩])) 0
      ((jobQueueClient config).request "job/work/get" [("module", module)]) =
        (1, .ok (Message.ofMembers ms).response) :=
    run_request _ _ (by simp [messageKeys])
  rw [workFrom, getWork, Dialogue.run_bind_of_ok hrun]
  by_cases hok : c = .ok
  · rw [if_pos ((decodes_of_lookup hc).ok.mpr hok), if_pos hok]
    rfl
  · rw [if_neg (mt (decodes_of_lookup hc).ok.mp hok), if_neg hok]
    rfl

omit [Jsoncpp] in
theorem isOk_of_reply {s : Sent} {ms : Members} {c : StatusCode} (hs : s.answer = .reply ms)
    (hc : ms.lookup "@status_code" = some (.int c.toInt)) : s.isOk = decide (c = .ok) := by
  simp only [Sent.isOk, Sent.status, hs, hc]
  exact decide_eq_decide.mpr StatusCode.toInt_injective.eq_iff

/-- A request with this handle is a `get_work`. -/
def OnlyGetWork (h : ℕ) : JobQueue.Call → Prop
  | .initQueue _ _ => True
  | .request r => r.msg.handle = h → r.handler = .getWork

instance (h : ℕ) : DecidablePred (OnlyGetWork h)
  | .initQueue _ _ => isTrue trivial
  | .request r => inferInstanceAs (Decidable (r.msg.handle = h → r.handler = .getWork))

/-- The handle belongs to a worker: all requests with it are of `get_work`. -/
def OfWorker (tr : List JobQueue.Move) (h : ℕ) : Prop := ∀ m ∈ tr, OnlyGetWork h m.event

instance (tr : List JobQueue.Move) (h : ℕ) : Decidable (OfWorker tr h) := by
  unfold OfWorker; infer_instance

/-- The worker whose request is answered by `s` gets no job when the answer is a failure. Otherwise
it gets the job of a `submit` of the run, which is the one that a client has given to `submit` when
that client has sent the request. -/
def GetsSubmitted (tr : List JobQueue.Move) (module : String) (s : Sent) : Prop :=
  (s.isOk = false ∧ workFrom config env module s = .ok none) ∨
  s.isOk = true ∧ ∃ m ∈ tr, ∃ env₀ msg, m.event = .request ⟨.submit, env₀, msg⟩ ∧
    s.answer = .reply ((Job.ofMessage env₀ msg.toMessage).toDocument.setStatusCode .ok) ∧
    (∃ job, workFrom config env module s = .ok (some job)) ∧
    ((Job.ofMessage env₀ msg.toMessage).Constructed →
      workFrom config env module s = .ok (some (Job.ofMessage env₀ msg.toMessage))) ∧
    ∀ config₀ job, job.Constructed →
      msg.toMessage = .ofMembers (submitted config₀ job).toDocument →
      workFrom config env module s = .ok (some (submitted config₀ job))

/-- A job that waits has been submitted. -/
theorem exists_submit_of_pending {tr : List JobQueue.Move} {jq : JobQueue}
    (hr : Run JobQueue.system tr jq) {job : Job} (h : jq.Pending job) :
    ∃ m ∈ tr, ∃ env₀ msg, m.event = .request ⟨.submit, env₀, msg⟩ ∧
      job = Job.ofMessage env₀ msg.toMessage := by
  induction hr with
  | nil hi =>
    cases hi
    obtain ⟨name, q, hq, -⟩ := h
    simp at hq
  | @snoc tr s s' c hr hs ih =>
    rw [(JobQueue.step_iff.mp hs).2] at h
    rcases JobQueue.pending_cases h with h | ⟨env₀, msg, hc, -, hj⟩
    · obtain ⟨m, hm, hsub⟩ := ih h
      exact ⟨m, List.mem_append_left _ hm, hsub⟩
    · exact ⟨⟨s, c, s'⟩, List.mem_append_right _ (List.mem_singleton_self _), env₀, msg, hc, hj⟩

/-- The worker reads the job that its answer carries. -/
theorem getsSubmitted_of_answer {tr : List JobQueue.Move} {m : JobQueue.Move} (hm : m ∈ tr)
    {env₀ : Env} {msg : IncomingMessage} (he : m.event = .request ⟨.submit, env₀, msg⟩)
    (module : String) {s : Sent}
    (hs : s.answer = .reply ((Job.ofMessage env₀ msg.toMessage).toDocument.setStatusCode .ok)) :
    GetsSubmitted config env tr module s := by
  have hwork := workFrom_of_reply config env module hs (lookup_setStatusCode _ _)
  rw [if_pos rfl] at hwork
  have hread : ∀ {job : Job}, job.Constructed → Job.ofMessage env₀ msg.toMessage = job →
      workFrom config env module s = .ok (some job) := by
    rintro job hc rfl
    rw [hwork, (Job.carries_reply _ _).ofMessage hc]
  have hok : s.isOk = true := isOk_of_reply hs (lookup_setStatusCode _ _)
  refine Or.inr ⟨hok, m, hm, env₀, msg, he, hs, ⟨_, hwork⟩, fun hc => hread hc rfl,
    fun config₀ job hjob hmsg => ?_⟩
  have hc := constructed_submitted config₀ hjob
  refine hread hc ?_
  rw [hmsg, (Job.carries_toDocument _).ofMessage hc]

theorem getsSubmitted_of_run {hist rest : List JobQueue.Move} {m : JobQueue.Move} {jq : JobQueue}
    (hr : Run JobQueue.system (hist ++ m :: rest) jq) {s : Sent} (hs : s ∈ JobQueue.sentIn m)
    (hw : OfWorker (hist ++ m :: rest) s.handle) (module : String) :
    GetsSubmitted config env (hist ++ [m]) module s := by
  have hmem : m ∈ hist ++ m :: rest := List.mem_append_right _ List.mem_cons_self
  cases sent_cases hs with
  | own r hc hnot hhandle =>
    have hasks := hw m hmem
    rw [hc] at hasks
    exact absurd (hasks hhandle.symm) hnot
  | failed status reason hst h =>
    refine Or.inl ⟨?_, ?_⟩
    · rw [isOk_of_reply h (lookup_setStatus _ _ _)]
      exact decide_eq_false hst
    · rw [workFrom_of_reply config env module h (lookup_setStatus _ _ _), if_neg hst]
  | handed job hj h =>
    obtain ⟨m', hm', env₀, msg, he, rfl⟩ := exists_submit_of_pending hr.of_append.1 hj
    exact getsSubmitted_of_answer config env (List.mem_append_left _ hm') he module h
  | passed env₀ msg hc h =>
    exact getsSubmitted_of_answer config env
      (List.mem_append_right _ (List.mem_singleton_self _)) hc module h

end Answers

section Sample

attribute [local instance] Jsoncpp.integral

/-- A job as it is given to `submit`. -/
def sampleJob : Job :=
  { id := "j", module := "q", action := "a", progress := 101 / 2, ctime := 7,
    parameters := .object [("n", .int 1)] }

def sampleConfig : ClientConfig := { localNodename := "node", apiKeyPrivate := "k" }

def sampleText : String := "\x7b\"@api_key\":\"k\",\"@job_id\":\"j\",\"@origin_node\":\"node\"," ++
  "\"action\":\"a\",\"completed\":false,\"ctime\":7,\"module\":\"q\"," ++
  "\"parameters\":\x7b\"n\":1\x7d,\"progress\":50.5\x7d\n"

/-- A writer and a reader that know this job only. -/
@[reducible] def sampleJson : JsonText where
  write _ := sampleText
  read s := if s = sampleText then some (.object (submitted sampleConfig sampleJob).toDocument)
    else none

attribute [local instance] sampleJson

/-- The job is submitted and handed out. -/
def submitThenWork : List JobQueue.Call := [
  .initQueue "q" 2,
  .request ⟨.submit, ⟨⟨"uuid", JobQueue.uuid_ne⟩, 1⟩,
    incoming 1 (submitted sampleConfig sampleJob).toDocument⟩,
  JobQueue.callOf .getWork 2 [("module", .string "q")]]

end Sample

end Client

end NixSrv
