import NixSrv.JobQueue.Steps

/-!
# Results

For each id, `completed_` holds at most one result: an accepted `set_result` puts it there and an
ok `get_result` takes it away.

* `resultWrite`, **`lookup_completed_handle`**: a call as a write into the cell of an id;
* **`completed_of_run`**: `completed_` is the content of these cells;
* **`results_delivered`**: results are delivered once and are the latest ones.
-/

namespace NixSrv.JobQueue

open Json Transition Cell

section Results

variable [Jsoncpp]

/-- **`completed_` holds the latest results that have not been collected.** -/
theorem completed_of_run {tr : List Move} {jq : JobQueue} (hr : Run system tr jq) (j : String) :
    jq.completed.lookup j = (content (resultWrite j) tr).map resultJob := by
  induction hr with
  | nil h => cases h; rfl
  | @snoc tr s s' c hr hs ih =>
    rw [(step_iff.mp hs).2, lookup_completed_handle s c s' j, content_snoc,
      ← (step_iff.mp hs).2]
    cases resultWrite j ⟨s, c, s'⟩ with
    | put r => rfl
    | drop => rfl
    | keep => exact ih

/-! ## What is delivered -/

/-- The document is the result of `j` that was set by `rmsg`. -/
structure CarriesResult (j : String) (rmsg : IncomingMessage) (doc : Members) : Prop where
  id : doc.lookup "@job_id" = some (.string j)
  completed : doc.lookup "completed" = some (.bool true)
  progress : doc.lookup "progress" = some (.real 100)
  parameters : doc.lookup "parameters" = some (rmsg.getRawValue "parameters")

/-- The answer is ok and carries the result of `j` that was set by `rmsg`. -/
def Delivers (j : String) (rmsg msg : IncomingMessage) (doc : Members) (sent : List Sent) : Prop :=
  sent = [⟨msg.handle, .reply doc⟩] ∧ (Sent.mk msg.handle (.reply doc)).isOk = true ∧
    CarriesResult j rmsg doc

theorem delivers_resultJob {j : String} {r : Env × IncomingMessage} (hj : jobIdOf r.2 = j)
    (hne : j ≠ "") (msg : IncomingMessage) :
    Delivers j r.2 msg ((resultJob r).toDocument.setStatusCode .ok)
        [msg.reply (resultJob r).toDocument] ∧
      ((resultJob r).toDocument.setStatusCode .ok).lookup "@api_key" =
        some (.string (keyOf r.2)) := by
  have hid : (resultJob r).id = j := by
    rw [resultJob, Job.id_setProgress]
    exact (Job.id_ofMessage_of_ne _ _ fun h => hne (hj.symm.trans h)).trans hj
  have hdone : (resultJob r).completed = true ∧ (resultJob r).progress = 100 := by
    rw [resultJob, Job.setProgress_hundred]
    exact ⟨rfl, rfl⟩
  have hframe : ∀ k, k ≠ "@status_code" →
      ((resultJob r).toDocument.setStatusCode .ok).lookup k = (resultJob r).toDocument.lookup k :=
    fun k hk => Members.lookup_put_ne hk _ _
  refine ⟨⟨rfl, isOk_reply msg _ _, ?_, ?_, ?_, ?_⟩, ?_⟩
  · rw [hframe _ (by decide), Job.lookup_toDocument_id, hid]
  · rw [hframe _ (by decide), Job.lookup_toDocument_completed, hdone.1]
  · rw [hframe _ (by decide), Job.lookup_toDocument_progress, hdone.2]
  · rw [hframe _ (by decide), Job.lookup_toDocument_parameters, resultJob,
      Job.parameters_setProgress, Job.parameters_ofMessage]
  · rw [hframe _ (by decide), Job.lookup_toDocument_apiKey, resultJob, Job.apiKey_setProgress,
      Job.apiKey_ofMessage]

/-- A step accepts a result only for a non-empty id. -/
theorem ne_empty_of_setsResult {j : String} {env : Env} {msg : IncomingMessage} {m : Move}
    (h : SetsResult j env msg m) : j ≠ "" := by
  obtain ⟨pre, c, post⟩ := m
  obtain ⟨rfl, rfl, hok⟩ := h
  cases setResult_cases pre env msg with
  | refused hj h => simp [okIn, sentIn, handle, handleRequest, h] at hok
  | stored hj h => exact hj

/-- A result in `completed_` comes from the latest accepted `set_result`, not collected since. -/
theorem exists_setsResult {tr : List Move} {jq : JobQueue} (hr : Run system tr jq) {j : String}
    {job : Job} (hc : jq.completed.lookup j = some job) :
    ∃ a m b env rmsg, tr = a ++ m :: b ∧ SetsResult j env rmsg m ∧
      (∀ m' ∈ b, resultWrite j m' = .keep) ∧ job = resultJob (env, rmsg) := by
  rw [completed_of_run hr] at hc
  obtain ⟨⟨env, rmsg⟩, hcon, rfl⟩ := Option.map_eq_some_iff.mp hc
  obtain ⟨a, m, b, rfl, hput, hkeep⟩ := exists_put_of_content hcon
  exact ⟨a, m, b, env, rmsg, rfl, resultWrite_put.mp hput, hkeep, rfl⟩

theorem not_setsResult_of_keep {j : String} {m : Move} (h : resultWrite j m = .keep) (env : Env)
    (msg : IncomingMessage) : ¬ SetsResult j env msg m := by
  intro hs
  rw [resultWrite_put.mpr hs] at h
  cases h

/-- A `get_result` answered ok finds the result in `completed_`. -/
theorem collects_iff {j : String} {msg : IncomingMessage} {env : Env} {pre post : JobQueue} :
    Collects j msg ⟨pre, .request ⟨.getResult, env, msg⟩, post⟩ ↔ jobIdOf msg = j ∧
      ∃ job, pre.completed.lookup j = some job ∧ job.apiKey = keyOf msg ∧
        pre.getResult msg = .returned { pre with completed := pre.completed.erase j }
          [msg.reply job.toDocument] := by
  constructor
  · rintro ⟨⟨env', he⟩, rfl, hok⟩
    refine ⟨rfl, ?_⟩
    cases getResult_cases pre msg with
    | collected job hc hk h => exact ⟨job, hc, hk, h⟩
    | denied job hc hk h => simp [okIn, sentIn, handle, handleRequest, h] at hok
    | notReady job hc hp h => simp [okIn, sentIn, handle, handleRequest, h] at hok
    | notFound hc hp h => simp [okIn, sentIn, handle, handleRequest, h] at hok
  · rintro ⟨rfl, job, hc, hk, h⟩
    exact ⟨⟨env, rfl⟩, rfl, by simp [okIn, sentIn, handle, handleRequest, h]⟩

/-- Between two ok `get_result` for `j` there is an accepted `set_result` for `j`. -/
def DeliveredOnce (tr : List Move) (j : String) : Prop :=
  ∀ a m₁ b m₂ c msg₁ msg₂, tr = a ++ m₁ :: (b ++ m₂ :: c) → Collects j msg₁ m₁ →
    Collects j msg₂ m₂ → ∃ m ∈ b, ∃ env rmsg, SetsResult j env rmsg m

/-- Every ok `get_result` for `j` answers with what the latest accepted `set_result` for `j` was
sent, and with the key of that request. -/
def DeliveredLatest (tr : List Move) (j : String) : Prop :=
  ∀ a m c msg, tr = a ++ m :: c → Collects j msg m → ∃ a₁ m₁ a₂ env rmsg doc,
    a = a₁ ++ m₁ :: a₂ ∧ SetsResult j env rmsg m₁ ∧
    (∀ m' ∈ a₂, ∀ env' msg', ¬ SetsResult j env' msg' m') ∧
    Delivers j rmsg msg doc (sentIn m) ∧ doc.lookup "@api_key" = some (.string (keyOf rmsg))

/-- A `get_result` that is not answered ok changes nothing. -/
def RefusalsKeepState (tr : List Move) : Prop :=
  ∀ m ∈ tr, ∀ env msg, m.event = .request ⟨.getResult, env, msg⟩ → okIn m msg = false →
    m.post = m.pre

/-- **Results are delivered at most once and are the latest ones.** -/
theorem results_delivered {tr : List Move} {jq : JobQueue} (hr : Run system tr jq) (j : String) :
    DeliveredOnce tr j ∧ DeliveredLatest tr j ∧ RefusalsKeepState tr := by
  refine ⟨?_, ?_, ?_⟩
  · rintro a m₁ b m₂ c msg₁ msg₂ rfl h₁ h₂
    have hr₂ : Run system (a ++ m₁ :: b) m₂.pre := by
      rw [← List.cons_append, ← List.append_assoc] at hr
      exact hr.of_append.1
    obtain ⟨pre, ev, post⟩ := m₂
    obtain ⟨⟨env, rfl⟩, -⟩ := id h₂
    obtain ⟨-, job, hc, -⟩ := collects_iff.mp h₂
    have hne : content (resultWrite j) (a ++ m₁ :: b) ≠ none := by
      intro hn
      rw [completed_of_run hr₂, hn] at hc
      cases hc
    obtain ⟨m, hm, ⟨env', rmsg⟩, hput⟩ :=
      exists_put_between (resultWrite_drop.mpr ⟨msg₁, h₁⟩) hne
    exact ⟨m, hm, env', rmsg, resultWrite_put.mp hput⟩
  · rintro a m c msg rfl h
    obtain ⟨pre, ev, post⟩ := m
    obtain ⟨⟨env, rfl⟩, -⟩ := id h
    obtain ⟨hj, job, hc, -, hget⟩ := collects_iff.mp h
    obtain ⟨a₁, m₁, a₂, env', rmsg, rfl, hset, hkeep, rfl⟩ :=
      exists_setsResult hr.of_append.1 hc
    obtain ⟨hdel, hkey⟩ := delivers_resultJob (r := (env', rmsg)) hset.2.1
      (ne_empty_of_setsResult hset) msg
    refine ⟨a₁, m₁, a₂, env', rmsg, _, rfl, hset,
      fun m' hm' => not_setsResult_of_keep (hkeep m' hm'), ?_, hkey⟩
    have hsent : sentIn ⟨pre, .request ⟨.getResult, env, msg⟩, post⟩ =
        [msg.reply (resultJob (env', rmsg)).toDocument] := by
      simp only [sentIn, handle, handleRequest, hget]
    rw [hsent]
    exact hdel
  · refine hr.move_mem fun tr s c s' _ hs => ?_
    rintro env msg rfl hno
    change s' = s
    rw [(step_iff.mp hs).2]
    change (s.getResult msg).state = s
    cases getResult_cases s msg with
    | collected job hc hk h =>
      exact absurd (by simp [okIn, sentIn, handle, handleRequest, h]) (Bool.eq_false_iff.mp hno)
    | denied _ _ _ h | notReady _ _ _ h | notFound _ _ h => rw [h]

end Results

section Sample

attribute [local instance] Jsoncpp.integral

/-- A result is set and collected twice, with a refused request before each. -/
def twoResults : List Call := [
  callOf .getResult 1 [("@job_id", .string "j")],
  callOf .setResult 2 [("@job_id", .string "j"), ("parameters", .int 1)],
  callOf .getResult 3 [("@job_id", .string "j")],
  callOf .setResult 4 [("@job_id", .string "j"), ("@api_key", .string "k")],
  callOf .getResult 5 [("@job_id", .string "j")],
  callOf .getResult 6 [("@job_id", .string "j"), ("@api_key", .string "k")]]

theorem results_delivered_twoResults : DeliveredOnce (historyOf twoResults) "j" ∧
    DeliveredLatest (historyOf twoResults) "j" ∧ RefusalsKeepState (historyOf twoResults) :=
  results_delivered (run_historyOf (by decide)) "j"

end Sample

end NixSrv.JobQueue
