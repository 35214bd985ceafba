import NixSrv.JobQueue.Spec
import NixSrv.Records

/-!
# The report on the queues

* `statusWrites`, **`statusDocument_eq`**: the assignments `status` makes;
* `StatusReports`: the reply has the number of jobs and an entry for each queue;
* `Separate`, **`statusReports_iff`**: when it has.
-/

namespace NixSrv.JobQueue

open Json Message Util

/-! ## The assignments -/

/-- The fields of a queue in the report. -/
def queueFields : List String := ["closed", "pending"]

/-- The assignments for the queue `name`. -/
def queueWrites (name : String) (q : Queue Job) : List (String × Value) :=
  [(recordKey "queues" name "closed", .bool q.isClosed),
    (recordKey "queues" name "pending", .int (q.size : ℕ))]

variable (jq : JobQueue)

/-- The assignments under keys of their own, but for the last one. -/
def countWrites : List (String × Value) :=
  [("total_completed", .int jq.completedJobs), ("in_progress", .int jq.inProgress.size),
    ("results_awaiting", .int jq.completed.size)]

/-- The number of jobs that wait in all queues. -/
def totalPending : ℕ := Map.total Queue.size jq.queues

/-- The assignments of `status`, in the order of the map. -/
def statusWrites : List (String × Value) :=
  countWrites jq ++ jq.queues.entries.flatMap (fun e => queueWrites e.1 e.2) ++
    [("total_pending", .int (totalPending jq : ℕ))]

/-- The keys of the code are those of a table of records. -/
theorem recordKey_queues (name : String) :
    recordKey "queues" name "closed" = "queues." ++ name ++ ".closed" ∧
      recordKey "queues" name "pending" = "queues." ++ name ++ ".pending" :=
  ⟨recordKey_eq _ _ _, recordKey_eq _ _ _⟩

/-- The loop over the queues. -/
theorem foldlM_entries (es : List (Sigma fun _ : String => Queue Job)) (out : Members) (n : ℕ) :
    es.foldlM (fun (acc : Members × ℕ) entry => do
      let prefix_ := "queues." ++ entry.1
      let pending : ℕ := entry.2.size
      let out ← acc.1.set (prefix_ ++ ".closed") (.bool entry.2.isClosed)
      let out ← out.set (prefix_ ++ ".pending") (.int pending)
      return (out, acc.2 + pending)) (out, n) =
    (writes (es.flatMap fun e => queueWrites e.1 e.2) out).map
      fun out => (out, n + (es.map fun e => e.2.size).sum) := by
  induction es generalizing out n with
  | nil => rfl
  | cons e es ih =>
    obtain ⟨hclosed, hpending⟩ := recordKey_queues e.1
    rw [List.foldlM_cons, List.flatMap_cons, queueWrites, List.cons_append, List.cons_append,
      List.nil_append, writes_cons, hclosed, hpending]
    cases h₁ : Members.set out ("queues." ++ e.1 ++ ".closed") (.bool e.2.isClosed) with
    | error err => simp only [h₁]; rfl
    | ok out₁ =>
      simp only [h₁, Except.bind, writes_cons]
      cases h₂ : Members.set out₁ ("queues." ++ e.1 ++ ".pending") (.int (e.2.size : ℕ)) with
      | error err => simp only [bind, Except.bind, h₂]; rfl
      | ok out₂ =>
        simp only [bind, Except.bind, h₂]
        refine (ih out₂ (n + e.2.size)).trans ?_
        rw [List.map_cons, List.sum_cons, Nat.add_assoc]

/-- **The document of `status` is made by its assignments.** -/
theorem statusDocument_eq : jq.statusDocument = writes (statusWrites jq) [] := by
  have h₁ : ∀ ms v, Members.set ms "total_completed" v = .ok _ := set_key (by decide)
  have h₂ : ∀ ms v, Members.set ms "in_progress" v = .ok _ := set_key (by decide)
  have h₃ : ∀ ms v, Members.set ms "results_awaiting" v = .ok _ := set_key (by decide)
  rw [statusWrites, writes_append, writes_append]
  simp only [statusDocument, countWrites, writes_cons, writes_nil, h₁, h₂, h₃, bind, Except.bind]
  have hloop := foldlM_entries jq.queues.entries
    (((Members.put "total_completed" (.int jq.completedJobs) []).put "in_progress"
      (.int jq.inProgress.size)).put "results_awaiting" (.int jq.completed.size)) 0
  simp only [bind, Except.bind] at hloop
  rw [hloop]
  cases writes (jq.queues.entries.flatMap fun e => queueWrites e.1 e.2) _ with
  | error e => rfl
  | ok out =>
    simp only [Except.map, Nat.zero_add]
    cases hset : Members.set out "total_pending" (.int (totalPending jq : ℕ)) <;> exact hset

/-! ## Reading the report -/

/-- The reply to `status` has the number of all jobs that wait, and for each queue whether it is
closed and how many jobs wait in it. -/
structure StatusReports (msg : IncomingMessage) : Prop where
  returned : (jq.status msg).ending = .returned
  reply : ∃ m, (jq.status msg).sent = [⟨msg.handle, .reply m⟩] ∧
    (ofMembers m).find "total_pending" = some (.int (totalPending jq : ℕ)) ∧
    ∀ name q, jq.queues.lookup name = some q →
      (ofMembers m).find ("queues." ++ name ++ ".closed") = some (.bool q.isClosed) ∧
      (ofMembers m).find ("queues." ++ name ++ ".pending") = some (.int (q.size : ℕ))

/-- No queue has a name that leads through an entry of another queue, and queues whose names have
the same segments are in the same state. -/
def Separate : Prop :=
  ∀ name q, jq.queues.lookup name = some q → ∀ name' q', jq.queues.lookup name' = some q' →
    (∀ field ∈ queueFields, ¬ segments name ++ [field] <+: segments name') ∧
    (segments name = segments name' → q.isClosed = q'.isClosed ∧ q.size = q'.size)

theorem segments_queues : segments "queues" = ["queues"] := by decide

theorem segments_queueFields : ∀ f ∈ queueFields, segments f = [f] := by decide

/-- The assignments outside of the table of queues. -/
def headWrites : List (String × Value) :=
  countWrites jq ++ [("total_pending", .int (totalPending jq : ℕ))]

theorem keys_headWrites : (headWrites jq).map Prod.fst =
    ["total_completed", "in_progress", "results_awaiting", "total_pending"] := rfl

theorem segments_of_mem_headWrites {w : String × Value} (hw : w ∈ headWrites jq) :
    segments w.1 = [w.1] ∧ w.1 ≠ "queues" ∧ w.1 ≠ "@status_code" := by
  have hkeys : ∀ k ∈ ["total_completed", "in_progress", "results_awaiting", "total_pending"],
      segments k = [k] ∧ k ≠ "queues" ∧ k ≠ "@status_code" := by decide
  exact hkeys w.1 (keys_headWrites jq ▸ List.mem_map_of_mem hw)

theorem outsideTable_of_mem_headWrites {w : String × Value} (hw : w ∈ headWrites jq) :
    OutsideTable "queues" w := by
  obtain ⟨hs, hne, -⟩ := segments_of_mem_headWrites jq hw
  rw [OutsideTable, hs]
  exact ⟨List.cons_ne_nil _ _, by simpa using hne⟩

theorem mem_statusWrites {w : String × Value} : w ∈ statusWrites jq ↔ w ∈ headWrites jq ∨
    ∃ name q, jq.queues.lookup name = some q ∧ w ∈ queueWrites name q := by
  have hentries : (∃ e ∈ jq.queues.entries, w ∈ queueWrites e.1 e.2) ↔
      ∃ name q, jq.queues.lookup name = some q ∧ w ∈ queueWrites name q :=
    ⟨fun ⟨⟨name, q⟩, he, h⟩ => ⟨name, q, AList.mem_lookup_iff.mpr he, h⟩,
      fun ⟨name, q, hl, h⟩ => ⟨⟨name, q⟩, AList.mem_lookup_iff.mp hl, h⟩⟩
  rw [← hentries]
  simp only [statusWrites, headWrites, List.mem_append, List.mem_flatMap]
  exact or_right_comm

/-- What an assignment for a queue assigns, by its field. -/
theorem mem_queueWrites {name : String} {q : Queue Job} {w : String × Value} :
    w ∈ queueWrites name q ↔ w = (recordKey "queues" name "closed", .bool q.isClosed) ∨
      w = (recordKey "queues" name "pending", .int (q.size : ℕ)) := by
  simp [queueWrites]

theorem inTable_of_mem {name : String} {q : Queue Job} (hq : jq.queues.lookup name = some q)
    {w : String × Value} (hw : w ∈ queueWrites name q) :
    InTable "queues" queueFields jq.queues.keys w := by
  have hname : name ∈ jq.queues.keys := AList.mem_keys.mp (Map.mem_of_lookup hq)
  rcases mem_queueWrites.mp hw with rfl | rfl
  · exact ⟨name, hname, "closed", by decide, rfl⟩
  · exact ⟨name, hname, "pending", by decide, rfl⟩

theorem leaves_statusWrites : Leaves (statusWrites jq) := by
  intro w hw
  rcases (mem_statusWrites jq).mp hw with hw | ⟨name, q, hq, hw⟩
  · refine ⟨(outsideTable_of_mem_headWrites jq hw).1, ?_⟩
    simp only [headWrites, countWrites, List.mem_append, List.mem_cons, List.not_mem_nil,
      or_false] at hw
    rcases hw with (rfl | rfl | rfl) | rfl <;> rfl
  · obtain ⟨n, -, f, hf, hk⟩ := inTable_of_mem jq hq hw
    refine ⟨?_, ?_⟩
    · rw [hk, segments_recordKey segments_queues (segments_queueFields f hf)]
      exact List.cons_ne_nil _ _
    · rcases mem_queueWrites.mp hw with rfl | rfl <;> rfl

/-- The keys of two fields have the same path when the fields and the segments of the names are the
same. -/
theorem field_eq_of_segments {n n' f f' : String} (hf : f ∈ queueFields) (hf' : f' ∈ queueFields)
    (h : segments (recordKey "queues" n f) = segments (recordKey "queues" n' f')) :
    segments n = segments n' ∧ f = f' :=
  (segments_recordKey_inj segments_queues (segments_queueFields f hf)
    (segments_queueFields f' hf')).mp h

variable {jq}

theorem Separate.namesApart (h : Separate jq) : NamesApart queueFields jq.queues.keys := by
  intro n hn n' hn' f hf
  obtain ⟨q, hq⟩ := Map.exists_lookup (AList.mem_keys.mpr hn)
  obtain ⟨q', hq'⟩ := Map.exists_lookup (AList.mem_keys.mpr hn')
  exact (h n q hq n' q' hq').1 f hf

/-- Assignments outside of the table have paths of their own. -/
theorem eq_of_mem_headWrites {w w' : String × Value} (hw : w ∈ headWrites jq)
    (hw' : w' ∈ headWrites jq) (hs : segments w'.1 = segments w.1) : w' = w := by
  rw [(segments_of_mem_headWrites jq hw).1, (segments_of_mem_headWrites jq hw').1] at hs
  have hkey := (List.cons.inj hs).1
  simp only [headWrites, countWrites, List.mem_append, List.mem_cons, List.not_mem_nil,
    or_false] at hw hw'
  rcases hw with (rfl | rfl | rfl) | rfl <;> rcases hw' with (rfl | rfl | rfl) | rfl <;>
    first | rfl | exact absurd hkey (by simp)

/-- An assignment for a queue and one outside of the table have different paths. -/
theorem segments_ne_of_mem {w w' : String × Value} (hw : w ∈ headWrites jq) {name : String}
    {q : Queue Job} (hq : jq.queues.lookup name = some q) (hw' : w' ∈ queueWrites name q) :
    segments w'.1 ≠ segments w.1 := by
  obtain ⟨n, -, f, hf, hk⟩ := inTable_of_mem jq hq hw'
  have hout := (outsideTable_of_mem_headWrites jq hw).2
  rw [hk, segments_recordKey segments_queues (segments_queueFields f hf)]
  intro hs
  rw [← hs] at hout
  exact hout rfl

/-- Where the queues are separate, the assignments under one path agree. -/
theorem Separate.eq_of_segments (h : Separate jq) {w w' : String × Value}
    (hw : w ∈ statusWrites jq) (hw' : w' ∈ statusWrites jq)
    (hs : segments w'.1 = segments w.1) : w'.2 = w.2 := by
  rcases (mem_statusWrites jq).mp hw with hw | ⟨name, q, hq, hw⟩ <;>
    rcases (mem_statusWrites jq).mp hw' with hw' | ⟨name', q', hq', hw'⟩
  · rw [eq_of_mem_headWrites hw hw' hs]
  · exact absurd hs (segments_ne_of_mem hw hq' hw')
  · exact absurd hs.symm (segments_ne_of_mem hw' hq hw)
  · rcases mem_queueWrites.mp hw with rfl | rfl <;> rcases mem_queueWrites.mp hw' with rfl | rfl <;>
      obtain ⟨hn, hf⟩ := field_eq_of_segments (by decide) (by decide) hs
    · exact congrArg Value.bool ((h _ _ hq' _ _ hq).2 hn).1
    · exact absurd hf (by decide)
    · exact absurd hf (by decide)
    · exact congrArg (fun n : ℕ => Value.int n) ((h _ _ hq' _ _ hq).2 hn).2

/-- What is read of a report that was sent is what was written. -/
theorem find_report {w : String × Value} (hw : w ∈ statusWrites jq) (out : Members) :
    (ofMembers (out.setStatusCode .ok)).find w.1 = findFrom (segments w.1) (.object out) := by
  rcases (mem_statusWrites jq).mp hw with hw | ⟨name, q, hq, hw⟩
  · obtain ⟨hk, -, hne⟩ := segments_of_mem_headWrites jq hw
    exact find_setStatusCode hk hne out .ok
  · obtain ⟨n, -, f, hf, hk⟩ := inTable_of_mem jq hq hw
    rw [hk]
    exact find_setStatusCode (segments_recordKey segments_queues (segments_queueFields f hf) n)
      (by decide) out .ok

theorem total_mem : ("total_pending", Value.int (totalPending jq : ℕ)) ∈ statusWrites jq :=
  List.mem_append_right _ (List.mem_singleton_self _)

theorem closed_mem {name : String} {q : Queue Job} (hq : jq.queues.lookup name = some q) :
    ("queues." ++ name ++ ".closed", Value.bool q.isClosed) ∈ statusWrites jq := by
  rw [← (recordKey_queues name).1]
  exact (mem_statusWrites jq).mpr (Or.inr ⟨name, q, hq, mem_queueWrites.mpr (Or.inl rfl)⟩)

theorem pending_mem {name : String} {q : Queue Job} (hq : jq.queues.lookup name = some q) :
    ("queues." ++ name ++ ".pending", Value.int (q.size : ℕ)) ∈ statusWrites jq := by
  rw [← (recordKey_queues name).2]
  exact (mem_statusWrites jq).mpr (Or.inr ⟨name, q, hq, mem_queueWrites.mpr (Or.inr rfl)⟩)

/-- **The report holds every queue when the queues are separate.** -/
theorem statusReports_of_separate (h : Separate jq) (msg : IncomingMessage) :
    StatusReports jq msg := by
  have hn : NoneThrough (statusWrites jq) := by
    refine noneThrough_of_namesApart segments_queues segments_queueFields
      (noneThrough_of_length fun w hw => by rw [(segments_of_mem_headWrites jq hw).1]; rfl)
      (fun w => outsideTable_of_mem_headWrites jq) (fun w hw => ?_) h.namesApart
    rcases (mem_statusWrites jq).mp hw with hw | ⟨name, q, hq, hw⟩
    · exact Or.inl hw
    · exact Or.inr (inTable_of_mem jq hq hw)
  obtain ⟨out, hout, hv, -⟩ := find_of_writes (leaves_statusWrites jq) hn
  have hread : ∀ w ∈ statusWrites jq,
      (ofMembers (out.setStatusCode .ok)).find w.1 = some w.2 := by
    intro w hw
    rw [find_report hw, hv w hw]
    exact lastWritten_eq_of_mem hw fun w' hw' hs => h.eq_of_segments hw hw' hs
  have hstatus : jq.status msg = .returned jq [msg.reply out] := by
    rw [status, statusDocument_eq, hout]
  have htotal := hread _ total_mem
  refine ⟨by rw [hstatus], out.setStatusCode .ok, by rw [hstatus]; rfl, htotal, fun name q hq => ?_⟩
  have hclosed := hread _ (closed_mem hq)
  have hpending := hread _ (pending_mem hq)
  exact ⟨hclosed, hpending⟩

/-- Queues that the report holds are separate. -/
theorem separate_of_statusReports {msg : IncomingMessage} (h : StatusReports jq msg) :
    Separate jq := by
  obtain ⟨hret, m, hsent, -, hfound⟩ := h
  obtain ⟨out, hout, rfl⟩ : ∃ out, writes (statusWrites jq) [] = .ok out ∧
      m = out.setStatusCode .ok := by
    rw [status, statusDocument_eq] at hsent
    cases hw : writes (statusWrites jq) [] with
    | error e => rw [hw] at hsent; cases hsent
    | ok out =>
      rw [hw] at hsent
      cases hsent
      exact ⟨out, rfl, rfl⟩
  have hl := leaves_statusWrites jq
  have hclosed : ∀ name q, jq.queues.lookup name = some q →
      findFrom (segments ("queues." ++ name ++ ".closed")) (.object out) =
        some (.bool q.isClosed) :=
    fun name q hq => (find_report (closed_mem hq) out).symm.trans (hfound name q hq).1
  have hpending : ∀ name q, jq.queues.lookup name = some q →
      findFrom (segments ("queues." ++ name ++ ".pending")) (.object out) =
        some (.int (q.size : ℕ)) :=
    fun name q hq => (find_report (pending_mem hq) out).symm.trans (hfound name q hq).2
  have hnames : NamesApart queueFields jq.queues.keys := by
    refine namesApart_of_read segments_queues segments_queueFields hl hout ?_ ?_
    · intro n hn f hf
      obtain ⟨q, hq⟩ := Map.exists_lookup (AList.mem_keys.mpr hn)
      have hf' : f = "closed" ∨ f = "pending" := by simpa [queueFields] using hf
      rcases hf' with rfl | rfl
      · exact ⟨.bool q.isClosed, by rw [(recordKey_queues n).1]; exact closed_mem hq⟩
      · exact ⟨.int (q.size : ℕ), by rw [(recordKey_queues n).2]; exact pending_mem hq⟩
    · intro n hn
      obtain ⟨q, hq⟩ := Map.exists_lookup (AList.mem_keys.mpr hn)
      refine ⟨"closed", by decide, ?_⟩
      rw [(recordKey_queues n).1, hclosed n q hq]
      exact Option.some_ne_none _
  intro name q hq name' q' hq'
  refine ⟨hnames name (AList.mem_keys.mp (Map.mem_of_lookup hq)) name'
    (AList.mem_keys.mp (Map.mem_of_lookup hq')), fun hs => ?_⟩
  have hkey : ∀ f ∈ queueFields, segments (recordKey "queues" name f) =
      segments (recordKey "queues" name' f) := fun f hf =>
    (segments_recordKey_inj segments_queues (segments_queueFields f hf)
      (segments_queueFields f hf)).mpr ⟨hs, rfl⟩
  have hc := hclosed name q hq
  have hp := hpending name q hq
  rw [← (recordKey_queues name).1, hkey "closed" (by decide), (recordKey_queues name').1,
    hclosed name' q' hq'] at hc
  rw [← (recordKey_queues name).2, hkey "pending" (by decide), (recordKey_queues name').2,
    hpending name' q' hq'] at hp
  have hsize := Value.int.inj (Option.some.inj hp)
  exact ⟨(Value.bool.inj (Option.some.inj hc)).symm, by omega⟩

theorem lookup_of_perm {jq' : JobQueue} (h : jq'.queues.entries.Perm jq.queues.entries)
    (name : String) : jq'.queues.lookup name = jq.queues.lookup name :=
  AList.perm_lookup h

/-- **In every order of the map, the reply holds a report on every queue, exactly when the queues
are separate.** -/
theorem statusReports_iff (jq : JobQueue) (msg : IncomingMessage) :
    (∀ jq' : JobQueue, jq'.queues.entries.Perm jq.queues.entries → StatusReports jq' msg) ↔
      Separate jq := by
  constructor
  · exact fun h => separate_of_statusReports (h jq (List.Perm.refl _))
  · intro h jq' hperm
    refine statusReports_of_separate (fun name q hq name' q' hq' => ?_) msg
    rw [lookup_of_perm hperm] at hq hq'
    exact h name q hq name' q' hq'

section Sample

attribute [local instance] Jsoncpp.integral

/-- Requests that create the queues `q` and `q.closed`. -/
def nestedNames : List Call := ["q", "q.closed"].zipIdx.map fun name =>
  callOf .manage name.2 [("queue", .string name.1), ("create", .object [])]

/-- Two requests create the queues, and the report cannot hold both. -/
theorem not_statusReports_nestedNames :
    Transition.Run system (historyOf nestedNames) (stateAfter nestedNames) ∧
      (stateAfter nestedNames).queues.keys = ["q.closed", "q"] ∧
      ∀ msg, ¬ StatusReports (stateAfter nestedNames) msg := by
  have hkeys : (stateAfter nestedNames).queues.keys = ["q.closed", "q"] := by decide
  refine ⟨run_historyOf (by decide), hkeys, fun msg h => ?_⟩
  have hmem : ∀ name ∈ ["q.closed", "q"],
      ∃ q, (stateAfter nestedNames).queues.lookup name = some q :=
    fun name hn => Map.exists_lookup (AList.mem_keys.mpr (hkeys ▸ hn))
  obtain ⟨q, hq⟩ := hmem "q" (by decide)
  obtain ⟨q', hq'⟩ := hmem "q.closed" (by decide)
  exact (separate_of_statusReports h "q" q hq "q.closed" q' hq').1 "closed" (by decide) (by decide)

end Sample

end NixSrv.JobQueue
