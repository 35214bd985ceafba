import NixSrv.JobQueue.Pending

/-!
# Conservation of jobs

In a run in which no queue is disabled, accepted jobs have distinct ids and results are reported
once and for jobs handed out, every accepted job is in exactly one place.

* `Proper`: the conditions on the run;
* `quiet_of_run`: no worker is parked;
* **`count_handed`**: a job handed out is in progress, completed or collected;
* **`jobs_conserved`**: both put together.
-/

namespace NixSrv.JobQueue

open Json Transition

section Conservation

variable [Jsoncpp]

/-! ## The conditions -/

/-- The ids of the accepted jobs, in order. -/
def acceptedIds (tr : List Move) : List String := (tr.filterMap accepts).map fun a => a.2.id

/-- The ids of the jobs accepted to the queue `name`, in order. -/
def acceptedTo (name : String) (tr : List Move) : List String :=
  ((tr.filterMap accepts).filter fun a => a.1 = name).map fun a => a.2.id

/-- The `manage` request asks for a queue to be disabled. -/
def Disables (msg : IncomingMessage) : Prop :=
  (msg.isNull "switch_all" = false ∧ msg.getBool "switch_all" true = false) ∨
  (msg.isNull "enable" = false ∧ msg.getBool "enable" true = false)

instance (msg : IncomingMessage) : Decidable (Disables msg) := by unfold Disables; infer_instance

/-- No queue is disabled, accepted jobs have distinct ids, and a result is accepted only for an id
that was handed to a worker and not reported before. -/
def Proper (hist : List Move) (m : Move) : Prop :=
  match m.event with
  | .request ⟨.submit, _, _⟩ => ∀ a ∈ accepts m, a.2.id ∉ acceptedIds hist
  | .request ⟨.manage, _, msg⟩ => ¬ Disables msg
  | .request ⟨.setResult, _, _⟩ =>
    ∀ j ∈ reportedIn m, j ∈ hist.flatMap handedIn ∧ j ∉ hist.flatMap reportedIn
  | _ => True

instance (hist : List Move) (m : Move) : Decidable (Proper hist m) := by
  unfold Proper; split <;> infer_instance

/-! ## No worker is parked -/

/-- All queues are open and no request is parked. -/
structure Quiet (jq : JobQueue) : Prop where
  enabled : ∀ name q, jq.queues.lookup name = some q → q.isClosed = false
  unparked : ∀ name ws, jq.workersAwaiting.lookup name = some ws → ws.q = []

omit [Jsoncpp] in
theorem queueAfterAll_open {msg : IncomingMessage} (hd : ¬ Disables msg) {o : Option (Queue Job)}
    (ho : ∀ q, o = some q → q.isClosed = false) :
    ∀ q, queueAfterAll msg o = some q → q.isClosed = false := by
  intro q h
  have hs : (!msg.isNull "switch_all") = true → msg.getBool "switch_all" true = true := by
    intro hn
    by_contra hb
    exact hd (Or.inl ⟨by simpa using hn, by simpa using hb⟩)
  unfold queueAfterAll at h
  cases o with
  | none => split_ifs at h <;> simp at h
  | some q₀ =>
    have h₀ := ho q₀ rfl
    split_ifs at h <;> simp at h <;> subst h <;> simp_all

theorem queueAfter_open {msg : IncomingMessage} (hd : ¬ Disables msg) {n : ℕ} {name : String}
    {o : Option (Queue Job)} (ho : ∀ q, o = some q → q.isClosed = false) {q' : Queue Job}
    (h : queueAfter msg n name o = some q') : q'.isClosed = false := by
  have hall := queueAfterAll_open hd ho
  unfold queueAfter at h
  split_ifs at h with hn hc
  · cases ha : queueAfterAll msg o with
    | none => rw [ha] at h; cases h; rfl
    | some q₁ => rw [ha] at h; cases h; exact hall q₁ ha
  · obtain ⟨q₁, ha, hown⟩ := Option.bind_eq_some_iff.mp h
    have h₁ := hall q₁ ha
    have he : (!msg.isNull "enable") = true → msg.getBool "enable" true = true := by
      intro hn
      by_contra hb
      exact hd (Or.inr ⟨by simpa using hn, by simpa using hb⟩)
    unfold queueAfterOwn at hown
    split_ifs at hown <;> cases hown <;> simp_all
  · exact hall q' h

theorem Quiet.handle {jq : JobQueue} (hq : Quiet jq) {c : Call} (hfin : (jq.handle c).Finished)
    (hd : ∀ env msg, c = .request ⟨.manage, env, msg⟩ → ¬ Disables msg) :
    Quiet (jq.handle c).state := by
  constructor
  · intro name q h
    cases queue_cases hfin jq name with
    | kept _ h' => exact hq.enabled name q (h'.symm.trans h)
    | created n _ _ h' => rw [h'] at h; cases h; rfl
    | enqueued q₀ job hr _ hq₀ h' => rw [h'] at h; cases h; exact hq.enabled name q₀ hq₀
    | dequeued q₀ _ _ _ hq₀ _ h' => rw [h'] at h; cases h; exact hq.enabled name q₀ hq₀
    | managed env msg n hc h' =>
      rw [h'] at h
      exact queueAfter_open (hd env msg hc) (fun q₀ => hq.enabled name q₀) h
  · intro name ws h
    cases awaiting_cases jq c with
    | kept h' => rw [h'] at h; exact hq.unparked name ws h
    | created name' n hm h' =>
      rw [h', Map.lookup_emplace] at h
      split_ifs at h with he
      · cases ho : jq.workersAwaiting.lookup name' with
        | none => rw [ho] at h; cases h; rfl
        | some ws' => rw [ho] at h; cases h; exact hq.unparked name' _ ho
      · exact hq.unparked name ws h
    | served env msg ws' hc hq' hw h' =>
      rw [h', Map.lookup_insert] at h
      split_ifs at h with he
      · cases h
        rw [Queue.q_dropFront, hq.unparked _ ws' hw]
        rfl
      · exact hq.unparked name ws h
    | parked env msg q ws' hc hq' hcl hw h' =>
      rw [hq.enabled _ q hq'] at hcl
      cases hcl

theorem quiet_of_run {tr : List Move} {jq : JobQueue} (hr : Run system tr jq)
    (hp : EachMove Proper tr) : Quiet jq := by
  refine hr.invariant (I := fun _ s => Quiet s) ?_ ?_ hp
  · rintro s rfl
    exact ⟨fun _ _ h => by simp at h, fun _ _ h => by simp at h⟩
  · intro tr s c s' _ hs hstep hprop
    rw [(step_iff.mp hstep).2]
    refine hs.handle (step_iff.mp hstep).1 fun env msg hc => ?_
    subst hc
    exact hprop

/-! ## Distinct ids -/

theorem nodup_acceptedIds {tr : List Move} (hp : EachMove Proper tr) : (acceptedIds tr).Nodup := by
  induction tr using List.reverseRecOn with
  | nil => exact List.nodup_nil
  | append_singleton tr m ih =>
    rw [eachMove_snoc] at hp
    have hsnoc : acceptedIds (tr ++ [m]) = acceptedIds tr ++ acceptedIds [m] := by
      unfold acceptedIds
      rw [List.filterMap_append, List.map_append]
    rw [hsnoc]
    cases h : accepts m with
    | none =>
      have hnil : acceptedIds [m] = [] := by simp [acceptedIds, h]
      rw [hnil, List.append_nil]
      exact ih hp.1
    | some a =>
      obtain ⟨env, msg, he⟩ := accepts_submit h
      have hone : acceptedIds [m] = [a.2.id] := by simp [acceptedIds, h]
      have hnew : a.2.id ∉ acceptedIds tr := by
        have hprop := hp.2
        simp only [Proper, he] at hprop
        exact hprop a h
      rw [hone]
      refine List.nodup_append.mpr ⟨ih hp.1, List.nodup_singleton _, ?_⟩
      rintro x hx y hy rfl
      exact hnew (List.mem_singleton.mp hy ▸ hx)

theorem acceptedTo_sublist (name : String) (tr : List Move) :
    (acceptedTo name tr).Sublist (acceptedIds tr) :=
  List.filter_sublist.map _

/-- An id is accepted to one queue only. -/
theorem acceptedTo_inj {tr : List Move} (hp : EachMove Proper tr) {name name' j : String}
    (h : j ∈ acceptedTo name tr) (h' : j ∈ acceptedTo name' tr) : name = name' := by
  obtain ⟨a, ha, rfl⟩ := List.mem_map.mp h
  obtain ⟨a', ha', hid⟩ := List.mem_map.mp h'
  obtain ⟨ha, hn⟩ := List.mem_filter.mp ha
  obtain ⟨ha', hn'⟩ := List.mem_filter.mp ha'
  have heq : a' = a := List.inj_on_of_nodup_map (nodup_acceptedIds hp) ha' ha hid
  rw [← of_decide_eq_true hn, ← of_decide_eq_true hn', heq]

/-! ## Jobs handed out -/

theorem mem_handedIn {m : Move} {j : String} (h : j ∈ handedIn m) :
    ∃ name, handedFrom name m = handedIn m := by
  obtain ⟨pre, ⟨name', size⟩ | ⟨⟨handler, env, msg⟩⟩, post⟩ := m
  · cases h
  cases handler with
  | getWork => exact ⟨moduleOf msg, if_pos rfl⟩
  | submit | setProgress | setResult | getResult | manage | status => cases h

theorem handedFrom_cases (name : String) (m : Move) :
    handedFrom name m = handedIn m ∨ handedFrom name m = [] := by
  obtain ⟨pre, ⟨name', size⟩ | ⟨⟨handler, env, msg⟩⟩, post⟩ := m
  · exact Or.inr rfl
  cases handler with
  | getWork =>
    simp only [handedFrom]
    split_ifs
    · exact Or.inl rfl
    · exact Or.inr rfl
  | submit | setProgress | setResult | getResult | manage | status => exact Or.inr rfl

section Run

variable {tr : List Move} {jq : JobQueue} (hr : Run system tr jq) (hp : EachMove Proper tr)

include hr hp

/-- While no worker is parked, every accepted job enters its queue. -/
theorem entered_fifoOp (name : String) : Fifo.entered (fifoOp name) tr = acceptedTo name tr := by
  induction hr with
  | nil _ => rfl
  | @snoc tr s s' c hr hs ih =>
    rw [eachMove_snoc] at hp
    have hquiet := quiet_of_run hr hp.1
    have hpass : passesOn s name = false := by
      unfold passesOn
      cases hw : s.workersAwaiting.lookup name with
      | none => rfl
      | some ws => simp [Queue.size, hquiet.unparked name ws hw]
    have hm : (fifoOp name ⟨s, c, s'⟩).enters = acceptedTo name [⟨s, c, s'⟩] := by
      cases h : accepts ⟨s, c, s'⟩ with
      | none =>
        simp only [acceptedTo, List.filterMap_cons, h, List.filterMap_nil, List.filter_nil,
          List.map_nil, fifoOp]
        split
        · rfl
        · split_ifs <;> rfl
        · split_ifs <;> rfl
        · rfl
      | some a =>
        obtain ⟨env, msg, rfl⟩ := accepts_submit h
        simp only [acceptedTo, List.filterMap_cons, h, List.filterMap_nil, fifoOp, hpass, and_true]
        by_cases hn : a.1 = name
        · simp [hn, Fifo.Op.enters]
        · simp [hn, Fifo.Op.enters]
    have hsnoc : acceptedTo name (tr ++ [⟨s, c, s'⟩]) =
        acceptedTo name tr ++ acceptedTo name [⟨s, c, s'⟩] := by
      unfold acceptedTo
      rw [List.filterMap_append, List.filter_append, List.map_append]
    rw [Fifo.entered_snoc, ih hp.1, hm, hsnoc]

theorem acceptedTo_of_handedFrom {name j : String} (h : j ∈ tr.flatMap (handedFrom name)) :
    j ∈ acceptedTo name tr := by
  rw [(pendingIds_of_run hr name).2.1] at h
  rw [← entered_fifoOp hr hp]
  exact (Fifo.taken_sublist_entered tr).subset h

/-- A job is handed out from the queue it was accepted to. -/
theorem count_handedIn {name j : String} (hj : j ∈ acceptedTo name tr) :
    (tr.flatMap handedIn).count j = (tr.flatMap (handedFrom name)).count j := by
  rw [List.count_flatMap, List.count_flatMap]
  refine congrArg List.sum (List.map_congr_left fun m hm => ?_)
  change (handedIn m).count j = (handedFrom name m).count j
  rcases handedFrom_cases name m with h | h
  · rw [h]
  · rw [h, List.count_nil, List.count_eq_zero]
    intro hjm
    obtain ⟨name', hn⟩ := mem_handedIn hjm
    have hmem : j ∈ tr.flatMap (handedFrom name') :=
      List.mem_flatMap.mpr ⟨m, hm, by rw [hn]; exact hjm⟩
    obtain rfl := acceptedTo_inj hp hj (acceptedTo_of_handedFrom hr hp hmem)
    rw [h] at hn
    rw [← hn] at hjm
    cases hjm

/-- No job is handed out twice. -/
theorem count_handedIn_le (j : String) : (tr.flatMap handedIn).count j ≤ 1 := by
  by_cases h : j ∈ tr.flatMap handedIn
  · obtain ⟨m, hm, hjm⟩ := List.mem_flatMap.mp h
    obtain ⟨name, hn⟩ := mem_handedIn hjm
    have hj := acceptedTo_of_handedFrom hr hp
      (List.mem_flatMap.mpr ⟨m, hm, by rw [hn]; exact hjm⟩ : j ∈ tr.flatMap (handedFrom name))
    rw [count_handedIn hr hp hj, (pendingIds_of_run hr name).2.1]
    calc (Fifo.taken (fifoOp name) tr).count j
        ≤ (acceptedTo name tr).count j := by
          rw [← entered_fifoOp hr hp]
          exact (Fifo.taken_sublist_entered tr).count_le j
      _ ≤ (acceptedIds tr).count j := (acceptedTo_sublist name tr).count_le j
      _ ≤ 1 := List.nodup_iff_count_le_one.mp (nodup_acceptedIds hp) j
  · rw [List.count_eq_zero.mpr h]
    omega

omit hp in
/-- Every result there is, or was collected, has been reported. -/
theorem resulted_le (j : String) :
    resulted jq j + (tr.flatMap collectedIn).count j ≤ (tr.flatMap reportedIn).count j := by
  induction hr with
  | nil h => cases h; exact Nat.le_refl _
  | @snoc tr s s' c hr hs ih =>
    have hbit : resulted s j ≤ 1 := by
      unfold resulted
      split_ifs <;> omega
    rw [(step_iff.mp hs).2]
    simp only [List.flatMap_append, List.flatMap_singleton, List.count_append]
    cases track_cases s c (s.handle c).state j with
    | other _ hr hc _ hd | handed _ hr hc _ hd => omega
    | reported _ _ _ _ hr hc _ hd => omega
    | collected _ hr hc _ hd hd' => omega

/-- **A job handed out is in progress, has a result, or was collected.** -/
theorem count_handed (j : String) : (tr.flatMap handedIn).count j =
    tracked jq j + resulted jq j + (tr.flatMap collectedIn).count j := by
  induction hr with
  | nil h => cases h; rfl
  | @snoc tr s s' c hr hs ih =>
    have hle := count_handedIn_le (hr.snoc hs) hp j
    rw [(step_iff.mp hs).2] at hle hp ⊢
    rw [eachMove_snoc] at hp
    have hold := ih hp.1
    simp only [List.flatMap_append, List.flatMap_singleton, List.count_append] at hle ⊢
    cases track_cases s c (s.handle c).state j with
    | other hh _ hc ht hd => omega
    | handed hh _ hc ht hd => omega
    | reported env msg he hh hrep hc ht hd =>
      -- a job handed out and not yet reported is in progress
      subst he
      obtain ⟨hj, hnew⟩ := hp.2 j (List.count_pos_iff.mp (by omega))
      have hpos := List.count_pos_iff.mpr hj
      have hres := resulted_le hr j
      rw [List.count_eq_zero.mpr hnew] at hres
      omega
    | collected hh _ hc ht hd hd' => omega

end Run

/-! ## Conservation -/

/-- Where an accepted job can be. -/
inductive Place where
  | pending
  | inProgress
  | completed
  | collected
  | dropped
  deriving DecidableEq, Repr

/-- How often the job `j`, accepted to the queue `name`, is in a place. -/
def timesIn (tr : List Move) (jq : JobQueue) (name j : String) : Place → ℕ
  | .pending => (pendingIds jq name).count j
  | .inProgress => tracked jq j
  | .completed => resulted jq j
  | .collected => (tr.flatMap collectedIn).count j
  | .dropped => (tr.flatMap (droppedFrom name)).count j

/-- The job is in exactly one place, once. -/
def InOnePlace (tr : List Move) (jq : JobQueue) (name j : String) : Prop :=
  ∃ p, timesIn tr jq name j p = 1 ∧ ∀ p' ≠ p, timesIn tr jq name j p' = 0

structure Conserved (tr : List Move) (jq : JobQueue) : Prop where
  placed : ∀ m ∈ tr, ∀ name job, accepts m = some (name, job) →
    InOnePlace tr jq name job.id ∧ ∀ name' ≠ name, job.id ∉ pendingIds jq name'
  ordered : ∀ name, (tr.flatMap (handedFrom name)).Sublist (acceptedTo name tr)
  refused : ∀ m ∈ tr, ∀ env msg, m.event = .request ⟨.submit, env, msg⟩ →
    (∃ a ∈ sentIn m, a.isOk = false) → m.post = m.pre

omit [Jsoncpp] in
theorem exists_place {f : Place → ℕ}
    (h : f .pending + f .inProgress + f .completed + f .collected + f .dropped = 1) :
    ∃ p, f p = 1 ∧ ∀ p' ≠ p, f p' = 0 := by
  have hsome : ∃ p, f p ≠ 0 := by
    by_contra hn
    push Not at hn
    simp only [hn] at h
    omega
  obtain ⟨p, hp⟩ := hsome
  refine ⟨p, ?_, fun p' hne => ?_⟩
  · cases p <;> omega
  · cases p <;> cases p' <;> first | exact absurd rfl hne | omega

/-- A `submit` answered with a failure changes nothing. -/
theorem submit_refused (jq : JobQueue) (env : Env) (msg : IncomingMessage)
    (h : ∃ a ∈ (jq.submit env msg).sent, a.isOk = false) : (jq.submit env msg).state = jq := by
  obtain ⟨a, ha, hok⟩ := h
  cases submit_cases jq env msg with
  | refused _ _ _ he | noList _ _ he | closedList _ _ _ he => rw [he]
  | passed _ _ w _ _ _ _ _ _ he =>
    rw [he] at ha
    rw [List.mem_singleton.mp ha, isOk_reply] at hok
    cases hok
  | queued _ _ _ _ _ _ _ he =>
    rw [he] at ha
    rw [List.mem_singleton.mp ha, isOk_reply] at hok
    cases hok

/-- **Conservation of jobs.** -/
theorem jobs_conserved {tr : List Move} {jq : JobQueue} (hr : Run system tr jq)
    (hp : EachMove Proper tr) : Conserved tr jq := by
  refine ⟨fun m hm name job hacc => ?_, fun name => ?_, ?_⟩
  · have hj : job.id ∈ acceptedTo name tr :=
      List.mem_map.mpr ⟨(name, job), List.mem_filter.mpr
        ⟨List.mem_filterMap.mpr ⟨m, hm, hacc⟩, decide_eq_true rfl⟩, rfl⟩
    obtain ⟨hpend, hhand, hdrop⟩ := pendingIds_of_run hr name
    have hone : (acceptedTo name tr).count job.id = 1 := by
      have hle := ((acceptedTo_sublist name tr).count_le job.id).trans
        (List.nodup_iff_count_le_one.mp (nodup_acceptedIds hp) job.id)
      have hpos := List.count_pos_iff.mpr hj
      omega
    have hqueue := Fifo.count_entered (w := fifoOp name) tr job.id
    have htrack := count_handed hr hp job.id
    rw [entered_fifoOp hr hp, ← hpend, ← hhand, ← hdrop] at hqueue
    rw [count_handedIn hr hp hj] at htrack
    refine ⟨exists_place ?_, fun name' hne hmem => hne ?_⟩
    · simp only [timesIn]
      omega
    · have hin : job.id ∈ acceptedTo name' tr := by
        have hcount := Fifo.count_entered (w := fifoOp name') tr job.id
        rw [entered_fifoOp hr hp, ← (pendingIds_of_run hr name').1] at hcount
        have hpos := List.count_pos_iff.mpr hmem
        exact List.count_pos_iff.mp (by omega)
      exact acceptedTo_inj hp hin hj
  · rw [(pendingIds_of_run hr name).2.1, ← entered_fifoOp hr hp]
    exact Fifo.taken_sublist_entered tr
  · refine hr.move_mem fun _ s c s' _ hs => ?_
    rintro env msg rfl hfail
    exact (step_iff.mp hs).2.trans (submit_refused s env msg hfail)

end Conservation

section Sample

attribute [local instance] Jsoncpp.integral

/-- A job is handed out, reported and collected, one is dropped and one refused. -/
def threeJobs : List Call := [
  .initQueue "q" 2, submitOf 1 "j", submitOf 2 "k", submitOf 3 "l",
  callOf .getWork 4 [("module", .string "q")],
  callOf .setResult 5 [("@job_id", .string "j")],
  callOf .getResult 6 [("@job_id", .string "j")],
  callOf .manage 7 [("queue", .string "q"), ("clear", .bool true)]]

theorem jobs_conserved_threeJobs : Conserved (historyOf threeJobs) (stateAfter threeJobs) :=
  jobs_conserved (run_historyOf (by decide)) (by decide)

example : acceptedIds (historyOf threeJobs) = ["j", "k"] := by decide

end Sample

end NixSrv.JobQueue
