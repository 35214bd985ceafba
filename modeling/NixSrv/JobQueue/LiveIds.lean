import NixSrv.JobQueue.Pending

/-!
# Ids of live jobs

A job is live from its acceptance until it is dropped or its result is collected. The history of a
run determines the live jobs, in the order of their acceptance (`live`).

* **`live_of_run`**: how the live jobs show in the containers of the module;
* **`uniqueIds_snoc`**: a step keeps the live ids distinct when it accepts no job with a live id;
* `LiveIdsUnique`, `AcceptsFresh`, **`live_ids_unique_iff`**: when live ids are unique throughout a
  run and no tracking entry is overwritten.
-/

namespace NixSrv.JobQueue

open Json Transition

/-! ## Live jobs -/

inductive Stage where
  | pending (queue : String)
  /-- Handed to a worker and not reported. -/
  | working
  | completed
  deriving DecidableEq, Repr

structure LiveJob where
  id : String
  stage : Stage
  deriving DecidableEq, Repr

/-- The first job pending in the queue goes to a worker. -/
def handOver (queue : String) : List LiveJob → List LiveJob
  | [] => []
  | l :: ls =>
    if l.stage = .pending queue then { l with stage := .working } :: ls else l :: handOver queue ls

/-- A job that a worker has is completed when its id is reported. -/
def LiveJob.report (ids : List String) (l : LiveJob) : LiveJob :=
  if l.id ∈ ids ∧ l.stage = .working then { l with stage := .completed } else l

/-- The ids of the jobs pending in the queue. -/
def pendingIn (queue : String) (ls : List LiveJob) : List String :=
  (ls.filter fun l => l.stage = .pending queue).map LiveJob.id

section Live

variable [Jsoncpp]

/-- The job is pending in a queue that the `manage` request empties. -/
def LiveJob.DroppedBy (msg : IncomingMessage) (l : LiveJob) : Prop :=
  match l.stage with
  | .pending queue => Empties msg queue
  | _ => False

instance (msg : IncomingMessage) (l : LiveJob) : Decidable (l.DroppedBy msg) := by
  unfold LiveJob.DroppedBy; split <;> infer_instance

/-- What a step does to the live jobs. -/
def advance (ls : List LiveJob) (m : Move) : List LiveJob :=
  match m.event with
  | .request ⟨.submit, _, _⟩ =>
    match accepts m with
    | some (queue, job) =>
      ls ++ [⟨job.id, if passesOn m.pre queue then .working else .pending queue⟩]
    | none => ls
  | .request ⟨.getWork, _, msg⟩ => if okIn m msg then handOver (moduleOf msg) ls else ls
  | .request ⟨.setResult, _, _⟩ => ls.map (·.report (reportedIn m))
  | .request ⟨.getResult, _, _⟩ =>
    ls.filter fun l => ¬ (l.id ∈ collectedIn m ∧ l.stage = .completed)
  | .request ⟨.manage, _, msg⟩ => ls.filter fun l => ¬ l.DroppedBy msg
  | _ => ls

/-- The live jobs after a run, in the order of their acceptance. -/
def live (tr : List Move) : List LiveJob := tr.foldl advance []

@[simp] theorem live_snoc (tr : List Move) (m : Move) : live (tr ++ [m]) = advance (live tr) m := by
  simp [live]

/-! ## Pending jobs -/

omit [Jsoncpp] in
theorem pendingIn_append (queue : String) (ls ls' : List LiveJob) :
    pendingIn queue (ls ++ ls') = pendingIn queue ls ++ pendingIn queue ls' := by
  rw [pendingIn, List.filter_append, List.map_append]
  rfl

omit [Jsoncpp] in
theorem pendingIn_filter {queue : String} {p : LiveJob → Bool} {ls : List LiveJob}
    (h : ∀ l ∈ ls, l.stage = .pending queue → p l = true) :
    pendingIn queue (ls.filter p) = pendingIn queue ls := by
  rw [pendingIn, List.filter_filter]
  refine congrArg (List.map LiveJob.id) (List.filter_congr fun l hl => ?_)
  by_cases hs : l.stage = .pending queue
  · simp [hs, h l hl hs]
  · simp [hs]

omit [Jsoncpp] in
@[simp] theorem id_report (ids : List String) (l : LiveJob) : (l.report ids).id = l.id := by
  unfold LiveJob.report
  split_ifs <;> rfl

omit [Jsoncpp] in
theorem stage_report_eq_pending {ids : List String} {l : LiveJob} {queue : String} :
    (l.report ids).stage = .pending queue ↔ l.stage = .pending queue := by
  unfold LiveJob.report
  split_ifs with h
  · simp [h.2]
  · rfl

omit [Jsoncpp] in
theorem pendingIn_report (queue : String) (ids : List String) (ls : List LiveJob) :
    pendingIn queue (ls.map (·.report ids)) = pendingIn queue ls := by
  induction ls with
  | nil => rfl
  | cons l ls ih =>
    unfold pendingIn at ih ⊢
    by_cases hl : l.stage = .pending queue
    · rw [List.map_cons, List.filter_cons_of_pos (by simp [stage_report_eq_pending, hl]),
        List.filter_cons_of_pos (by simp [hl]), List.map_cons, List.map_cons, ih, id_report]
    · rw [List.map_cons, List.filter_cons_of_neg (by simp [stage_report_eq_pending, hl]),
        List.filter_cons_of_neg (by simp [hl]), ih]

omit [Jsoncpp] in
theorem pendingIn_handOver (queue queue' : String) (ls : List LiveJob) :
    pendingIn queue' (handOver queue ls) =
      if queue' = queue then (pendingIn queue ls).tail else pendingIn queue' ls := by
  induction ls with
  | nil => split_ifs <;> rfl
  | cons l ls ih =>
    rw [handOver]
    by_cases hl : l.stage = .pending queue
    · rw [if_pos hl]
      by_cases hq : queue' = queue
      · simp [pendingIn, hq, hl]
      · simp [pendingIn, hl, hq, Ne.symm hq]
    · rw [if_neg hl]
      by_cases hq : queue' = queue
      · rw [if_pos hq] at ih ⊢
        subst hq
        have hcons : pendingIn queue' (l :: handOver queue' ls) =
            pendingIn queue' (handOver queue' ls) := by simp [pendingIn, hl]
        have hcons' : pendingIn queue' (l :: ls) = pendingIn queue' ls := by simp [pendingIn, hl]
        rw [hcons, hcons', ih]
      · rw [if_neg hq] at ih ⊢
        by_cases hl' : l.stage = .pending queue'
        · have hcons : ∀ ls', pendingIn queue' (l :: ls') = l.id :: pendingIn queue' ls' := by
            intro ls'
            simp [pendingIn, hl']
          rw [hcons, hcons, ih]
        · have hcons : ∀ ls', pendingIn queue' (l :: ls') = pendingIn queue' ls' := by
            intro ls'
            simp [pendingIn, hl']
          rw [hcons, hcons, ih]

/-- **A step does to the live jobs pending in a queue what `fifoOp` says.** -/
theorem pendingIn_advance (queue : String) (ls : List LiveJob) (m : Move) :
    pendingIn queue (advance ls m) = (fifoOp queue m).apply (pendingIn queue ls) := by
  obtain ⟨pre, ⟨name', size⟩ | ⟨⟨handler, env, msg⟩⟩, post⟩ := m
  · rfl
  cases handler with
  | submit =>
    simp only [advance, fifoOp]
    cases h : accepts ⟨pre, .request ⟨.submit, env, msg⟩, post⟩ with
    | none => rfl
    | some a =>
      obtain ⟨queue', job⟩ := a
      simp only [pendingIn_append]
      by_cases hq : queue' = queue
      · subst hq
        cases hp : passesOn pre queue' with
        | true => simp [pendingIn, Fifo.Op.apply]
        | false => simp [pendingIn, Fifo.Op.apply]
      · cases hp : passesOn pre queue' with
        | true => simp [pendingIn, Fifo.Op.apply, hq]
        | false => simp [pendingIn, Fifo.Op.apply, hq]
  | getWork =>
    simp only [advance, fifoOp]
    by_cases hok : okIn ⟨pre, .request ⟨.getWork, env, msg⟩, post⟩ msg = true
    · rw [if_pos hok, pendingIn_handOver]
      by_cases hq : queue = moduleOf msg
      · rw [if_pos hq, if_pos ⟨hq.symm, hok⟩, hq]
        rfl
      · rw [if_neg hq, if_neg fun h => hq h.1.symm]
        rfl
    · rw [if_neg hok, if_neg fun h => hok h.2]
      rfl
  | manage =>
    simp only [advance, fifoOp]
    by_cases he : Empties msg queue
    · rw [if_pos he]
      have hnil : (List.filter (fun l => l.stage = .pending queue)
          (ls.filter fun l => ¬ l.DroppedBy msg)) = [] := by
        rw [List.filter_filter, List.filter_eq_nil_iff]
        intro l _ hl
        simp only [Bool.and_eq_true, decide_eq_true_eq, decide_not, Bool.not_eq_true',
          decide_eq_false_iff_not] at hl
        refine hl.2 ?_
        simp only [LiveJob.DroppedBy, hl.1]
        exact he
      rw [pendingIn, hnil]
      rfl
    · rw [if_neg he]
      refine pendingIn_filter fun l _ hl => ?_
      simp only [LiveJob.DroppedBy, hl, decide_not, he, decide_false, Bool.not_false]
  | setResult =>
    simp only [advance, fifoOp, Fifo.Op.apply]
    exact pendingIn_report queue _ ls
  | getResult =>
    simp only [advance, fifoOp, Fifo.Op.apply]
    refine pendingIn_filter fun l _ hl => ?_
    simp [hl]
  | setProgress | status => rfl

/-! ## Jobs that have left their queue -/

omit [Jsoncpp] in
theorem map_id_handOver (queue : String) (ls : List LiveJob) :
    (handOver queue ls).map LiveJob.id = ls.map LiveJob.id := by
  induction ls with
  | nil => rfl
  | cons l ls ih =>
    rw [handOver]
    split_ifs
    · rfl
    · rw [List.map_cons, List.map_cons, ih]

omit [Jsoncpp] in
/-- The first job pending in the queue is the one handed over. -/
theorem mem_handOver_head {queue j : String} {rest : List String} {ls : List LiveJob}
    (h : pendingIn queue ls = j :: rest) : ⟨j, .working⟩ ∈ handOver queue ls := by
  induction ls with
  | nil => cases h
  | cons l ls ih =>
    rw [handOver]
    by_cases hl : l.stage = .pending queue
    · have hcons : pendingIn queue (l :: ls) = l.id :: pendingIn queue ls := by simp [pendingIn, hl]
      rw [hcons] at h
      rw [if_pos hl, ← (List.cons.inj h).1]
      exact List.mem_cons_self
    · have hcons : pendingIn queue (l :: ls) = pendingIn queue ls := by simp [pendingIn, hl]
      rw [hcons] at h
      rw [if_neg hl]
      exact List.mem_cons_of_mem _ (ih h)

omit [Jsoncpp] in
/-- Handing over one job leaves the others as they are. -/
theorem mem_handOver {queue : String} {ls : List LiveJob} {l : LiveJob}
    (hl : ∀ queue', l.stage ≠ .pending queue') (h : l ∈ ls) : l ∈ handOver queue ls := by
  induction ls with
  | nil => cases h
  | cons l' ls ih =>
    rw [handOver]
    rcases List.mem_cons.mp h with rfl | h
    · rw [if_neg (hl queue)]
      exact List.mem_cons_self
    · split_ifs
      · exact List.mem_cons_of_mem _ h
      · exact List.mem_cons_of_mem _ (ih h)

omit [Jsoncpp] in
theorem mem_of_mem_handOver {queue : String} {ls : List LiveJob} {l : LiveJob}
    (hl : l.stage ≠ .working) (h : l ∈ handOver queue ls) : l ∈ ls := by
  induction ls with
  | nil => cases h
  | cons l' ls ih =>
    rw [handOver] at h
    split_ifs at h
    · rcases List.mem_cons.mp h with rfl | h
      · exact absurd rfl hl
      · exact List.mem_cons_of_mem _ h
    · rcases List.mem_cons.mp h with rfl | h
      · exact List.mem_cons_self
      · exact List.mem_cons_of_mem _ (ih h)

/-- A job that a worker has stays with it until it is reported. -/
theorem working_advance {ls : List LiveJob} {m : Move} {j : String}
    (h : ⟨j, .working⟩ ∈ ls) (hr : j ∉ reportedIn m) : ⟨j, .working⟩ ∈ advance ls m := by
  obtain ⟨pre, ⟨name', size⟩ | ⟨⟨handler, env, msg⟩⟩, post⟩ := m
  · exact h
  cases handler with
  | submit =>
    simp only [advance]
    split
    · exact List.mem_append_left _ h
    · exact h
  | getWork =>
    simp only [advance]
    split_ifs
    · exact mem_handOver (fun _ => Stage.noConfusion) h
    · exact h
  | setResult =>
    refine List.mem_map.mpr ⟨_, h, if_neg fun h' => hr h'.1⟩
  | getResult => exact List.mem_filter.mpr ⟨h, by simp⟩
  | manage => exact List.mem_filter.mpr ⟨h, by simp [LiveJob.DroppedBy]⟩
  | setProgress | status => exact h

/-- A job becomes completed when it is reported, and is so until its result is collected. -/
theorem completed_advance {ls : List LiveJob} {m : Move} {j : String}
    (h : ⟨j, .completed⟩ ∈ advance ls m) :
    (⟨j, .completed⟩ ∈ ls ∧ j ∉ collectedIn m) ∨ j ∈ reportedIn m := by
  obtain ⟨pre, ⟨name', size⟩ | ⟨⟨handler, env, msg⟩⟩, post⟩ := m
  · exact Or.inl ⟨h, List.not_mem_nil⟩
  cases handler with
  | submit =>
    refine Or.inl ⟨?_, List.not_mem_nil⟩
    simp only [advance] at h
    split at h
    · rcases List.mem_append.mp h with h | h
      · exact h
      · have hs := congrArg LiveJob.stage (List.mem_singleton.mp h)
        split_ifs at hs
    · exact h
  | getWork =>
    refine Or.inl ⟨?_, List.not_mem_nil⟩
    simp only [advance] at h
    split_ifs at h
    · exact mem_of_mem_handOver Stage.noConfusion h
    · exact h
  | setResult =>
    obtain ⟨l, hl, he⟩ := List.mem_map.mp h
    by_cases hr : l.id ∈ reportedIn ⟨pre, .request ⟨.setResult, env, msg⟩, post⟩ ∧
        l.stage = .working
    · refine Or.inr ?_
      have hid : l.id = j := (id_report _ l).symm.trans (congrArg LiveJob.id he)
      rw [← hid]
      exact hr.1
    · rw [LiveJob.report, if_neg hr] at he
      exact Or.inl ⟨he ▸ hl, List.not_mem_nil⟩
  | getResult =>
    obtain ⟨hl, hc⟩ := List.mem_filter.mp h
    exact Or.inl ⟨hl, fun hj => by simp [hj] at hc⟩
  | manage => exact Or.inl ⟨(List.mem_filter.mp h).1, List.not_mem_nil⟩
  | setProgress | status => exact Or.inl ⟨h, List.not_mem_nil⟩

/-- How the live jobs show in the containers. -/
structure Shows (tr : List Move) (jq : JobQueue) : Prop where
  pending : ∀ queue, pendingIn queue (live tr) = pendingIds jq queue
  working : ∀ j ∈ jq.inProgress, ⟨j, .working⟩ ∈ live tr
  completed : ∀ j, ⟨j, .completed⟩ ∈ live tr → j ∈ jq.completed

/-- A result that was reported, or was there and is not collected, is there after the call. -/
theorem mem_completed_handle {jq : JobQueue} {c : Call} (post : JobQueue) {j : String}
    (h : (j ∈ jq.completed ∧ j ∉ collectedIn ⟨jq, c, post⟩) ∨ j ∈ reportedIn ⟨jq, c, post⟩) :
    j ∈ (jq.handle c).state.completed := by
  rw [← resulted_eq_one]
  cases track_cases jq c post j with
  | other _ hr _ _ hd | handed _ hr _ _ hd =>
    rcases h with ⟨h, -⟩ | h
    · rw [hd]
      exact resulted_eq_one.mpr h
    · exact absurd h (List.count_eq_zero.mp hr)
  | reported _ _ _ _ _ _ _ hd => exact hd
  | collected _ hr hc _ _ _ =>
    rcases h with ⟨-, h⟩ | h
    · rw [List.count_eq_zero.mpr h] at hc
      cases hc
    · exact absurd h (List.count_eq_zero.mp hr)

/-- A job in progress after a call was handed out by it, or was in progress and is not reported. -/
theorem mem_inProgress_before {jq : JobQueue} {c : Call} (post : JobQueue) {j : String}
    (h : j ∈ (jq.handle c).state.inProgress) :
    j ∈ handedIn ⟨jq, c, post⟩ ∨ (j ∈ jq.inProgress ∧ j ∉ reportedIn ⟨jq, c, post⟩) := by
  rw [← tracked_eq_one] at h
  cases track_cases jq c post j with
  | other _ hr _ ht _ | collected _ hr _ ht _ _ =>
    exact Or.inr ⟨tracked_eq_one.mp (ht.symm.trans h), List.count_eq_zero.mp hr⟩
  | handed hh _ _ _ _ => exact Or.inl (List.count_pos_iff.mp (by omega))
  | reported _ _ _ _ _ _ ht _ => rw [ht] at h; cases h

/-- The job a `get_work` hands out is the first one pending in its queue. -/
theorem pendingIds_of_mem_handedIn {jq : JobQueue} {c : Call} {post : JobQueue} {j : String}
    (h : j ∈ handedIn ⟨jq, c, post⟩) : ∃ env msg rest, c = .request ⟨.getWork, env, msg⟩ ∧
      okIn ⟨jq, c, post⟩ msg = true ∧ pendingIds jq (moduleOf msg) = j :: rest := by
  obtain ⟨name', size⟩ | ⟨⟨handler, env, msg⟩⟩ := c
  · cases h
  cases handler with
  | getWork =>
    cases getWork_cases jq msg with
    | noQueue _ _ he | waits _ _ _ _ he | noList _ _ _ he | parked _ _ _ _ _ he =>
      simp [handedIn, sentIn, handle, handleRequest, he] at h
    | handed q job rest hq ho hj he =>
      have hid : j = job.id := by
        simpa [handedIn, sentIn, handle, handleRequest, he] using h
      refine ⟨env, msg, rest.map Job.id, rfl, ?_, ?_⟩
      · simp [okIn, sentIn, handle, handleRequest, he]
      · simp [pendingIds, idsIn, hq, hj, hid]
  | submit | setProgress | setResult | getResult | manage | status => cases h

/-- **The live jobs of a run and the containers of the module.** -/
theorem live_of_run {tr : List Move} {jq : JobQueue} (hr : Run system tr jq) : Shows tr jq := by
  induction hr with
  | nil h =>
    cases h
    exact ⟨fun _ => rfl, fun _ h => absurd h (AList.notMem_empty _), fun _ h => by cases h⟩
  | @snoc tr s s' c hr hs ih =>
    obtain ⟨hfin, rfl⟩ := step_iff.mp hs
    refine ⟨fun queue => ?_, fun j hj => ?_, fun j hj => ?_⟩
    · rw [live_snoc, pendingIn_advance, ih.pending, pendingIds_handle hfin]
    · rw [live_snoc]
      rcases mem_inProgress_before (s.handle c).state hj with hj | ⟨hj, hno⟩
      · obtain ⟨env, msg, rest, rfl, hok, hpend⟩ := pendingIds_of_mem_handedIn hj
        rw [← ih.pending] at hpend
        simp only [advance, hok, if_true]
        exact mem_handOver_head hpend
      · exact working_advance (ih.working j hj) hno
    · rw [live_snoc] at hj
      refine mem_completed_handle (s.handle c).state ?_
      rcases completed_advance hj with ⟨h, hc⟩ | h
      · exact Or.inl ⟨ih.completed j h, hc⟩
      · exact Or.inr h

/-! ## Unique ids -/

/-- No job is accepted with the id of a live job. -/
def AcceptsFresh (hist : List Move) (m : Move) : Prop :=
  ∀ a ∈ accepts m, a.2.id ∉ (live hist).map LiveJob.id

instance (hist : List Move) (m : Move) : Decidable (AcceptsFresh hist m) := by
  unfold AcceptsFresh; infer_instance

/-- No two live jobs have the same id. -/
def UniqueIds (tr : List Move) : Prop := ((live tr).map LiveJob.id).Nodup

instance (tr : List Move) : Decidable (UniqueIds tr) := by unfold UniqueIds; infer_instance

theorem map_id_advance (ls : List LiveJob) (m : Move) :
    ((advance ls m).map LiveJob.id).Sublist
      (ls.map LiveJob.id ++ ((accepts m).map fun a => a.2.id).toList) := by
  have hkeep : (ls.map LiveJob.id).Sublist
      (ls.map LiveJob.id ++ ((accepts m).map fun a => a.2.id).toList) :=
    List.sublist_append_left _ _
  have hfilter : ∀ p : LiveJob → Bool, ((ls.filter p).map LiveJob.id).Sublist
      (ls.map LiveJob.id ++ ((accepts m).map fun a => a.2.id).toList) :=
    fun p => (List.filter_sublist.map LiveJob.id).trans hkeep
  obtain ⟨pre, ⟨name', size⟩ | ⟨⟨handler, env, msg⟩⟩, post⟩ := m
  · exact hkeep
  cases handler with
  | submit =>
    simp only [advance]
    split
    · rename_i ha
      rw [ha, List.map_append]
      exact List.Sublist.refl _
    · exact hkeep
  | getWork =>
    simp only [advance]
    split_ifs
    · rw [map_id_handOver]
      exact hkeep
    · exact hkeep
  | setResult =>
    have hmap : (ls.map (·.report (reportedIn ⟨pre, .request ⟨.setResult, env, msg⟩, post⟩))).map
        LiveJob.id = ls.map LiveJob.id := by
      rw [List.map_map]
      exact List.map_congr_left fun l _ => id_report _ l
    simp only [advance, hmap]
    exact hkeep
  | getResult | manage => exact hfilter _
  | setProgress | status => exact hkeep

/-- **A step keeps the live ids unique if and only if it accepts no job with a live id.** -/
theorem uniqueIds_snoc {tr : List Move} {m : Move} (hu : UniqueIds tr) :
    UniqueIds (tr ++ [m]) ↔ AcceptsFresh tr m := by
  unfold UniqueIds AcceptsFresh
  rw [live_snoc]
  have hsub := map_id_advance (live tr) m
  cases ha : accepts m with
  | none =>
    rw [ha] at hsub
    simp only [Option.map_none, Option.toList_none, List.append_nil] at hsub
    exact ⟨fun _ _ h => (by cases h), fun _ => hu.sublist hsub⟩
  | some a =>
    obtain ⟨queue, job⟩ := a
    obtain ⟨env, msg, he⟩ := accepts_submit ha
    have hadv : (advance (live tr) m).map LiveJob.id = (live tr).map LiveJob.id ++ [job.id] := by
      obtain ⟨pre, c, post⟩ := m
      cases he
      simp only [advance, ha, List.map_append]
      rfl
    rw [hadv, List.nodup_append]
    constructor
    · rintro ⟨-, -, hne⟩ b hb hmem
      cases hb
      exact hne _ hmem _ (List.mem_singleton_self _) rfl
    · intro hfresh
      refine ⟨hu, List.nodup_singleton _, fun j hj j' hj' he' => ?_⟩
      rw [List.mem_singleton] at hj'
      exact hfresh _ rfl ((he'.trans hj') ▸ hj)

/-- The ids of the live jobs are unique after the step, and the step overwrites no tracking entry
when it accepts or hands out a job. -/
structure LiveIdsUnique (hist : List Move) (m : Move) : Prop where
  unique : UniqueIds (hist ++ [m])
  pending_once : ∀ queue, (pendingIds m.post queue).Nodup
  pending_apart : ∀ queue queue', queue ≠ queue' → ∀ j ∈ pendingIds m.post queue,
    j ∉ pendingIds m.post queue'
  pending_untracked : ∀ queue, ∀ j ∈ pendingIds m.post queue, j ∉ m.post.inProgress
  handed : ∀ j ∈ handedIn m, j ∉ m.pre.inProgress
  accepted : accepts m ≠ none →
    m.post.inProgress = m.pre.inProgress ∧ m.post.completed = m.pre.completed

theorem eq_of_uniqueIds {tr : List Move} (hu : UniqueIds tr) {l l' : LiveJob} (h : l ∈ live tr)
    (h' : l' ∈ live tr) (hid : l.id = l'.id) : l = l' :=
  List.inj_on_of_nodup_map hu h h' hid

theorem mem_live_of_mem_pendingIds {tr : List Move} {jq : JobQueue} (hs : Shows tr jq)
    {queue j : String} (h : j ∈ pendingIds jq queue) : ⟨j, .pending queue⟩ ∈ live tr := by
  rw [← hs.pending] at h
  obtain ⟨l, hl, rfl⟩ := List.mem_map.mp h
  obtain ⟨hmem, hstage⟩ := List.mem_filter.mp hl
  rw [← of_decide_eq_true hstage]
  exact hmem

theorem pendingIds_untracked {tr : List Move} {jq : JobQueue} (hs : Shows tr jq)
    (hu : UniqueIds tr) {queue j : String} (h : j ∈ pendingIds jq queue) : j ∉ jq.inProgress := by
  intro hj
  have heq := eq_of_uniqueIds hu (mem_live_of_mem_pendingIds hs h) (hs.working j hj) rfl
  cases heq

theorem liveIdsUnique_of_uniqueIds {tr : List Move} {jq jq' : JobQueue} {c : Call}
    (hr : Run system tr jq) (hstep : system.step jq c jq') (hu : UniqueIds tr)
    (hu' : UniqueIds (tr ++ [⟨jq, c, jq'⟩])) : LiveIdsUnique tr ⟨jq, c, jq'⟩ := by
  have hs := live_of_run hr
  have hs' := live_of_run (hr.snoc hstep)
  refine ⟨hu', fun queue => ?_, fun queue queue' hne j hj hj' => ?_, fun queue j hj => ?_,
    fun j hj => ?_, fun ha => ?_⟩
  · rw [← hs'.pending]
    exact hu'.sublist (List.filter_sublist.map LiveJob.id)
  · have heq := eq_of_uniqueIds hu' (mem_live_of_mem_pendingIds hs' hj)
      (mem_live_of_mem_pendingIds hs' hj') rfl
    cases heq
    exact hne rfl
  · exact pendingIds_untracked hs' hu' hj
  · obtain ⟨env, msg, rest, -, -, hpend⟩ := pendingIds_of_mem_handedIn hj
    have hmem : j ∈ pendingIds jq (moduleOf msg) := hpend ▸ List.mem_cons_self
    exact pendingIds_untracked hs hu hmem
  · obtain ⟨a, ha⟩ := Option.ne_none_iff_exists'.mp ha
    obtain ⟨env, msg, rfl⟩ := accepts_submit ha
    rw [(step_iff.mp hstep).2]
    exact ⟨submit_inProgress jq env msg, submit_completed jq env msg⟩

theorem uniqueIds_of_acceptsFresh {tr : List Move} (h : EachMove AcceptsFresh tr) :
    UniqueIds tr := by
  induction tr using List.reverseRecOn with
  | nil => exact List.nodup_nil
  | append_singleton tr m ih =>
    rw [eachMove_snoc] at h
    exact (uniqueIds_snoc (ih h.1)).mpr h.2

/-- **The ids of live jobs are unique throughout a run exactly when no job is accepted with the id
of a live one.** -/
theorem live_ids_unique_iff {tr : List Move} {jq : JobQueue} (hr : Run system tr jq) :
    EachMove LiveIdsUnique tr ↔ EachMove AcceptsFresh tr := by
  refine hr.eachMove_iff fun tr s c s' hr hfresh hs => ?_
  have hu := uniqueIds_of_acceptsFresh hfresh
  constructor
  · intro h
    exact (uniqueIds_snoc hu).mp h.unique
  · intro h
    exact liveIdsUnique_of_uniqueIds hr hs hu ((uniqueIds_snoc hu).mpr h)

end Live

section Sample

attribute [local instance] Jsoncpp.integral

/-- An id is used again after the result of its first job was collected. -/
def reusedId : List Call := [
  .initQueue "q" 2, submitOf 1 "j", callOf .getWork 2 [("module", .string "q")],
  callOf .setResult 3 [("@job_id", .string "j")], callOf .getResult 4 [("@job_id", .string "j")],
  submitOf 5 "j"]

theorem live_ids_unique_iff_reusedId : EachMove LiveIdsUnique (historyOf reusedId) :=
  (live_ids_unique_iff (run_historyOf (by decide))).mpr (by decide)

/-- Two jobs with the same id are accepted and handed out. -/
def sameId : List Call := [
  .initQueue "q" 2, submitOf 1 "j", submitOf 2 "j", callOf .getWork 3 [("module", .string "q")],
  callOf .getWork 4 [("module", .string "q")]]

theorem not_liveIdsUnique_sameId :
    Run system (historyOf sameId) (stateAfter sameId) ∧
    pendingIds (stateAfter (sameId.take 3)) "q" = ["j", "j"] ∧
    "j" ∈ (stateAfter (sameId.take 4)).inProgress ∧
    (historyOf sameId).getLast?.map handedIn = some ["j"] ∧
    ¬ EachMove LiveIdsUnique (historyOf sameId) := by
  refine ⟨run_historyOf (by decide), by decide, by decide, by decide, fun h => ?_⟩
  have hu : UniqueIds (historyOf (sameId.take 3)) := by
    exact h.2.2.1.unique
  exact absurd hu (by decide)

end Sample

end NixSrv.JobQueue
