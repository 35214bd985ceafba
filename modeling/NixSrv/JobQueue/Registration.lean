import Mathlib.Algebra.BigOperators.Fin
import Mathlib.Algebra.Order.BigOperators.Group.Finset
import NixSrv.JobQueue.Steps
import NixSrv.JobQueue.ThreadSteps

/-!
# Handing out before registering

`get_work` sends a job to its worker and then registers it in `in_progress_`.

* `Server.handedIn`, `reportedIn`, `acknowledgedIn`, `acceptedIn`: the ids a step is about;
* `DistinctIds`, `Causal`: what is assumed of the clients and the workers;
* **`count_step`**, `inProgress_step`, `completed_step`: the effect of a step on one job;
* `InOrder`, **`inOrder_of_run`**: where jobs are relative to the answers that have been sent;
* `RegisteredFirst`, **`never_back`**: a finished job never returns to `in_progress_` as long as no
  result is stored between the sending of its job and the registration.
-/

namespace NixSrv.JobQueue

open Json Transition

section Registration

variable [Jsoncpp] {D : ℕ}

/-! ## Ids -/

/-- The id a `set_result` request reports. -/
def Request.reports (r : Request) : List String :=
  match r.handler with
  | .setResult => if jobIdOf r.msg = "" then [] else [jobIdOf r.msg]
  | _ => []

namespace Thread

variable (th : Thread)

/-- The id of the job the thread is about to send to a worker. -/
def hands : List String := th.pc.elim [] Pc.hands

/-- The id of the job the thread has sent to a worker and is about to register. -/
def registers : List String := th.pc.elim [] Pc.registers

def reports : List String := th.pc.elim [] Pc.reports

def acknowledges : List String := th.pc.elim [] Pc.acknowledges

end Thread

namespace Server

/-- The id of the job the step sends to a worker. -/
def handedIn (m : Move D) : List String := (pcOf m).elim [] Pc.hands

/-- The id for which the step stores a result. -/
def reportedIn (m : Move D) : List String := (pcOf m).elim [] Pc.reports

/-- The id for which the step acknowledges a result. -/
def acknowledgedIn (m : Move D) : List String := (pcOf m).elim [] Pc.acknowledges

/-- The id of the job the step accepts. -/
def acceptedIn (m : Move D) : List String := (pcOf m).elim [] (Pc.accepts m.pre.jq)

/-- Accepted jobs have distinct ids. -/
def DistinctIds (hist : List (Move D)) (m : Move D) : Prop :=
  ∀ j ∈ acceptedIn m, j ∉ hist.flatMap acceptedIn

/-- A worker sends `set_result` for a job it has received. -/
def Causal (hist : List (Move D)) (m : Move D) : Prop :=
  match m.event with
  | .arrive r => ∀ j ∈ r.reports, j ∈ hist.flatMap handedIn
  | _ => True

/-- No result is stored for a job that a thread has sent and not registered yet. -/
def RegisteredFirst (_ : List (Move D)) (m : Move D) : Prop :=
  ∀ j ∈ reportedIn m, ∀ t, j ∉ (m.pre.threads t).registers

end Server

/-! ## One step of a thread -/

theorem mem_completed_getResult {jq : JobQueue} {msg : IncomingMessage} {j : String}
    (h : j ∈ (jq.getResult msg).state.completed) : j ∈ jq.completed := by
  cases getResult_cases jq msg with
  | collected _ _ _ he => rw [he] at h; exact (AList.mem_erase.mp h).2
  | denied _ _ _ he | notReady _ _ _ he | notFound _ _ he => rw [he] at h; exact h

omit [Jsoncpp] in
/-- A thread with no job to send, and queues that have got none. -/
theorem count_le_of_hands {ids : List String} (hh : ids = []) {jq jq' : JobQueue} {j : String}
    (hp : pendingCount jq' j ≤ pendingCount jq j) (n : ℕ) :
    ids.count j + pendingCount jq' j ≤ pendingCount jq j + n := by
  rw [hh, List.count_nil]
  omega

/-- **A step makes no job**: what is pending or about to be sent afterwards was so before, or is
accepted. -/
theorem count_step (jq : JobQueue) (pc : Pc) (j : String) :
    (pc.step jq).thread.hands.count j + pendingCount (pc.step jq).state j ≤
      pendingCount jq j + (pc.accepts jq).count j := by
  cases pc_cases jq pc with
  | goes pc' h _ _ hq =>
    rw [h]
    exact count_le_of_hands hq.hands le_rfl _
  | ends th _ h hth =>
    have hnil : th.hands = [] := by rcases hth with rfl | rfl <;> rfl
    rw [h]
    exact count_le_of_hands hnil le_rfl _
  | fails h _ | sent _ _ _ h | registered _ _ h | parked _ _ _ _ h =>
    rw [h]
    exact count_le_of_hands rfl le_rfl _
  | waits h hn =>
    rw [h]
    cases pc with
    | popJob | countWorkers | popWorker | park => exact count_le_of_hands rfl le_rfl _
    | _ => exact absurd trivial hn
  | served job msg w ws rest hp hw ho hws h =>
    subst hp
    have ha : Pc.accepts jq (.popWorker job msg) = [job.id] := by
      simp [Pc.accepts, hw, ho, hws]
    rw [h, ha]
    show [job.id].count j + pendingCount jq j ≤ _
    omega
  | pushed job msg q hr hp hq h =>
    subst hp
    have ha : Pc.accepts jq (.pushJob job msg) = [job.id] := by
      simp [Pc.accepts, hq, hr]
    have ht := Map.total_insert (countIn j) (moduleOf msg) (q.enqueue job hr) jq.queues
    have hc : countIn j (q.enqueue job hr) = countIn j q + [job.id].count j := by
      simp [countIn]
    rw [Map.share_of_lookup hq, hc] at ht
    rw [h, ha]
    show 0 + Map.total (countIn j) (jq.queues.insert (moduleOf msg) (q.enqueue job hr)) ≤
      Map.total (countIn j) jq.queues + [job.id].count j
    omega
  | took msg q job rest hp hq _ hj h =>
    subst hp
    have ht := Map.total_insert (countIn j) (moduleOf msg) q.dropFront jq.queues
    have hc : countIn j q = countIn j q.dropFront + [job.id].count j := by
      simp [countIn, hj, List.count_cons]
    rw [Map.share_of_lookup hq, hc] at ht
    rw [h]
    show [job.id].count j + Map.total (countIn j) (jq.queues.insert (moduleOf msg) q.dropFront) ≤
      Map.total (countIn j) jq.queues + 0
    omega
  | progressed msg _ h =>
    rw [h]
    refine count_le_of_hands rfl (le_of_eq ?_) _
    rw [pendingCount, pendingCount, setProgress_queues]
  | stored env msg _ _ h =>
    rw [h]
    refine count_le_of_hands rfl (le_of_eq ?_) _
    rw [pendingCount, pendingCount, setResult_queues]
  | looked msg _ h =>
    rw [h]
    refine count_le_of_hands rfl (le_of_eq ?_) _
    rw [pendingCount, pendingCount, getResult_queues]
  | managed jq' pc' h _ _ hq hm =>
    rw [h]
    exact count_le_of_hands hq.hands (hm.pending j) _

theorem mem_reports {pc : Pc} {j : String} (h : j ∈ pc.reports) :
    ∃ env msg, pc = .setResult env msg ∧ jobIdOf msg ≠ "" ∧ jobIdOf msg = j := by
  cases pc with
  | setResult env msg =>
    simp only [Pc.reports] at h
    split_ifs at h with hj
    · cases h
    · exact ⟨env, msg, rfl, hj, (List.mem_singleton.mp h).symm⟩
  | _ => cases h

/-- The critical section of `set_result`. -/
theorem step_setResult (jq : JobQueue) (env : Env) {msg : IncomingMessage}
    (hj : jobIdOf msg ≠ "") : Pc.step jq (.setResult env msg) = ⟨{ jq with
        inProgress := jq.inProgress.erase (jobIdOf msg)
        completed := jq.completed.insert (jobIdOf msg)
          ((Job.ofMessage env msg.toMessage).setProgress 100)
        completedJobs := jq.completedJobs + 1 }, .running (.acknowledge msg), []⟩ := by
  have hs : Pc.step jq (.setResult env msg) =
      ⟨(jq.setResult env msg).state, .running (.acknowledge msg), []⟩ := if_neg hj
  cases setResult_cases jq env msg with
  | refused hj' _ => exact absurd hj' hj
  | stored _ h => rw [hs, h]

/-- A job in progress after a step was there before and is not reported, or is registered by it. -/
theorem inProgress_step {jq : JobQueue} {pc : Pc} {j : String}
    (h : j ∈ (pc.step jq).state.inProgress) :
    (j ∈ jq.inProgress ∧ j ∉ pc.reports) ∨ j ∈ pc.registers := by
  by_cases hr : j ∈ pc.reports
  · obtain ⟨env, msg, rfl, hj, rfl⟩ := mem_reports hr
    rw [step_setResult jq env hj] at h
    exact absurd rfl (AList.mem_erase.mp h).1
  refine Or.imp_left (fun hin => ⟨hin, hr⟩) ?_
  cases pc_cases jq pc with
  | goes _ hs | ends _ _ hs | fails hs | waits hs | sent _ _ _ hs => rw [hs] at h; exact Or.inl h
  | served _ _ _ _ _ _ _ _ _ hs | pushed _ _ _ _ _ _ hs | took _ _ _ _ _ _ _ _ hs
  | parked _ _ _ _ hs => rw [hs] at h; exact Or.inl h
  | registered job hp hs =>
    rw [hs] at h
    have h' : j ∈ jq.inProgress.insert job.id job := h
    rcases (AList.mem_insert _).mp h' with rfl | h'
    · rw [hp]
      exact Or.inr (List.mem_singleton_self _)
    · exact Or.inl h'
  | progressed msg _ hs =>
    rw [hs] at h
    exact Or.inl ((mem_inProgress_setProgress jq msg j).mp h)
  | stored env msg hp hj hs =>
    rw [hp, step_setResult jq env hj] at h
    exact Or.inl (AList.mem_erase.mp h).2
  | looked msg _ hs =>
    rw [hs] at h
    exact Or.inl (getResult_inProgress jq msg ▸ h)
  | managed _ _ hs _ _ _ hm =>
    rw [hs] at h
    exact Or.inl (hm.inProgress ▸ h)

/-- A result after a step was there before, or is reported by it. -/
theorem completed_step {jq : JobQueue} {pc : Pc} {j : String}
    (h : j ∈ (pc.step jq).state.completed) : j ∈ jq.completed ∨ j ∈ pc.reports := by
  cases pc_cases jq pc with
  | goes _ hs | ends _ _ hs | fails hs | waits hs | sent _ _ _ hs => rw [hs] at h; exact Or.inl h
  | served _ _ _ _ _ _ _ _ _ hs | pushed _ _ _ _ _ _ hs | took _ _ _ _ _ _ _ _ hs
  | parked _ _ _ _ hs | registered _ _ hs => rw [hs] at h; exact Or.inl h
  | progressed msg _ hs =>
    rw [hs] at h
    exact Or.inl (setProgress_completed jq msg ▸ h)
  | stored env msg hp hj hs =>
    rw [hp, step_setResult jq env hj] at h
    rcases (AList.mem_insert _).mp h with rfl | h
    · rw [hp]
      exact Or.inr (by simp [Pc.reports, hj])
    · exact Or.inl h
  | looked msg _ hs =>
    rw [hs] at h
    exact Or.inl (mem_completed_getResult h)
  | managed _ _ hs _ _ _ hm =>
    rw [hs] at h
    exact Or.inl (hm.completed ▸ h)

/-- **What a thread is about to do after its step**: register the job it has sent, or acknowledge
the result it has stored. -/
theorem next_step (jq : JobQueue) (pc : Pc) (j : String) :
    (j ∈ (pc.step jq).thread.registers → j ∈ pc.hands) ∧ (pc.step jq).thread.reports = [] ∧
    (j ∈ (pc.step jq).thread.acknowledges → j ∈ pc.reports) := by
  have hquiet : ∀ {th : Thread}, th.registers = [] → th.reports = [] → th.acknowledges = [] →
      (j ∈ th.registers → j ∈ pc.hands) ∧ th.reports = [] ∧
        (j ∈ th.acknowledges → j ∈ pc.reports) := by
    intro th h h' h''
    rw [h, h', h'']
    exact ⟨fun hj => absurd hj List.not_mem_nil, rfl, fun hj => absurd hj List.not_mem_nil⟩
  cases pc_cases jq pc with
  | goes pc' h _ _ hq | managed _ pc' h _ _ hq _ =>
    rw [h]
    exact hquiet hq.registers hq.reports hq.acknowledges
  | ends th _ h hth =>
    rw [h]
    rcases hth with rfl | rfl
    · exact hquiet rfl rfl rfl
    · exact hquiet rfl rfl rfl
  | fails h => rw [h]; exact hquiet rfl rfl rfl
  | waits h hn =>
    rw [h]
    cases pc with
    | popJob | countWorkers | popWorker | park => exact hquiet rfl rfl rfl
    | _ => exact absurd trivial hn
  | sent job msg hp h =>
    rw [h, hp]
    exact ⟨id, rfl, fun hj => absurd hj List.not_mem_nil⟩
  | served _ _ _ _ _ _ _ _ _ h | pushed _ _ _ _ _ _ h | took _ _ _ _ _ _ _ _ h
  | registered _ _ h | parked _ _ _ _ h | progressed _ _ h | looked _ _ h =>
    rw [h]
    exact hquiet rfl rfl rfl
  | stored env msg hp hj h =>
    rw [h, hp]
    refine ⟨fun h => absurd h List.not_mem_nil, rfl, fun h => ?_⟩
    rw [List.mem_singleton.mp h]
    simp [Pc.reports, hj]

/-! ## No job is made twice -/

namespace Server

/-- How often the id is pending or about to be sent to a worker. -/
def jobCount (s : Server D) (j : String) : ℕ :=
  ∑ t, (s.threads t).hands.count j + pendingCount s.jq j

omit [Jsoncpp] in
/-- A sum over the threads when thread `t` changes and no other grows. -/
theorem sum_le_of_others {f g : Fin D → ℕ} (t : Fin D) (h : ∀ u ≠ t, g u ≤ f u) :
    ∑ u, g u + f t ≤ ∑ u, f u + g t := by
  have hf := Finset.add_sum_erase Finset.univ f (Finset.mem_univ t)
  have hg := Finset.add_sum_erase Finset.univ g (Finset.mem_univ t)
  have hle : ∑ u ∈ Finset.univ.erase t, g u ≤ ∑ u ∈ Finset.univ.erase t, f u :=
    Finset.sum_le_sum fun u hu => h u (Finset.ne_of_mem_erase hu)
  omega

omit [Jsoncpp] in
theorem hands_start (r : Request) : (Thread.running (.start r)).hands = [] := by
  obtain ⟨handler, env, msg⟩ := r
  cases handler <;> rfl

omit [Jsoncpp] in
theorem handedIn_run {s s' : Server D} {t : Fin D} {rehash : Bool} {pc : Pc}
    (h : (s.threads t).pc = some pc) :
    handedIn ⟨s, .run t rehash, s'⟩ = pc.hands := by
  simp only [handedIn, pcOf, h, Option.elim_some]

theorem reportedIn_run {s s' : Server D} {t : Fin D} {rehash : Bool} {pc : Pc}
    (h : (s.threads t).pc = some pc) :
    reportedIn ⟨s, .run t rehash, s'⟩ = pc.reports := by
  simp only [reportedIn, pcOf, h, Option.elim_some]

theorem acknowledgedIn_run {s s' : Server D} {t : Fin D} {pc : Pc}
    (h : (s.threads t).pc = some pc) : acknowledgedIn ⟨s, .run t rehash, s'⟩ = pc.acknowledges := by
  simp only [acknowledgedIn, pcOf, h, Option.elim_some]

theorem acceptedIn_run {s s' : Server D} {t : Fin D} {rehash : Bool} {pc : Pc}
    (h : (s.threads t).pc = some pc) :
    acceptedIn ⟨s, .run t rehash, s'⟩ = pc.accepts s.jq := by
  simp only [acceptedIn, pcOf, h, Option.elim_some]

/-- **A step of the server makes no job**: what is on its way to a worker or sent was so before, or
is accepted. -/
theorem jobCount_step {config : List (String × ℕ)} {s s' : Server D} {e : Event D}
    (hstep : (server D config).step s e s') (j : String) :
    jobCount s' j + (handedIn ⟨s, e, s'⟩).count j ≤
      jobCount s j + (acceptedIn ⟨s, e, s'⟩).count j := by
  cases step_cases hstep with
  | arrived r he h =>
    subst he h
    exact le_rfl
  | dispatched t i r he hr hf h =>
    subst he h
    have hsum : ∑ u, ((s.afterDispatch t i r).threads u).hands.count j ≤
        ∑ u, (s.threads u).hands.count j := by
      refine Finset.sum_le_sum fun u _ => ?_
      by_cases hu : u = t
      · have hth : (s.afterDispatch t i r).threads u = .running (.start r) := if_pos hu
        rw [hth, hands_start]
        exact Nat.zero_le _
      · have hth : (s.afterDispatch t i r).threads u = s.threads u := if_neg hu
        rw [hth]
    show ∑ u, ((s.afterDispatch t i r).threads u).hands.count j + pendingCount s.jq j + 0 ≤
      ∑ u, (s.threads u).hands.count j + pendingCount s.jq j + 0
    omega
  | ran t rehash pc he hp hl h =>
    subst he h
    have hcount := count_step s.jq pc j
    have hsum := sum_le_of_others (f := fun u => (s.threads u).hands.count j)
      (g := fun u => ((s.afterStep t pc rehash).threads u).hands.count j) t fun u hu => by
        rcases threads_afterStep s pc rehash hu with h | h
        · rw [h]
        · rw [h]
          exact Nat.zero_le _
    have hself : (s.afterStep t pc rehash).threads t = (pc.step s.jq).thread := if_pos rfl
    have hbefore : (s.threads t).hands = pc.hands := by rw [Thread.hands, hp]; rfl
    rw [handedIn_run hp, acceptedIn_run hp]
    simp only [hself, hbefore] at hsum
    show ∑ u, ((s.afterStep t pc rehash).threads u).hands.count j +
      pendingCount (pc.step s.jq).state j + _ ≤
        ∑ u, (s.threads u).hands.count j + pendingCount s.jq j + _
    omega

omit [Jsoncpp] in
theorem jobCount_start (config : List (String × ℕ)) (j : String) :
    jobCount (start D config) j = 0 := by
  have hfold : ∀ (config : List (String × ℕ)) (jq : JobQueue),
      pendingCount (config.foldl (fun jq inst => (jq.initQueue inst.1 inst.2).1) jq) j =
        pendingCount jq j := by
    intro config
    induction config with
    | nil => exact fun _ => rfl
    | cons inst config ih =>
      exact fun jq => (ih _).trans (pendingCount_initQueue jq inst.1 inst.2 j)
  have hpend : pendingCount (start D config).jq j = 0 := hfold config {}
  have hsum : ∑ t, ((start D config).threads t).hands.count j = 0 :=
    Finset.sum_eq_zero fun _ _ => rfl
  rw [jobCount, hsum, hpend]

/-- **Every job is sent to at most as many workers as it was accepted times.** -/
theorem count_handedIn_le {config : List (String × ℕ)} {tr : List (Move D)} {s : Server D}
    (hr : Transition.Run (server D config) tr s) (j : String) :
    jobCount s j + (tr.flatMap handedIn).count j ≤ (tr.flatMap acceptedIn).count j := by
  induction hr with
  | nil h =>
    cases h
    rw [jobCount_start]
    exact le_rfl
  | snoc hr hs ih =>
    have hstep := jobCount_step hs j
    simp only [List.flatMap_append, List.flatMap_singleton, List.count_append]
    omega

/-! ## Finished jobs -/

/-- The ids handed out so far. -/
abbrev handed (tr : List (Move D)) : List String := tr.flatMap handedIn

/-- The ids with a result stored so far. -/
abbrev reported (tr : List (Move D)) : List String := tr.flatMap reportedIn

/-- The ids with a result acknowledged so far. -/
abbrev acknowledged (tr : List (Move D)) : List String := tr.flatMap acknowledgedIn

/-- Where the ids of reported and of registered jobs come from. -/
structure InOrder (tr : List (Move D)) (s : Server D) : Prop where
  incoming : ∀ r ∈ s.incoming, ∀ j ∈ r.reports, j ∈ handed tr
  reporting : ∀ t, ∀ j ∈ (s.threads t).reports, j ∈ handed tr
  reported_handed : ∀ j ∈ reported tr, j ∈ handed tr
  acknowledging : ∀ t, ∀ j ∈ (s.threads t).acknowledges, j ∈ reported tr
  acknowledged_reported : ∀ j ∈ acknowledged tr, j ∈ reported tr
  completed : ∀ j ∈ s.jq.completed, j ∈ reported tr
  registering : ∀ t, ∀ j ∈ (s.threads t).registers, j ∈ handed tr ∧ j ∉ reported tr
  inProgress : ∀ j ∈ s.jq.inProgress, j ∈ handed tr ∧ j ∉ reported tr

omit [Jsoncpp] in
theorem mem_flatMap_snoc {f : Move D → List String} {tr : List (Move D)} {m : Move D} {j : String} :
    j ∈ (tr ++ [m]).flatMap f ↔ j ∈ tr.flatMap f ∨ j ∈ f m := by
  rw [List.flatMap_append, List.flatMap_singleton, List.mem_append]

theorem reports_start {r : Request} {j : String} (h : j ∈ (Thread.running (.start r)).reports) :
    j ∈ r.reports := by
  obtain ⟨handler, env, msg⟩ := r
  cases handler with
  | setResult => exact h
  | _ => cases h

/-- A step of the server that is not one of a thread. -/
theorem InOrder.deliver {tr : List (Move D)} {s s' : Server D} {e : Event D} (h : InOrder tr s)
    (he : e.thread = none) (hjq : s'.jq = s.jq)
    (hin : ∀ r ∈ s'.incoming, ∀ j ∈ r.reports, j ∈ handed tr)
    (hth : ∀ t, s'.threads t = s.threads t ∨
      ((∀ j ∈ (s'.threads t).reports, j ∈ handed tr) ∧ (s'.threads t).acknowledges = [] ∧
        (s'.threads t).registers = [])) : InOrder (tr ++ [⟨s, e, s'⟩]) s' := by
  have hpc : pcOf ⟨s, e, s'⟩ = none := by
    cases e with
    | run t => cases he
    | arrive | dispatch => rfl
  have hhand : handed (tr ++ [⟨s, e, s'⟩]) = handed tr := by
    simp [handed, handedIn, hpc]
  have hrep : reported (tr ++ [⟨s, e, s'⟩]) = reported tr := by
    simp [reported, reportedIn, hpc]
  have hack : acknowledged (tr ++ [⟨s, e, s'⟩]) = acknowledged tr := by
    simp [acknowledged, acknowledgedIn, hpc]
  constructor
  · rw [hhand]; exact hin
  · rw [hhand]
    intro t
    rcases hth t with he | ⟨hr, -⟩
    · rw [he]; exact h.reporting t
    · exact hr
  · rw [hhand, hrep]; exact h.reported_handed
  · rw [hrep]
    intro t
    rcases hth t with he | ⟨-, ha, -⟩
    · rw [he]; exact h.acknowledging t
    · rw [ha]; exact fun _ hj => absurd hj List.not_mem_nil
  · rw [hack, hrep]; exact h.acknowledged_reported
  · rw [hjq, hrep]; exact h.completed
  · rw [hhand, hrep]
    intro t
    rcases hth t with he | ⟨-, -, hr⟩
    · rw [he]; exact h.registering t
    · rw [hr]; exact fun _ hj => absurd hj List.not_mem_nil
  · rw [hjq, hhand, hrep]; exact h.inProgress

/-- A step that sends or registers a job stores no result. -/
theorem reports_eq_nil {pc : Pc} {j : String}
    (h : j ∈ pc.hands ∨ j ∈ pc.registers) : pc.reports = [] := by
  cases pc with
  | setResult => rcases h with h | h <;> cases h
  | _ => rfl

/-- What a thread is about to do after a step is left from before, or the step brought it there. -/
theorem mem_afterStep {f : Thread → List String} (hf : f .undefined = []) {s : Server D}
    {t u : Fin D} {pc : Pc} {j : String} (h : j ∈ f ((s.afterStep t pc rehash).threads u)) :
    j ∈ f (pc.step s.jq).thread ∨ j ∈ f (s.threads u) := by
  by_cases hu : u = t
  · have hself : (s.afterStep t pc rehash).threads u = (pc.step s.jq).thread := if_pos hu
    exact Or.inl (hself ▸ h)
  · rcases threads_afterStep s pc rehash hu with he | he
    · exact Or.inr (he ▸ h)
    · rw [he, hf] at h
      cases h

/-- **A step of a thread keeps the order**, when it sends no job twice and stores no result for a
job that another thread has not registered yet. -/
theorem InOrder.afterStep {tr : List (Move D)} {s : Server D} (h : InOrder tr s) {t : Fin D}
    {pc : Pc} (hp : (s.threads t).pc = some pc) (hnew : ∀ j ∈ pc.hands, j ∉ handed tr)
    (hfirst : ∀ j ∈ pc.reports, ∀ u, j ∉ (s.threads u).registers) :
    InOrder (tr ++ [⟨s, .run t rehash, s.afterStep t pc rehash⟩]) (s.afterStep t pc rehash) := by
  have hhand : ∀ {j}, j ∈ handed (tr ++ [⟨s, .run t rehash, s.afterStep t pc rehash⟩]) ↔
      j ∈ handed tr ∨ j ∈ pc.hands := by
    intro j
    rw [handed, mem_flatMap_snoc, handedIn_run hp]
  have hrep : ∀ {j}, j ∈ reported (tr ++ [⟨s, .run t rehash, s.afterStep t pc rehash⟩]) ↔
      j ∈ reported tr ∨ j ∈ pc.reports := by
    intro j
    rw [reported, mem_flatMap_snoc, reportedIn_run hp]
  have hreports : (s.threads t).reports = pc.reports := by rw [Thread.reports, hp]; rfl
  have hacks : (s.threads t).acknowledges = pc.acknowledges := by
    rw [Thread.acknowledges, hp]; rfl
  have hregs : (s.threads t).registers = pc.registers := by
    rw [Thread.registers, hp]; rfl
  constructor
  case incoming =>
    exact fun r hr j hj => hhand.mpr (Or.inl (h.incoming r hr j hj))
  case reporting =>
    intro u j hj
    rcases mem_afterStep rfl hj with hj | hj
    · rw [(next_step s.jq pc j).2.1] at hj
      cases hj
    · exact hhand.mpr (Or.inl (h.reporting u j hj))
  case reported_handed =>
    intro j hj
    rcases hrep.mp hj with hj | hj
    · exact hhand.mpr (Or.inl (h.reported_handed j hj))
    · exact hhand.mpr (Or.inl (h.reporting t j (hreports ▸ hj)))
  case acknowledging =>
    intro u j hj
    rcases mem_afterStep rfl hj with hj | hj
    · exact hrep.mpr (Or.inr ((next_step s.jq pc j).2.2 hj))
    · exact hrep.mpr (Or.inl (h.acknowledging u j hj))
  case acknowledged_reported =>
    intro j hj
    rw [acknowledged, mem_flatMap_snoc, acknowledgedIn_run hp] at hj
    rcases hj with hj | hj
    · exact hrep.mpr (Or.inl (h.acknowledged_reported j hj))
    · exact hrep.mpr (Or.inl (h.acknowledging t j (hacks ▸ hj)))
  case completed =>
    intro j hj
    rcases completed_step hj with hj | hj
    · exact hrep.mpr (Or.inl (h.completed j hj))
    · exact hrep.mpr (Or.inr hj)
  case registering =>
    intro u j hj
    rcases mem_afterStep rfl hj with hj | hj
    · have hj' := (next_step s.jq pc j).1 hj
      refine ⟨hhand.mpr (Or.inr hj'), fun hr => ?_⟩
      rcases hrep.mp hr with hr | hr
      · exact hnew j hj' (h.reported_handed j hr)
      · rw [reports_eq_nil (Or.inl hj')] at hr
        cases hr
    · obtain ⟨hin, hno⟩ := h.registering u j hj
      refine ⟨hhand.mpr (Or.inl hin), fun hr => ?_⟩
      rcases hrep.mp hr with hr | hr
      · exact hno hr
      · exact hfirst j hr u hj
  case inProgress =>
    intro j hj
    rcases inProgress_step hj with ⟨hj, hr'⟩ | hj
    · obtain ⟨hin, hno⟩ := h.inProgress j hj
      exact ⟨hhand.mpr (Or.inl hin), fun hr => (hrep.mp hr).elim hno hr'⟩
    · obtain ⟨hin, hno⟩ := h.registering t j (hregs ▸ hj)
      refine ⟨hhand.mpr (Or.inl hin), fun hr => (hrep.mp hr).elim hno fun hr => ?_⟩
      rw [reports_eq_nil (Or.inr hj)] at hr
      cases hr

/-- The conditions on a step. -/
def Orderly (hist : List (Move D)) (m : Move D) : Prop :=
  DistinctIds hist m ∧ Causal hist m ∧ RegisteredFirst hist m

theorem nodup_acceptedIn (m : Move D) : (acceptedIn m).Nodup := by
  unfold acceptedIn
  cases pcOf m with
  | none => exact List.nodup_nil
  | some pc =>
    show (pc.accepts m.pre.jq).Nodup
    unfold Pc.accepts
    split
    · split
      · split_ifs
        · exact List.nodup_singleton _
        · exact List.nodup_nil
      · exact List.nodup_nil
    · split
      · split_ifs
        · exact List.nodup_singleton _
        · exact List.nodup_nil
      · exact List.nodup_nil
    · exact List.nodup_nil

/-- No id is handed out twice. -/
theorem nodup_handed {config : List (String × ℕ)} {tr : List (Move D)} {s : Server D}
    (hr : Run (server D config) tr s) (hd : (tr.flatMap acceptedIn).Nodup) : (handed tr).Nodup := by
  rw [List.nodup_iff_count_le_one] at hd ⊢
  intro j
  have hle := count_handedIn_le hr j
  have hone := hd j
  show (tr.flatMap handedIn).count j ≤ 1
  omega

theorem InOrder.start (config : List (String × ℕ)) : InOrder [] (start D config) := by
  have hfold : ∀ (config : List (String × ℕ)) (jq : JobQueue), jq.inProgress = ∅ →
      jq.completed = ∅ →
      (config.foldl (fun jq inst => (jq.initQueue inst.1 inst.2).1) jq).inProgress = ∅ ∧
      (config.foldl (fun jq inst => (jq.initQueue inst.1 inst.2).1) jq).completed = ∅ := by
    intro config
    induction config with
    | nil => exact fun _ h h' => ⟨h, h'⟩
    | cons inst config ih =>
      intro jq h h'
      obtain ⟨hp, hd, -⟩ := initQueue_frame jq inst.1 inst.2
      exact ih _ (hp.trans h) (hd.trans h')
  obtain ⟨hp, hd⟩ := hfold config {} rfl rfl
  have hempty : ∀ {m : Map String Job} {j : String}, m = ∅ → j ∉ m := by
    rintro m j rfl
    exact AList.notMem_empty j
  exact ⟨fun _ h => absurd h List.not_mem_nil, fun _ _ h => absurd h List.not_mem_nil,
    fun _ h => absurd h List.not_mem_nil, fun _ _ h => absurd h List.not_mem_nil,
    fun _ h => absurd h List.not_mem_nil, fun _ h => absurd h (hempty hd),
    fun _ _ h => absurd h List.not_mem_nil, fun _ h => absurd h (hempty hp)⟩

/-- **Every orderly run keeps the order.** -/
theorem inOrder_of_run {config : List (String × ℕ)} {tr : List (Move D)} {s : Server D}
    (hr : Run (server D config) tr s) (ho : EachMove Orderly tr) :
    (tr.flatMap acceptedIn).Nodup ∧ InOrder tr s := by
  refine hr.invariant (I := fun tr s => (tr.flatMap acceptedIn).Nodup ∧ InOrder tr s) ?_ ?_ ho
  · rintro s rfl
    exact ⟨List.nodup_nil, .start config⟩
  rintro tr s e s' hr ⟨hnodup, h⟩ hstep ⟨hd, hc, hf⟩
  have hnodup' : ((tr ++ [(⟨s, e, s'⟩ : Move D)]).flatMap acceptedIn).Nodup := by
    rw [List.flatMap_append, List.flatMap_singleton, List.nodup_append]
    refine ⟨hnodup, nodup_acceptedIn _, fun j hj j' hj' he => ?_⟩
    exact hd j' hj' (he ▸ hj)
  refine ⟨hnodup', ?_⟩
  cases step_cases hstep with
  | arrived r he hs =>
    subst he hs
    refine h.deliver rfl rfl (fun r' hr' j hj => ?_) fun t => Or.inl rfl
    rcases List.mem_append.mp hr' with hr' | hr'
    · exact h.incoming r' hr' j hj
    · rw [List.mem_singleton.mp hr'] at hj
      exact hc j hj
  | dispatched t i r he hri hfree hs =>
    subst he hs
    refine h.deliver rfl rfl
      (fun r' hr' => h.incoming r' (List.mem_of_mem_eraseIdx hr')) fun u => ?_
    by_cases hu : u = t
    · have hth : (s.afterDispatch t i r).threads u = .running (.start r) := if_pos hu
      refine Or.inr ⟨fun j hj => ?_, ?_, ?_⟩
      · rw [hth] at hj
        exact h.incoming r (List.mem_of_getElem? hri) j (reports_start hj)
      · rw [hth]
        obtain ⟨handler, env, msg⟩ := r
        cases handler <;> rfl
      · rw [hth]
        obtain ⟨handler, env, msg⟩ := r
        cases handler <;> rfl
    · exact Or.inl (if_neg hu)
  | ran t rehash pc he hp hl hs =>
    subst he hs
    refine h.afterStep hp (fun j hj hin => ?_) fun j hj => ?_
    · have hn := nodup_handed (hr.snoc hstep) hnodup'
      rw [handed, List.flatMap_append, List.flatMap_singleton, handedIn_run hp,
        List.nodup_append] at hn
      exact hn.2.2 j hin j hj rfl
    · exact hf j (by rwa [reportedIn_run hp])

/-- A finished job is never in progress again, no id is both in progress and completed, and
`in_progress_` is no larger than the number of jobs handed out and not reported. -/
structure NeverBack (tr : List (Move D)) (s : Server D) : Prop where
  gone : ∀ j ∈ acknowledged tr, j ∉ s.jq.inProgress
  apart : ∀ j ∈ s.jq.inProgress, j ∉ s.jq.completed
  count : Map.size s.jq.inProgress ≤ ((handed tr).filter fun j => j ∉ reported tr).length

/-- **A finished job never returns to progress** in a run in which no result is stored between the
sending of its job and the registration. -/
theorem never_back {config : List (String × ℕ)} {tr : List (Move D)} {s : Server D}
    (hr : Run (server D config) tr s) (hd : EachMove DistinctIds tr) (hc : EachMove Causal tr)
    (hf : EachMove RegisteredFirst tr) : NeverBack tr s := by
  obtain ⟨-, h⟩ := inOrder_of_run hr (hd.and (hc.and hf))
  refine ⟨fun j hj hin => ?_, fun j hin hdone => ?_, ?_⟩
  · exact (h.inProgress j hin).2 (h.acknowledged_reported j hj)
  · exact (h.inProgress j hin).2 (h.completed j hdone)
  · refine (List.subperm_of_subset s.jq.inProgress.keys_nodup fun j hj => ?_).length_le
    obtain ⟨hin, hno⟩ := h.inProgress j (AList.mem_keys.mpr hj)
    exact List.mem_filter.mpr ⟨hin, decide_eq_true hno⟩

instance (hist : List (Move D)) (m : Move D) : Decidable (DistinctIds hist m) := by
  unfold DistinctIds; infer_instance

instance (hist : List (Move D)) (m : Move D) : Decidable (Causal hist m) :=
  match m with
  | ⟨_, .arrive r, _⟩ => inferInstanceAs (Decidable (∀ j ∈ r.reports, j ∈ hist.flatMap handedIn))
  | ⟨_, .dispatch _ _, _⟩ | ⟨_, .run _ _, _⟩ => isTrue trivial

instance (hist : List (Move D)) (m : Move D) : Decidable (RegisteredFirst hist m) := by
  unfold RegisteredFirst; infer_instance

end Server

end Registration

section Sample

open Server

attribute [local instance] Jsoncpp.integral

def resultRequest (handle : ℕ) : Request :=
  requestOf .setResult handle [("@job_id", .string "j")]

/-- The job is submitted, and a worker is about to get it. -/
def untilSent : List (Event 2) :=
  serve 0 (requestOf .submit 1 (jobDocument "j")) 5 ++
  serve 1 (requestOf .getWork 2 [("module", .string "q")]) 3

/-- The job is registered and then reported. -/
def registeredFirst : List (Event 2) := untilSent ++ [.run 1] ++ serve 0 (resultRequest 3) 2

theorem never_back_registeredFirst :
    NeverBack (Server.traceOf 2 [("q", 2)] registeredFirst).1
      (Server.traceOf 2 [("q", 2)] registeredFirst).2 :=
  never_back (Server.run_traceOf (by decide)) (by decide) (by decide) (by decide)

/-- The worker reports the job before it is registered. -/
def reportedFirst : List (Event 2) := untilSent ++ serve 0 (resultRequest 3) 2 ++ [.run 1]

theorem not_neverBack_reportedFirst :
    Run (server 2 [("q", 2)]) (Server.traceOf 2 [("q", 2)] reportedFirst).1
      (Server.traceOf 2 [("q", 2)] reportedFirst).2 ∧
    EachMove DistinctIds (Server.traceOf 2 [("q", 2)] reportedFirst).1 ∧
    EachMove Causal (Server.traceOf 2 [("q", 2)] reportedFirst).1 ∧
    acknowledged (Server.traceOf 2 [("q", 2)] reportedFirst).1 = ["j"] ∧
    "j" ∈ (Server.traceOf 2 [("q", 2)] reportedFirst).2.jq.inProgress ∧
    "j" ∈ (Server.traceOf 2 [("q", 2)] reportedFirst).2.jq.completed ∧
    ¬ NeverBack (Server.traceOf 2 [("q", 2)] reportedFirst).1
      (Server.traceOf 2 [("q", 2)] reportedFirst).2 := by
  have hin : "j" ∈ (Server.traceOf 2 [("q", 2)] reportedFirst).2.jq.inProgress := by decide
  have hdone : "j" ∈ (Server.traceOf 2 [("q", 2)] reportedFirst).2.jq.completed := by decide
  exact ⟨Server.run_traceOf (by decide), by decide, by decide, by decide, hin, hdone,
    fun h => h.apart "j" hin hdone⟩

end Sample

end NixSrv.JobQueue
