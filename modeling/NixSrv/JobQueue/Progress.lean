import Mathlib.Algebra.Order.Ring.Unbundled.Rat
import NixSrv.JobQueue.Tracked

/-!
# Progress and completion

A job has a number for its progress and a flag for its completion. `from_message` reads the two
independently of each other, and `set_progress` does not clear the flag.

* `Agree`, `Coherent`, `AllCoherent`: the two fields of a job agree, and those of all jobs;
* `KeepsCoherent`: the steps that keep it so;
* **`coherent_step`**: they are these;
* **`coherent_iff`**: the runs in which the fields of all jobs always agree.
-/

namespace NixSrv.JobQueue

open Json Transition

/-- The progress is between 0 and 100, and 100 exactly on completion. -/
structure Agree (progress : ℚ) (completed : Bool) : Prop where
  nonneg : 0 ≤ progress
  le_hundred : progress ≤ 100
  completed_iff : completed = true ↔ progress = 100

instance (progress : ℚ) (completed : Bool) : Decidable (Agree progress completed) :=
  decidable_of_iff (0 ≤ progress ∧ progress ≤ 100 ∧ (completed = true ↔ progress = 100))
    ⟨fun h => ⟨h.1, h.2.1, h.2.2⟩, fun h => ⟨h.1, h.2, h.3⟩⟩

def Coherent (job : Job) : Prop := Agree job.progress job.completed

instance (job : Job) : Decidable (Coherent job) := by unfold Coherent; infer_instance

/-- The fields of every job that the module holds agree. -/
def AllCoherent (jq : JobQueue) : Prop := ∀ job, Holds jq job → Coherent job

theorem coherent_hundred (job : Job) : Coherent (job.setProgress 100) := by
  rw [Job.setProgress_hundred]
  exact ⟨show (0 : ℚ) ≤ 100 by decide, show (100 : ℚ) ≤ 100 by decide, iff_of_true rfl rfl⟩

/-- After `set_progress` the fields agree if the number is at least 100, or if it is not negative
and the job is not completed. -/
theorem coherent_setProgress_iff (job : Job) (p : ℚ) :
    Coherent (job.setProgress p) ↔ 100 ≤ p ∨ 0 ≤ p ∧ job.completed = false := by
  unfold Job.setProgress
  by_cases hp : p ≥ 100
  · rw [if_pos hp, ← Job.setProgress_hundred]
    exact iff_of_true (coherent_hundred job) (Or.inl hp)
  · have hlt : p < 100 := not_le.mp hp
    rw [if_neg hp]
    constructor
    · rintro ⟨hnonneg, -, hiff⟩
      exact Or.inr ⟨hnonneg, Bool.eq_false_iff.mpr fun hc => hlt.ne (hiff.mp hc)⟩
    · rintro (hge | ⟨hnonneg, hc⟩)
      · exact absurd hge hp
      · exact ⟨hnonneg, hlt.le, iff_of_false (Bool.eq_false_iff.mp hc) hlt.ne⟩

section Runs

variable [Jsoncpp]

theorem coherent_ofMessage (env : Env) (msg : Message) : Coherent (Job.ofMessage env msg) ↔
    Agree (msg.getDouble "progress" 0) (msg.getBool "completed" false) := by
  rw [Coherent, Job.progress_ofMessage, Job.completed_ofMessage]

/-- A `submit` whose job is put into a queue carries a progress and a flag that agree; a
`set_progress` for a job in progress carries 0, at least 100, or a positive number while the job is
not completed. -/
def KeepsCoherent (m : Move) : Prop :=
  match m.event with
  | .request ⟨.submit, _, msg⟩ =>
    Enqueues m.pre msg → Agree (msg.getDouble "progress" 0) (msg.getBool "completed" false)
  | .request ⟨.setProgress, _, msg⟩ => ∀ job ∈ m.pre.inProgress.lookup (jobIdOf msg),
      msg.getDouble "progress" 0 = 0 ∨ 100 ≤ msg.getDouble "progress" 0 ∨
        0 < msg.getDouble "progress" 0 ∧ job.completed = false
  | _ => True

instance : DecidablePred KeepsCoherent
  | ⟨pre, .request ⟨.submit, _, msg⟩, _⟩ => inferInstanceAs (Decidable
      (Enqueues pre msg → Agree (msg.getDouble "progress" 0) (msg.getBool "completed" false)))
  | ⟨pre, .request ⟨.setProgress, _, msg⟩, _⟩ => inferInstanceAs (Decidable
      (∀ job ∈ pre.inProgress.lookup (jobIdOf msg),
        msg.getDouble "progress" 0 = 0 ∨ 100 ≤ msg.getDouble "progress" 0 ∨
          0 < msg.getDouble "progress" 0 ∧ job.completed = false))
  | ⟨_, .initQueue _ _, _⟩ => isTrue trivial
  | ⟨_, .request ⟨.getWork, _, _⟩, _⟩ => isTrue trivial
  | ⟨_, .request ⟨.setResult, _, _⟩, _⟩ => isTrue trivial
  | ⟨_, .request ⟨.getResult, _, _⟩, _⟩ => isTrue trivial
  | ⟨_, .request ⟨.manage, _, _⟩, _⟩ => isTrue trivial
  | ⟨_, .request ⟨.status, _, _⟩, _⟩ => isTrue trivial

/-- **The fields of all jobs agree after a step exactly when it is one that keeps them so.** -/
theorem coherent_step {jq : JobQueue} (h : AllCoherent jq) (c : Call) :
    AllCoherent (jq.handle c).state ↔ KeepsCoherent ⟨jq, c, (jq.handle c).state⟩ := by
  constructor
  · intro hall
    obtain ⟨name, size⟩ | ⟨⟨handler, env, msg⟩⟩ := c
    · trivial
    cases handler with
    | submit => exact fun hq => (coherent_ofMessage env _).mp (hall _ (holds_submit env hq))
    | setProgress =>
      intro job hj
      by_cases h0 : msg.getDouble "progress" 0 = 0
      · exact Or.inl h0
      · have hset := hall _ (holds_setProgress hj h0)
        rcases (coherent_setProgress_iff job _).mp hset with hp | ⟨hp, hc⟩
        · exact Or.inr (Or.inl hp)
        · exact Or.inr (Or.inr ⟨hp.lt_of_ne (Ne.symm h0), hc⟩)
    | getWork | setResult | getResult | manage | status => trivial
  · intro hkeeps job hjob
    cases holds_cases hjob with
    | held hjob => exact h job hjob
    | submitted env msg hc hq he =>
      subst hc
      exact he ▸ (coherent_ofMessage env _).mpr (hkeeps hq)
    | progressed env msg job₀ hc hj hp he =>
      subst hc
      rw [he, coherent_setProgress_iff]
      rcases hkeeps job₀ hj with h0 | hge | ⟨hpos, hcompleted⟩
      · exact absurd h0 hp
      · exact Or.inl hge
      · exact Or.inr ⟨hpos.le, hcompleted⟩
    | reported env msg hc he =>
      exact he ▸ coherent_hundred _

omit [Jsoncpp] in
theorem allCoherent_empty : AllCoherent {} := by
  rintro job (⟨name, q, hq, -⟩ | ⟨id, h⟩ | ⟨id, h⟩)
  · simp at hq
  · simp at h
  · simp at h

/-- The fields of all jobs agree after a run whose steps keep them so. -/
theorem allCoherent_of_run {tr : List Move} {jq : JobQueue} (hr : Run system tr jq)
    (hk : EachMove (fun _ m => KeepsCoherent m) tr) : AllCoherent jq := by
  refine hr.invariant (I := fun _ jq => AllCoherent jq) ?_ ?_ hk
  · rintro _ rfl
    exact allCoherent_empty
  · intro tr s c s' _ h hs hc
    obtain ⟨-, rfl⟩ := step_iff.mp hs
    exact (coherent_step h c).mpr hc

/-- **In every state that a run reaches the fields of all jobs agree, exactly when every step keeps
them so.** -/
theorem coherent_iff {tr : List Move} {jq : JobQueue} (hr : Run system tr jq) :
    EachMove (fun _ m => AllCoherent m.post) tr ↔ EachMove (fun _ m => KeepsCoherent m) tr := by
  refine hr.eachMove_iff fun tr s c s' hr hk hs => ?_
  obtain ⟨-, rfl⟩ := step_iff.mp hs
  exact coherent_step (allCoherent_of_run hr hk) c

end Runs

section Sample

attribute [local instance] Jsoncpp.integral

def progressOf (handle : ℕ) (id : String) (progress : ℤ) : Call :=
  callOf .setProgress handle [("@job_id", .string id), ("progress", .int progress)]

/-- A job is submitted, handed out and half done, and its result is set. -/
def halfDone : List Call := [
  .initQueue "q" 2, submitOf 1 "j", callOf .getWork 2 [("module", .string "q")],
  progressOf 3 "j" 50, callOf .setResult 4 [("@job_id", .string "j")]]

theorem coherent_halfDone : EachMove (fun _ m => AllCoherent m.post) (historyOf halfDone) :=
  (coherent_iff (run_historyOf (by decide))).mpr (by decide)

/-- A job is submitted as fully done, and not as completed. -/
def submitDone : List Call := [
  .initQueue "q" 2,
  callOf .submit 1 (jobDocument "j" ++ [("progress", .int 100), ("completed", .bool false)])]

theorem not_coherent_submitDone :
    Run system (historyOf submitDone) (stateAfter submitDone) ∧
    ¬ AllCoherent (stateAfter submitDone) := by
  refine ⟨run_historyOf (by decide), fun h => ?_⟩
  have hp : ((stateAfter submitDone).queues.lookup "q").map (fun q => q.q.map fun job =>
      (job.progress, job.completed)) = some [(100, false)] := by decide
  obtain ⟨q, hq, hjobs⟩ := Option.map_eq_some_iff.mp hp
  obtain ⟨job, hjob, hfields⟩ : ∃ job ∈ q.q, (job.progress, job.completed) = (100, false) :=
    List.mem_map.mp (hjobs ▸ List.mem_singleton_self _)
  obtain ⟨hprogress, hcompleted⟩ := Prod.mk.inj hfields
  have hiff := (h job (.pending ⟨"q", q, hq, hjob⟩)).completed_iff
  exact absurd (hiff.mpr hprogress) (by rw [hcompleted]; decide)

end Sample

end NixSrv.JobQueue
