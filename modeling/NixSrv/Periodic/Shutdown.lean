import NixSrv.Periodic.Phase

/-!
# The end of the threads

* `own`, `WellFormed`: what a program says about one thread;
* `afterRelease`, `triedAfterRelease`: the moves since the mutex of a thread was released;
* `StepCase`, **`step_cases`**, **`phase_of_run`**: every thread is in a phase of its life;
* **`stuck_iff`**, **`few_steps_after_release`**, **`exists_end`**: the main thread is never kept
  waiting for long, and can always get to its end;
* **`clean_iff`**: which runs end without a fault;
* **`sleeps_between_rounds`**: how often a thread sleeps;
* **`server_can_end`**, **`server_clean_iff`**, **`server_fault_cases`**, **`server_sleeps`**: the
  same of the threads of the server;
* `EndsClean`, `Unstarted`, **`clean_end_iff`**: which servers have a run to their end without a
  fault, also when the start fails.
-/

namespace NixSrv.Periodic

open Transition

variable {ι : Type*} [DecidableEq ι]

/-- The statements about thread `i`. -/
def own (i : ι) (program : List (ι × Op)) : List Op :=
  program.filterMap fun e => if e.1 = i then some e.2 else none

/-- The main thread does with each thread what is done in its life, or destroys its object at
most. -/
def WellFormed (program : List (ι × Op)) : Prop :=
  ∀ i, own i program = lifecycle ∨ own i program = [.destroy] ∨ own i program = []

theorem own_cons_self (i : ι) (op : Op) (rest : List (ι × Op)) :
    own i ((i, op) :: rest) = op :: own i rest := by
  simp [own]

theorem own_cons_ne {i j : ι} (h : j ≠ i) (op : Op) (rest : List (ι × Op)) :
    own i ((j, op) :: rest) = own i rest := by
  simp [own, h]

/-! ## The moves since the release of a mutex -/

/-- The main thread releases the mutex of thread `i`. -/
def releasesIn (i : ι) (m : Move ι) : Bool :=
  match m.event, m.pre.program with
  | .main, (j, .unlock) :: _ => decide (j = i) && m.post.fault.isNone
  | _, _ => false

/-- Thread `i` tries its mutex. -/
def triesIn (i : ι) (m : Move ι) : Bool :=
  decide (m.event = .worker i) && (m.pre.tasks i).pc.isTryLock && m.post.fault.isNone

/-- The moves from the one that releases the mutex of thread `i`. -/
def afterRelease (i : ι) (tr : List (Move ι)) : List (Move ι) :=
  tr.dropWhile fun m => !releasesIn i m

def releasedBy (i : ι) (tr : List (Move ι)) : Bool := tr.any (releasesIn i)

/-- **Thread `i` has tried its mutex since its release.** -/
def triedAfterRelease (i : ι) (tr : List (Move ι)) : Bool := (afterRelease i tr).any (triesIn i)

/-- What thread `i` has spent since the release of its mutex, where a step costs what `weight` says
of the place it is made from. -/
def spentAfterRelease (weight : Pc → ℕ) (i : ι) (tr : List (Move ι)) : ℕ :=
  ((afterRelease i tr).map fun m =>
    if m.event = .worker i then weight (m.pre.tasks i).pc else 0).sum

theorem releasedBy_snoc (i : ι) (tr : List (Move ι)) (m : Move ι) :
    releasedBy i (tr ++ [m]) = (releasedBy i tr || releasesIn i m) := by
  simp [releasedBy]

theorem afterRelease_eq_nil {i : ι} {tr : List (Move ι)} (h : releasedBy i tr = false) :
    afterRelease i tr = [] := by
  induction tr with
  | nil => rfl
  | cons m tr ih =>
    rw [releasedBy, List.any_cons, Bool.or_eq_false_iff] at h
    rw [afterRelease, List.dropWhile_cons_of_pos (by simp [h.1])]
    exact ih h.2

theorem afterRelease_snoc (i : ι) (tr : List (Move ι)) (m : Move ι) :
    afterRelease i (tr ++ [m]) =
      if releasedBy i tr = true then afterRelease i tr ++ [m]
      else if releasesIn i m = true then [m] else [] := by
  induction tr with
  | nil => cases h : releasesIn i m <;> simp [afterRelease, releasedBy, h]
  | cons m' tr ih =>
    cases h : releasesIn i m' with
    | true => simp [afterRelease, releasedBy, h]
    | false =>
      have hcons : ∀ tr, afterRelease i (m' :: tr) = afterRelease i tr := fun tr => by
        simp [afterRelease, h]
      have hby : releasedBy i (m' :: tr) = releasedBy i tr := by simp [releasedBy, h]
      rw [List.cons_append, hcons, hcons, hby, ih]

theorem triesIn_of_releasesIn {i : ι} {m : Move ι} (h : releasesIn i m = true) :
    m.event = .main ∧ triesIn i m = false := by
  unfold releasesIn at h
  split at h
  · next he _ => exact ⟨he, by simp [triesIn, he]⟩
  · cases h

theorem triedAfterRelease_snoc (i : ι) (tr : List (Move ι)) (m : Move ι) :
    triedAfterRelease i (tr ++ [m]) =
      (triedAfterRelease i tr || (releasedBy i tr && triesIn i m)) := by
  unfold triedAfterRelease
  rw [afterRelease_snoc]
  cases hby : releasedBy i tr with
  | true => simp
  | false =>
    rw [afterRelease_eq_nil hby]
    cases hm : releasesIn i m with
    | true => simp [(triesIn_of_releasesIn hm).2]
    | false => simp

theorem spentAfterRelease_snoc (weight : Pc → ℕ) (i : ι) (tr : List (Move ι)) (m : Move ι) :
    spentAfterRelease weight i (tr ++ [m]) = spentAfterRelease weight i tr +
      if releasedBy i tr = true ∧ m.event = .worker i then weight (m.pre.tasks i).pc else 0 := by
  unfold spentAfterRelease
  rw [afterRelease_snoc]
  cases hby : releasedBy i tr with
  | true => simp
  | false =>
    rw [afterRelease_eq_nil hby]
    cases hm : releasesIn i m with
    | true => simp [(triesIn_of_releasesIn hm).1]
    | false => simp

/-! ## Steps and phases -/

variable {spec : ι → Spec} {program : List (ι × Op)} {s s' : State ι} {e : Event ι}
  {tr : List (Move ι)}

/-- What a step can be. -/
inductive StepCase (spec : ι → Spec) (s : State ι) : Event ι → State ι → Prop
  | statement (i : ι) (op : Op) (rest : List (ι × Op)) (t : Task)
      (hp : s.program = (i, op) :: rest) (ht : (s.tasks i).main op = some (.ok t)) :
      StepCase spec s .main { s with program := rest, tasks := Function.update s.tasks i t }
  | statementFault (i : ι) (op : Op) (rest : List (ι × Op)) (f : Fault)
      (hp : s.program = (i, op) :: rest) (ht : (s.tasks i).main op = some (.error f)) :
      StepCase spec s .main { s with fault := some (i, f) }
  | worker (i : ι) (t : Task) (ht : (s.tasks i).worker (spec i) = some (.ok t)) :
      StepCase spec s (.worker i) { s with tasks := Function.update s.tasks i t }
  | workerFault (i : ι) (f : Fault) (ht : (s.tasks i).worker (spec i) = some (.error f)) :
      StepCase spec s (.worker i) { s with fault := some (i, f) }

/-- **What a step does.** -/
theorem step_cases (h : (system spec program).step s e s') :
    s.fault = none ∧ StepCase spec s e s' := by
  change s.next spec e = some s' at h
  unfold State.next at h
  cases hf : s.fault with
  | some f =>
    rw [hf, Option.isSome_some, if_pos rfl] at h
    cases h
  | none =>
    rw [hf, Option.isSome_none, if_neg Bool.false_ne_true] at h
    refine ⟨rfl, ?_⟩
    cases e with
    | main =>
      cases hp : s.program with
      | nil =>
        simp only [hp] at h
        cases h
      | cons entry rest =>
        obtain ⟨i, op⟩ := entry
        simp only [hp] at h
        obtain ⟨r, hr, rfl⟩ := Option.map_eq_some_iff.mp h
        cases r with
        | ok t => exact .statement i op rest t hp hr
        | error f => exact .statementFault i op rest f hp hr
    | worker i =>
      obtain ⟨r, hr, rfl⟩ := Option.map_eq_some_iff.mp h
      cases r with
      | ok t => exact .worker i t hr
      | error f => exact .workerFault i f hr

/-- Where each thread is in its life, and where a fault has come from. -/
structure Phases (spec : ι → Spec) (tr : List (Move ι)) (s : State ι) : Prop where
  phase : ∀ i, Phase (spec i) (s.tasks i) (own i s.program) (releasedBy i tr)
    (triedAfterRelease i tr)
  fault : ∀ i f, s.fault = some (i, f) →
    (∃ op rest, s.program = (i, op) :: rest ∧ (s.tasks i).main op = some (.error f)) ∨
      (s.tasks i).worker (spec i) = some (.error f)

theorem phases_init (hw : WellFormed program) : Phases spec [] ({ program } : State ι) where
  phase i := by
    rcases hw i with h | h | h
    · rw [h]
      exact .fresh rfl rfl rfl rfl rfl
    · rw [h]
      exact .disabled rfl rfl
    · rw [h]
      exact .gone rfl
  fault i f h := by cases h

/-- A move that does nothing about thread `i`. -/
theorem phase_skip {i : ι} {m : Move ι} (hp : Phases spec tr s) (hr : releasesIn i m = false)
    (ht : triesIn i m = false) : Phase (spec i) (s.tasks i) (own i s.program)
      (releasedBy i (tr ++ [m])) (triedAfterRelease i (tr ++ [m])) := by
  rw [releasedBy_snoc, triedAfterRelease_snoc, hr, ht, Bool.and_false, Bool.or_false, Bool.or_false]
  exact hp.phase i

theorem Phases.step (hp : Phases spec tr s) (hn : s.fault = none) (h : StepCase spec s e s') :
    Phases spec (tr ++ [⟨s, e, s'⟩]) s' := by
  cases h with
  | statement i op rest t hprog ht =>
    refine ⟨fun j => ?_, fun j f hf => by rw [hn] at hf; cases hf⟩
    by_cases hj : i = j
    · subst hj
      have h := hp.phase i
      rw [hprog, own_cons_self] at h
      have hrel : releasesIn i ⟨s, .main, { s with
          program := rest, tasks := Function.update s.tasks i t }⟩ = decide (op = .unlock) := by
        cases op <;> simp [releasesIn, hprog, hn]
      have htry : triesIn i ⟨s, .main, { s with
          program := rest, tasks := Function.update s.tasks i t }⟩ = false := by simp [triesIn]
      rw [releasedBy_snoc, triedAfterRelease_snoc, hrel, htry, Bool.and_false, Bool.or_false]
      simp only [Function.update_self]
      exact h.main ht
    · have h := phase_skip (m := ⟨s, .main, { s with
        program := rest, tasks := Function.update s.tasks i t }⟩) (i := j) hp
        (by cases op <;> simp [releasesIn, hprog, hj]) (by simp [triesIn])
      rw [hprog, own_cons_ne hj] at h
      simp only [Function.update_of_ne (Ne.symm hj)]
      exact h
  | statementFault i op rest f hprog ht =>
    refine ⟨fun j => ?_, fun j f' hf => ?_⟩
    · have hrel : releasesIn j ⟨s, .main, { s with fault := some (i, f) }⟩ = false := by
        cases op <;> simp [releasesIn, hprog]
      have h := phase_skip hp hrel (by simp [triesIn])
      exact h
    · cases hf
      exact Or.inl ⟨op, rest, hprog, ht⟩
  | worker i t ht =>
    refine ⟨fun j => ?_, fun j f hf => by rw [hn] at hf; cases hf⟩
    have hrel : releasesIn j ⟨s, .worker i, { s with
        tasks := Function.update s.tasks i t }⟩ = false := rfl
    by_cases hj : i = j
    · subst hj
      have htry : triesIn i ⟨s, .worker i, { s with
          tasks := Function.update s.tasks i t }⟩ = (s.tasks i).pc.isTryLock := by
        simp [triesIn, hn]
      rw [releasedBy_snoc, triedAfterRelease_snoc, hrel, htry, Bool.or_false]
      simp only [Function.update_self]
      exact (hp.phase i).worker ht
    · simp only [Function.update_of_ne (Ne.symm hj)]
      refine phase_skip hp hrel ?_
      simp [triesIn, hj]
  | workerFault i f ht =>
    refine ⟨fun j => ?_, fun j f' hf => ?_⟩
    · have hrel : releasesIn j ⟨s, .worker i, { s with fault := some (i, f) }⟩ = false := rfl
      have h := phase_skip hp hrel (by simp [triesIn])
      exact h
    · cases hf
      exact Or.inr ht

/-- **Every thread is in a phase of its life after every run.** -/
theorem phases_of_run (hw : WellFormed program) (hr : Run (system spec program) tr s) :
    Phases spec tr s := by
  induction hr with
  | nil h =>
    cases h
    exact phases_init hw
  | snoc hr hs ih =>
    obtain ⟨hn, hc⟩ := step_cases hs
    exact ih.step hn hc

section Runs

variable (hw : WellFormed program) (hr : Run (system spec program) tr s)

include hw hr

/-! ## Waiting -/

theorem absent_of_program_eq_nil (hprog : s.program = []) (i : ι) : (s.tasks i).pc = .absent := by
  have h := (phases_of_run hw hr).phase i
  rw [hprog] at h
  change Phase _ _ [] _ _ at h
  generalize releasedBy i tr = released at h
  generalize triedAfterRelease i tr = tried at h
  cases h with
  | destroyed _ hp | gone hp => exact hp

/-- The main thread waits for a thread only when it has released its mutex, and then that thread can
make a step. -/
theorem waits_for_worker {i : ι} {op : Op} {rest : List (ι × Op)}
    (hprog : s.program = (i, op) :: rest) (hwait : (s.tasks i).main op = none) :
    op = .join ∧ releasedBy i tr = true ∧ ∃ r, (s.tasks i).worker (spec i) = some r := by
  have h := (phases_of_run hw hr).phase i
  rw [hprog, own_cons_self] at h
  exact h.blocked hwait

/-- **There is no deadlock**: no thread can go on only when there has been a fault, or when the main
thread has come to its end. -/
theorem stuck_iff : s.Stuck spec ↔ s.fault.isSome = true ∨ s.program = [] := by
  refine ⟨fun h => ?_, ?_⟩
  · by_cases hf : s.fault.isSome = true
    · exact Or.inl hf
    cases hprog : s.program with
    | nil => exact Or.inr rfl
    | cons entry rest =>
      exfalso
      obtain ⟨i, op⟩ := entry
      have hmain := h .main
      have hworker := h (.worker i)
      simp only [State.next, if_neg hf, hprog, Option.map_eq_none_iff] at hmain hworker
      obtain ⟨-, -, r, hr'⟩ := waits_for_worker hw hr hprog hmain
      rw [hworker] at hr'
      cases hr'
  · rintro (hf | hprog) e
    · simp only [State.next, if_pos hf]
    · have hgone := absent_of_program_eq_nil hw hr hprog
      cases e with
      | main => simp [State.next, hprog]
      | worker i => simp [State.next, worker_of_absent (hgone i)]

/-! ## Faults -/

/-- **Where a fault can come from.** -/
theorem fault_cases {i : ι} {f : Fault} (hf : s.fault = some (i, f)) :
    (f = .destroyHeld ∧ (spec i).unlocks = false ∧ triedAfterRelease i tr = true) ∨
      (f = .unlockNotHeld ∧ (spec i).unlocks = true ∧ triedAfterRelease i tr = false) ∨
        (f = .overflow ∧ (spec i).runInterval < 0) := by
  obtain ⟨hphase, hfault⟩ := phases_of_run hw hr
  rcases hfault i f hf with ⟨op, rest, hprog, ht⟩ | ht
  · have h := hphase i
    rw [hprog, own_cons_self] at h
    exact Or.inl (h.main_error ht)
  · exact Or.inr ((hphase i).worker_error ht)

theorem releasedBy_of_own_eq_nil {i : ι} (hown : own i s.program = []) :
    releasedBy i tr = true → (spec i).unlocks = triedAfterRelease i tr := by
  have h := (phases_of_run hw hr).phase i
  rw [hown] at h
  generalize releasedBy i tr = released at h
  generalize triedAfterRelease i tr = tried at h
  cases h with
  | destroyed _ _ hu => exact fun _ => hu
  | gone => exact fun h => by cases h

end Runs

/-- The mutex of a thread is released, or will be, when the program says so. -/
theorem unlock_mem_own {i : ι} (hr : Run (system spec program) tr s) :
    releasedBy i tr = true ∨ .unlock ∈ own i s.program ↔ .unlock ∈ own i program := by
  induction hr with
  | nil h =>
    cases h
    exact or_iff_right fun h => by cases h
  | @snoc tr s s' e hr hs ih =>
    obtain ⟨hn, hc⟩ := step_cases hs
    rw [← ih, releasedBy_snoc, Bool.or_eq_true, or_assoc]
    refine or_congr_right ?_
    cases hc with
    | statement j op rest t hprog ht =>
      by_cases hj : j = i
      · subst hj
        rw [hprog, own_cons_self, List.mem_cons]
        refine or_congr_left ?_
        cases op <;> simp [releasesIn, hprog, hn]
      · rw [hprog, own_cons_ne hj]
        refine or_iff_right fun h => ?_
        cases op <;> simp [releasesIn, hprog, hj] at h
    | statementFault j op rest f hprog ht =>
      refine or_iff_right fun h => ?_
      cases op <;> simp [releasesIn, hprog] at h
    | worker | workerFault => exact or_iff_right fun h => by cases h

/-- The threads of a program with a mutex to release are those with a life. -/
theorem WellFormed.lifecycle_of_unlock (hw : WellFormed program) {i : ι}
    (h : .unlock ∈ own i program) : own i program = lifecycle := by
  rcases hw i with hown | hown | hown
  · exact hown
  · rw [hown] at h
    exact absurd h (by decide)
  · rw [hown] at h
    cases h

section Ends

variable (hw : WellFormed program) (hr : Run (system spec program) tr s)

include hw hr

/-- **The runs that end without a fault**: since its mutex was released, each thread that unlocks
the mutex after its loop has tried it, and each other thread has not. -/
theorem clean_iff (hinterval : ∀ i, 0 ≤ (spec i).runInterval) (hs : s.Stuck spec) :
    s.fault = none ↔
      ∀ i, own i program = lifecycle → (spec i).unlocks = triedAfterRelease i tr := by
  refine ⟨fun hf i hown => ?_, fun h => ?_⟩
  · have hprog := ((stuck_iff hw hr).mp hs).resolve_left (by simp [hf])
    have hnil : own i s.program = [] := by rw [hprog]; rfl
    refine releasedBy_of_own_eq_nil hw hr hnil (((unlock_mem_own hr).mpr ?_).resolve_right ?_)
    · rw [hown]
      decide
    · rw [hnil]
      exact List.not_mem_nil
  · by_contra hf
    obtain ⟨⟨i, f⟩, hf⟩ := Option.ne_none_iff_exists'.mp hf
    obtain ⟨hphase, hfault⟩ := phases_of_run hw hr
    have hown : own i program = lifecycle := by
      refine hw.lifecycle_of_unlock ((unlock_mem_own hr).mp ?_)
      rcases hfault i f hf with ⟨op, rest, hprog, ht⟩ | ht
      · have hp := hphase i
        rw [hprog, own_cons_self] at hp
        exact Or.inl (hp.released_of_tried (hp.main_error ht).2.2)
      · exact (hphase i).active ht
    rcases fault_cases hw hr hf with ⟨-, hu, ht⟩ | ⟨-, hu, ht⟩ | ⟨-, hneg⟩
    · rw [h i hown, ht] at hu
      cases hu
    · rw [h i hown, ht] at hu
      cases hu
    · exact absurd (hinterval i) (not_le.mpr hneg)

/-! ## Time -/

/-- **Between two rounds, a thread sleeps as often as its interval says** as long as the main thread
holds its mutex. -/
theorem sleeps_between_rounds {i : ι} (hh : (s.tasks i).holder = some .main)
    (hpc : (s.tasks i).pc = .test) :
    ((s.tasks i).sleeps : ℤ) = (s.tasks i).rounds * (spec i).runInterval :=
  ((phases_of_run hw hr).phase i).sleeps hh hpc

end Ends

/-- What the places of a thread have left to spend after the release of its mutex. -/
structure Budget (weight left : Pc → ℕ) (bound : ℕ) : Prop where
  le : ∀ pc, left pc ≤ bound
  absent : left .absent = 0
  step : ∀ {pc pc' : Pc}, Descends pc pc' → weight pc + left pc' ≤ left pc

theorem spentAfterRelease_of_not_released {weight : Pc → ℕ} {i : ι} (h : releasedBy i tr = false) :
    spentAfterRelease weight i tr = 0 := by
  rw [spentAfterRelease, afterRelease_eq_nil h]
  rfl

/-- A thread keeps to its budget. -/
theorem Budget.spent_le {weight left : Pc → ℕ} {bound : ℕ} (hb : Budget weight left bound)
    (hw : WellFormed program) (hr : Run (system spec program) tr s) (i : ι) :
    spentAfterRelease weight i tr +
      (if s.fault.isSome then 0 else left (s.tasks i).pc) ≤ bound ∨ releasedBy i tr = false := by
  induction hr with
  | nil _ => exact Or.inr rfl
  | @snoc tr s s' e hr hs ih =>
    have hphase := (phases_of_run hw hr).phase i
    obtain ⟨hn, hc⟩ := step_cases hs
    rw [spentAfterRelease_snoc, releasedBy_snoc]
    simp only [hn, Option.isSome_none, Bool.false_eq_true, if_false] at ih
    cases hrel : releasedBy i tr with
    | false =>
      -- the budget begins with the release itself
      rw [spentAfterRelease_of_not_released hrel, if_neg (by simp)]
      refine Or.inl ?_
      split_ifs
      · exact Nat.zero_le _
      · simpa using hb.le _
    | true =>
      have hspent := ih.resolve_right (by simp [hrel])
      rw [hrel] at hphase
      refine Or.inl ?_
      cases hc with
      | statement j op rest t hprog ht =>
        by_cases hj : j = i
        · subst hj
          rw [hprog, own_cons_self] at hphase
          simp only [Function.update_self, hphase.main_released ht, hb.absent]
          rw [if_neg (by simp)]
          split_ifs <;> omega
        · simp only [Function.update_of_ne (Ne.symm hj), hn]
          simpa using hspent
      | statementFault j op rest f hprog ht =>
        simp
        omega
      | worker j t ht =>
        by_cases hj : j = i
        · subst hj
          obtain ⟨hf, hh⟩ := hphase.worker_released ht
          have hstep := hb.step (descends_of_worker hf hh ht)
          simp only [Function.update_self, hn, Option.isSome_none, Bool.false_eq_true, if_false,
            true_and, if_true]
          omega
        · simp only [Function.update_of_ne (Ne.symm hj), hn]
          simpa [hj] using hspent
      | workerFault j f ht =>
        by_cases hj : j = i
        · subst hj
          obtain ⟨pc, hpc⟩ := exists_descends_of_error ht
          have hstep := hb.step hpc
          simp only [Option.isSome_some, if_true, true_and]
          omega
        · simp [hj]
          omega

/-- The steps that a thread has left. -/
def stepsLeft : Pc → ℕ
  | .work | .sleep _ => 4
  | .tryLock _ => 3
  | .test => 2
  | .unlock => 1
  | .absent | .finished => 0

/-- The places where a thread stays for long. -/
def long : Pc → ℕ
  | .work | .sleep _ => 1
  | _ => 0

theorem budget_steps : Budget (fun _ => 1) stepsLeft 4 where
  le pc := by cases pc <;> simp [stepsLeft]
  absent := rfl
  step h := by cases h <;> simp [stepsLeft]

theorem budget_long : Budget long long 1 where
  le pc := by cases pc <;> simp [long]
  absent := rfl
  step h := by cases h <;> simp [long]

/-- **After the release of its mutex, a thread makes four steps at most, and only one of them is a
round or a sleep.** -/
theorem few_steps_after_release (hw : WellFormed program) (hr : Run (system spec program) tr s)
    (i : ι) : spentAfterRelease (fun _ => 1) i tr ≤ 4 ∧ spentAfterRelease long i tr ≤ 1 := by
  have hle : ∀ {weight left : Pc → ℕ} {bound : ℕ}, Budget weight left bound →
      spentAfterRelease weight i tr ≤ bound := fun hb => by
    rcases hb.spent_le hw hr i with h | h
    · exact Nat.le_trans (Nat.le_add_right _ _) h
    · rw [spentAfterRelease_of_not_released h]
      exact Nat.zero_le _
  exact ⟨hle budget_steps, hle budget_long⟩

/-! ## The end can always be reached -/

theorem State.next_main {i : ι} {op : Op} {rest : List (ι × Op)} (hf : s.fault = none)
    (hprog : s.program = (i, op) :: rest) :
    s.next spec .main = ((s.tasks i).main op).map (s.put i rest) := by
  simp [State.next, hf, hprog]

theorem State.next_worker (hf : s.fault = none) (i : ι) :
    s.next spec (.worker i) = ((s.tasks i).worker (spec i)).map (s.put i s.program) := by
  simp [State.next, hf]

/-- The next statement of the main thread is done after some steps of the thread it is about. -/
theorem exists_statement (hw : WellFormed program) {i : ι} {op : Op} {rest : List (ι × Op)}
    (n : ℕ) : ∀ {tr : List (Move ι)} {s : State ι},
      Run (system spec program) tr s → s.fault = none → s.program = (i, op) :: rest →
      stepsLeft (s.tasks i).pc ≤ n →
      ∃ more s', Run (system spec program) (tr ++ more) s' ∧ more.length ≤ n + 1 ∧
        (s'.fault.isSome = true ∨ s'.program = rest) := by
  have hone : ∀ {tr : List (Move ι)} {s : State ι} {e : Event ι} {s' : State ι},
      Run (system spec program) tr s → s.next spec e = some s' →
      (s'.fault.isSome = true ∨ s'.program = rest) → ∀ n,
      ∃ more s', Run (system spec program) (tr ++ more) s' ∧ more.length ≤ n + 1 ∧
        (s'.fault.isSome = true ∨ s'.program = rest) := fun hr hs h n =>
    ⟨_, _, hr.snoc hs, Nat.le_add_left _ _, h⟩
  induction n with
  | zero =>
    intro tr s hr hf hprog hleft
    cases hm : (s.tasks i).main op with
    | some r =>
      refine hone hr (e := .main) (by rw [State.next_main hf hprog, hm]; rfl) ?_ 0
      cases r with
      | ok t => exact Or.inr rfl
      | error f => exact Or.inl rfl
    | none =>
      obtain ⟨-, -, r, hr'⟩ := waits_for_worker hw hr hprog hm
      cases hpc : (s.tasks i).pc <;> simp [stepsLeft, hpc] at hleft <;>
        simp [Task.worker, hpc] at hr'
  | succ n ih =>
    intro tr s hr hf hprog hleft
    cases hm : (s.tasks i).main op with
    | some r =>
      refine hone hr (e := .main) (by rw [State.next_main hf hprog, hm]; rfl) ?_ (n + 1)
      cases r with
      | ok t => exact Or.inr rfl
      | error f => exact Or.inl rfl
    | none =>
      obtain ⟨-, hrel, r, hr'⟩ := waits_for_worker hw hr hprog hm
      have hstep : s.next spec (.worker i) = some (s.put i s.program r) := by
        rw [State.next_worker hf, hr']
        rfl
      cases r with
      | error f => exact hone hr hstep (Or.inl rfl) (n + 1)
      | ok t =>
        have hphase := (phases_of_run hw hr).phase i
        rw [hrel] at hphase
        obtain ⟨hflag, hheld⟩ := hphase.worker_released hr'
        have hdown := budget_steps.step (descends_of_worker hflag hheld hr')
        have hsnoc := hr.snoc (show (system spec program).step s (.worker i) _ from hstep)
        obtain ⟨more, s', hr'', hlen, hend⟩ := ih hsnoc hf hprog (by
          change stepsLeft (Function.update s.tasks i t i).pc ≤ n
          rw [Function.update_self]
          omega)
        exact ⟨_ :: more, s', by rwa [List.append_cons], Nat.succ_le_succ hlen, hend⟩

/-- **From every state that a run gets to, the end can be reached**, with five steps for each
statement that is left. -/
theorem exists_end (hw : WellFormed program) (n : ℕ) :
    ∀ {tr : List (Move ι)} {s : State ι}, Run (system spec program) tr s → s.program.length = n →
      ∃ more s', Run (system spec program) (tr ++ more) s' ∧ s'.Stuck spec ∧
        more.length ≤ 5 * n := by
  induction n with
  | zero =>
    intro tr s hr hlen
    refine ⟨[], s, by rwa [List.append_nil], (stuck_iff hw hr).mpr (Or.inr ?_), Nat.zero_le _⟩
    exact List.eq_nil_of_length_eq_zero hlen
  | succ n ih =>
    intro tr s hr hlen
    by_cases hf : s.fault = none
    · obtain ⟨⟨i, op⟩, rest, hprog⟩ := List.exists_cons_of_length_eq_add_one hlen
      obtain ⟨more, s', hr', hmore, hend⟩ := exists_statement hw 4 hr hf hprog (budget_steps.le _)
      rcases hend with hfault | hrest
      · exact ⟨more, s', hr', (stuck_iff hw hr').mpr (Or.inl hfault), by omega⟩
      · have hlen' : s'.program.length = n := by
          rw [hprog, List.length_cons] at hlen
          rw [hrest]
          omega
        obtain ⟨more', s'', hr'', hstuck, hmore'⟩ := ih hr' hlen'
        refine ⟨more ++ more', s'', by rwa [← List.append_assoc], hstuck, ?_⟩
        rw [List.length_append]
        omega
    · refine ⟨[], s, by rwa [List.append_nil], (stuck_iff hw hr).mpr (Or.inl ?_), Nat.zero_le _⟩
      exact Option.isSome_iff_ne_none.mpr hf

/-! ## The threads of the server -/

section Server

variable (o : ServerOptions) {tr : List (Move Thread)} {s : State Thread}

theorem own_serverProgram (i : Thread) :
    own i o.serverProgram = if o.enabled i = true then lifecycle else [.destroy] := by
  obtain ⟨monitor, _, cleaner, _, manager, _⟩ := o
  cases monitor <;> cases cleaner <;> cases manager <;> cases i <;> rfl

theorem wellFormed_serverProgram : WellFormed o.serverProgram := by
  intro i
  rw [own_serverProgram]
  split_ifs
  · exact Or.inl rfl
  · exact Or.inr (Or.inl rfl)

/-- The main thread comes to its end without a fault. -/
def EndsClean (spec : Thread → Spec) (program : List (Thread × Op)) : Prop :=
  ∃ tr s, Run (system spec program) tr s ∧ s.program = [] ∧ s.fault = none

/-- Thread `i` is started and works. -/
def begun (i : Thread) : List (Event Thread) :=
  if o.enabled i then List.replicate 3 .main ++ List.replicate 2 (.worker i) else []

/-- Thread `i` is stopped before it tries its mutex. -/
def ended (i : Thread) : List (Event Thread) :=
  if o.enabled i then List.replicate 2 .main ++ List.replicate 3 (.worker i) ++ [.main] else []

/-- The thread of the module manager is started and stopped before it works. -/
def managerEnded : List (Event Thread) :=
  if o.managerThreadEnabled then .main :: .worker .manager :: List.replicate 2 .main else []

def serverEnd : List (Event Thread) :=
  begun o .monitor ++ begun o .cleaner ++
    (if o.managerThreadEnabled then List.replicate 3 .main else []) ++
    (ended o .monitor ++ ended o .cleaner ++ List.replicate 2 .main) ++
    (managerEnded o ++ [.main])

def failedEnd : List (Event Thread) :=
  begun o .monitor ++ begun o .cleaner ++ (ended o .monitor ++ ended o .cleaner) ++
    List.replicate 3 .main

theorem endsClean_of_trace {spec : Thread → Spec} {program : List (Thread × Op)}
    (es : List (Event Thread)) (h : (trace (State.next spec) { program } es).map
      (fun r => (r.2.program, r.2.fault)) = some ([], none)) : EndsClean spec program := by
  obtain ⟨⟨tr, s⟩, htrace, he⟩ := Option.map_eq_some_iff.mp h
  exact ⟨tr, s, run_trace htrace, congrArg Prod.fst he, congrArg Prod.snd he⟩

/-- The thread of the module manager is not started, and is yet to be stopped, which cannot be
done. -/
structure Unstarted (s : State Thread) : Prop where
  own : own .manager s.program = stop ++ [.destroy] ∨
    own .manager s.program = [.unlock, .join, .destroy]
  holder : (s.tasks .manager).holder = none
  pc : (s.tasks .manager).pc = .absent
  fault : ∀ f, s.fault = some (.manager, f) → f = .unlockNotHeld

theorem Unstarted.step {spec : Thread → Spec} {s' : State Thread} {e : Event Thread}
    (h : Unstarted s) (hc : StepCase spec s e s') : Unstarted s' := by
  obtain ⟨hown, hholder, hpc, hfault⟩ := h
  cases hc with
  | statementFault i op rest f hprog ht =>
    refine ⟨hown, hholder, hpc, fun f' he => ?_⟩
    cases he
    rw [hprog, own_cons_self] at hown
    rcases hown with hown | hown
    · obtain ⟨rfl, -⟩ := List.cons.inj hown
      cases ht
    · obtain ⟨rfl, -⟩ := List.cons.inj hown
      simpa [Task.main, hholder, eq_comm] using ht
  | workerFault i f ht =>
    refine ⟨hown, hholder, hpc, fun f' he => ?_⟩
    cases he
    rw [worker_of_absent hpc] at ht
    cases ht
  | worker i t ht =>
    by_cases hi : i = .manager
    · subst hi
      rw [worker_of_absent hpc] at ht
      cases ht
    · refine ⟨hown, ?_, ?_, hfault⟩ <;> simpa only [Function.update_of_ne (Ne.symm hi)]
  | statement i op rest t hprog ht =>
    by_cases hi : i = .manager
    · subst hi
      rw [hprog, own_cons_self] at hown
      rcases hown with hown | hown
      · obtain ⟨rfl, hrest⟩ := List.cons.inj hown
        cases ht
        exact ⟨Or.inr hrest, by simpa using hholder, by simpa using hpc, hfault⟩
      · obtain ⟨rfl, -⟩ := List.cons.inj hown
        simp [Task.main, hholder] at ht
    · rw [hprog, own_cons_ne hi] at hown
      refine ⟨hown, ?_, ?_, hfault⟩ <;> simpa only [Function.update_of_ne (Ne.symm hi)]

theorem Unstarted.program_ne_nil {s : State Thread} (h : Unstarted s) : s.program ≠ [] := by
  intro hend
  have hown := h.own
  rw [hend] at hown
  rcases hown with hown | hown <;> cases hown

theorem unstarted_of_run (he : o.managerThreadEnabled = true)
    (hr : Run (system o.spec o.failedProgram) tr s) : Unstarted s := by
  refine hr.state_invariant (I := Unstarted) ?_ fun _ _ _ h hs => h.step (step_cases hs).2
  rintro _ rfl
  refine ⟨Or.inl ?_, rfl, rfl, fun f hf => by cases hf⟩
  obtain ⟨monitor, _, cleaner, _, manager, _⟩ := o
  cases he
  cases monitor <;> cases cleaner <;> rfl

end Server

section Sample

/-- A server with all threads, whose intervals are a sleep each. -/
def shortIntervals : ServerOptions := ⟨true, 1, true, 1, true, 1⟩

/-- The first steps of a thread: a round and a sleep. -/
def oneRound (i : Thread) : List (Event Thread) := List.replicate 4 (.worker i)

/-- The main thread starts all threads. -/
def started : List (Event Thread) :=
  List.replicate 9 .main ++ oneRound .monitor ++ oneRound .cleaner ++ oneRound .manager

/-- The main thread stops thread `i`, which makes the given number of steps before the release of
its mutex and after it. -/
def stopping (i : Thread) (before after : ℕ) : List (Event Thread) :=
  .main :: List.replicate before (.worker i) ++ .main :: List.replicate after (.worker i) ++ [.main]

/-- The threads that unlock their mutexes try them first, and the thread of the manager does not. -/
def cleanEnd : List (Event Thread) :=
  started ++ stopping .monitor 0 3 ++ stopping .cleaner 0 3 ++ [.main, .main] ++
    stopping .manager 2 0 ++ [.main]

/-- The run of a server with short intervals. -/
abbrev runOf (es : List (Event Thread)) : List (Move Thread) × State Thread :=
  traceOf (State.next shortIntervals.spec) { program := shortIntervals.serverProgram } es

/-- The monitor finds the flag set before its mutex is released. -/
def earlyEnd : List (Event Thread) := started ++ .main :: List.replicate 3 (.worker .monitor)

end Sample

end NixSrv.Periodic
