import Mathlib.Tactic.Linarith
import NixSrv.Periodic.Model

/-!
# The life of one thread

* `lifecycle`, `Between`, `Stopping`, **`Phase`**: the states of a thread by what the main thread
  has still to do about it;
* `Phase.main`, `Phase.worker`: the steps keep to them;
* `Phase.main_error`, `Phase.worker_error`: the faults that can happen;
* `Phase.blocked`: what the main thread may have to wait for.
-/

namespace NixSrv.Periodic

/-- What the main thread does about a thread that is enabled. -/
def lifecycle : List Op := start ++ stop ++ [.destroy]

section Phases

variable (spec : Spec) (t : Task)

/-- Before the mutex is released, a round is as many sleeps as the interval says. -/
def Between : Prop :=
  match t.pc with
  | .test | .work => (t.sleeps : ℤ) = t.rounds * spec.runInterval
  | .tryLock loops =>
    t.sleeps + loops = t.rounds * spec.runInterval ∧ (0 ≤ spec.runInterval → 0 ≤ loops)
  | .sleep loops =>
    t.sleeps + 1 + loops = t.rounds * spec.runInterval ∧ (0 ≤ spec.runInterval → 0 ≤ loops)
  | .absent | .unlock | .finished => False

/-- The mutex by whether it has been tried since its release. -/
def heldIf (tried : Bool) : Option Party := if tried then some .worker else none

/-- After the release, the thread holds the mutex as soon as it has tried it. -/
def Stopping (tried : Bool) : Prop :=
  match t.pc with
  | .test => t.holder = heldIf tried
  | .work | .tryLock _ | .sleep _ => t.holder = none ∧ tried = false
  | .unlock => spec.unlocks = true ∧ t.holder = heldIf tried
  | .finished => t.holder = heldIf (tried && !spec.unlocks) ∧ (spec.unlocks = true → tried = true)
  | .absent => False

/-- The thread has left its loop. -/
def Left : Prop := t.pc = if spec.unlocks then .unlock else .finished

/-- **The states of a thread** by the statements that are left, whether the mutex has been released,
and whether the thread has tried it since. -/
inductive Phase : List Op → Bool → Bool → Prop
  | fresh (hf : t.stopFlag = false) (hh : t.holder = none) (hp : t.pc = .absent)
      (hr : t.rounds = 0) (hs : t.sleeps = 0) : Phase lifecycle false false
  | cleared (hf : t.stopFlag = false) (hh : t.holder = none) (hp : t.pc = .absent)
      (hr : t.rounds = 0) (hs : t.sleeps = 0) :
      Phase [.lock, .spawn, .setFlag true, .unlock, .join, .destroy] false false
  | locked (hf : t.stopFlag = false) (hh : t.holder = some .main) (hp : t.pc = .absent)
      (hr : t.rounds = 0) (hs : t.sleeps = 0) :
      Phase [.spawn, .setFlag true, .unlock, .join, .destroy] false false
  | running (hf : t.stopFlag = false) (hh : t.holder = some .main) (hb : Between spec t) :
      Phase [.setFlag true, .unlock, .join, .destroy] false false
  | flagged (hf : t.stopFlag = true) (hh : t.holder = some .main)
      (hb : Between spec t ∨ Left spec t) : Phase [.unlock, .join, .destroy] false false
  | released (tried : Bool) (hf : t.stopFlag = true) (hs : Stopping spec t tried) :
      Phase [.join, .destroy] true tried
  | joined (tried : Bool) (hp : t.pc = .absent) (hh : t.holder = heldIf (tried && !spec.unlocks))
      (hu : spec.unlocks = true → tried = true) : Phase [.destroy] true tried
  | destroyed (tried : Bool) (hp : t.pc = .absent) (hu : spec.unlocks = tried) :
      Phase [] true tried
  | disabled (hh : t.holder = none) (hp : t.pc = .absent) : Phase [.destroy] false false
  | gone (hp : t.pc = .absent) : Phase [] false false

end Phases

variable {spec : Spec} {t t' : Task} {op : Op} {rest ops : List Op} {released tried : Bool}
  {f : Fault}

/-- A statement of the main thread. -/
theorem Phase.main (h : Phase spec t (op :: rest) released tried)
    (hs : t.main op = some (.ok t')) :
    Phase spec t' rest (released || decide (op = .unlock)) tried := by
  generalize hops : op :: rest = ops at h
  cases h with
  | fresh hf hh hp hr hsl =>
    cases hops
    cases hs
    exact .cleared rfl hh hp hr hsl
  | cleared hf hh hp hr hsl =>
    cases hops
    simp only [Task.main, hh] at hs
    cases hs
    exact .locked hf rfl hp hr hsl
  | locked hf hh hp hr hsl =>
    cases hops
    simp only [Task.main, hp, if_true] at hs
    cases hs
    exact .running hf hh (by simp [Between, hr, hsl])
  | running hf hh hb =>
    cases hops
    cases hs
    exact .flagged rfl hh (Or.inl hb)
  | flagged hf hh hb =>
    cases hops
    simp only [Task.main, hh, if_true] at hs
    cases hs
    refine .released false hf ?_
    rcases hb with hb | hb
    · unfold Between at hb
      unfold Stopping
      cases hp : t.pc <;> simp_all [heldIf]
    · unfold Stopping
      rw [Left] at hb
      cases hu : spec.unlocks <;> simp_all [heldIf]
  | released tried hf hst =>
    cases hops
    unfold Stopping at hst
    cases hp : t.pc with
    | absent =>
      simp only [hp] at hst
    | finished =>
      simp only [hp] at hst
      simp only [Task.main, hp] at hs
      cases hs
      exact .joined tried rfl hst.1 hst.2
    | test | work | tryLock _ | sleep _ | unlock =>
      simp only [Task.main, hp] at hs
      cases hs
  | joined tried hp hh hu =>
    cases hops
    by_cases hn : t.holder = none
    · simp only [Task.main, hp, hn, ne_eq, not_true_eq_false, if_false] at hs
      cases hs
      refine .destroyed tried hp ?_
      rw [hh, heldIf] at hn
      cases htr : tried <;> cases hu' : spec.unlocks <;> simp_all
    · simp only [Task.main, hp, ne_eq, not_true_eq_false, if_false, hn, not_false_iff,
        if_true] at hs
      cases hs
  | disabled hh hp =>
    cases hops
    simp only [Task.main, hp, hh, ne_eq, not_true_eq_false, if_false] at hs
    cases hs
    exact .gone hp
  | destroyed | gone => cases hops

/-- A thread without steps is in no phase that a step of it could leave. -/
theorem worker_of_absent (hp : t.pc = .absent) : t.worker spec = none := by
  simp only [Task.worker, hp]

/-- A step of a thread before the mutex is released. -/
theorem Between.worker (hh : t.holder = some .main) (hb : Between spec t)
    (hs : t.worker spec = some (.ok t')) :
    t'.stopFlag = t.stopFlag ∧ t'.holder = some .main ∧
      ((t.stopFlag = true → Between spec t' ∨ Left spec t') ∧
        (t.stopFlag = false → Between spec t')) := by
  unfold Between at hb
  cases hp : t.pc with
  | absent | unlock | finished => simp only [hp] at hb
  | test =>
    simp only [hp] at hb
    simp only [Task.worker, hp] at hs
    cases hs
    refine ⟨rfl, hh, fun hf => Or.inr ?_, fun hf => ?_⟩
    · simp [Left, hf]
    · simp [Between, hf, hb]
  | work =>
    simp only [hp] at hb
    simp only [Task.worker, hp] at hs
    cases hs
    have hround : (t.sleeps : ℤ) + spec.runInterval = (t.rounds + 1 : ℕ) * spec.runInterval := by
      push_cast
      linarith
    exact ⟨rfl, hh, fun _ => Or.inl ⟨hround, id⟩, fun _ => ⟨hround, id⟩⟩
  | tryLock loops =>
    simp only [hp] at hb
    simp only [Task.worker, hp, hh] at hs
    by_cases h0 : loops = 0
    · rw [if_pos h0] at hs
      cases hs
      have hround : (t.sleeps : ℤ) = t.rounds * spec.runInterval := by linarith [hb.1]
      exact ⟨rfl, rfl, fun _ => Or.inl hround, fun _ => hround⟩
    · have hmin : loops ≠ -2 ^ 31 := by
        intro hmin
        rw [if_neg h0, if_pos hmin] at hs
        cases hs
      rw [if_neg h0, if_neg hmin] at hs
      cases hs
      have hround : (t.sleeps : ℤ) + 1 + (loops - 1) = t.rounds * spec.runInterval := by
        linarith [hb.1]
      have hpos : 0 ≤ spec.runInterval → 0 ≤ loops - 1 := fun h => by
        have := hb.2 h
        omega
      exact ⟨rfl, rfl, fun _ => Or.inl ⟨hround, hpos⟩, fun _ => ⟨hround, hpos⟩⟩
  | sleep loops =>
    simp only [hp] at hb
    simp only [Task.worker, hp] at hs
    cases hs
    have hround : ((t.sleeps + 1 : ℕ) : ℤ) + loops = t.rounds * spec.runInterval := by
      push_cast
      exact hb.1
    exact ⟨rfl, hh, fun _ => Or.inl ⟨hround, hb.2⟩, fun _ => ⟨hround, hb.2⟩⟩

/-- A step of a thread after the mutex is released. -/
theorem Stopping.worker (hf : t.stopFlag = true) (hst : Stopping spec t tried)
    (hs : t.worker spec = some (.ok t')) :
    t'.stopFlag = true ∧ Stopping spec t' (tried || t.pc.isTryLock) := by
  unfold Stopping at hst
  cases hp : t.pc with
  | absent => simp only [hp] at hst
  | finished =>
    simp only [Task.worker, hp] at hs
    cases hs
  | test =>
    simp only [hp] at hst
    simp only [Task.worker, hp, hf, if_true] at hs
    cases hs
    refine ⟨rfl, ?_⟩
    cases hu : spec.unlocks <;> simp [Stopping, hu, hst, Pc.isTryLock]
  | work =>
    simp only [hp] at hst
    simp only [Task.worker, hp] at hs
    cases hs
    exact ⟨hf, by simp [Stopping, hst, Pc.isTryLock]⟩
  | tryLock loops =>
    simp only [hp] at hst
    simp only [Task.worker, hp, hst.1] at hs
    cases hs
    exact ⟨hf, by simp [Stopping, Pc.isTryLock, heldIf]⟩
  | sleep loops =>
    simp only [hp] at hst
    simp only [Task.worker, hp] at hs
    cases hs
    exact ⟨hf, by simp [Stopping, hst, Pc.isTryLock]⟩
  | unlock =>
    simp only [hp] at hst
    have hw : t.holder = some .worker := by
      by_contra hw
      simp only [Task.worker, hp, if_neg hw] at hs
      cases hs
    simp only [Task.worker, hp, if_pos hw] at hs
    cases hs
    refine ⟨hf, ?_⟩
    rw [hst.2, heldIf] at hw
    cases htr : tried <;> simp_all [Stopping, Pc.isTryLock, heldIf]

/-- A step of the thread. -/
theorem Phase.worker (h : Phase spec t ops released tried) (hs : t.worker spec = some (.ok t')) :
    Phase spec t' ops released (tried || (released && t.pc.isTryLock)) := by
  cases h with
  | fresh _ _ hp | cleared _ _ hp | locked _ _ hp | joined _ hp | destroyed _ hp
  | disabled _ hp | gone hp =>
    rw [worker_of_absent hp] at hs
    cases hs
  | running hf hh hb =>
    obtain ⟨hf', hh', -, hb'⟩ := hb.worker hh hs
    exact .running (hf'.trans hf) hh' (hb' hf)
  | flagged hf hh hb =>
    rcases hb with hb | hl
    · obtain ⟨hf', hh', hb', -⟩ := hb.worker hh hs
      exact .flagged (hf'.trans hf) hh' (hb' hf)
    · exfalso
      rw [Left] at hl
      cases hu : spec.unlocks <;> simp [hu] at hl <;> simp [Task.worker, hl, hh] at hs
  | released tried hf hst =>
    obtain ⟨hf', hst'⟩ := hst.worker hf hs
    exact .released _ hf' hst'

/-! ## Faults and waiting -/

/-- The only fault of the main thread: the mutex of a thread that does not unlock it is destroyed
while it is held. -/
theorem Phase.main_error (h : Phase spec t (op :: rest) released tried)
    (hs : t.main op = some (.error f)) :
    f = .destroyHeld ∧ spec.unlocks = false ∧ tried = true := by
  generalize hops : op :: rest = ops at h
  cases h with
  | fresh | running =>
    cases hops
    cases hs
  | cleared _ hh =>
    cases hops
    simp only [Task.main, hh] at hs
    cases hs
  | locked _ _ hp =>
    cases hops
    simp [Task.main, hp] at hs
  | flagged _ hh =>
    cases hops
    simp [Task.main, hh] at hs
  | released tried hf hst =>
    cases hops
    unfold Stopping at hst
    cases hp : t.pc <;> simp [Task.main, hp] at hs hst
  | joined tried hp hh hu =>
    cases hops
    rw [Task.main, hp, hh, heldIf] at hs
    cases htr : tried <;> cases hu' : spec.unlocks <;> simp_all
  | disabled hh hp =>
    cases hops
    simp [Task.main, hp, hh] at hs
  | destroyed | gone => cases hops

/-- The faults of a thread: it unlocks the mutex without having tried it, or counts down from a
negative interval for too long. -/
theorem Phase.worker_error (h : Phase spec t ops released tried)
    (hs : t.worker spec = some (.error f)) :
    (f = .unlockNotHeld ∧ spec.unlocks = true ∧ tried = false) ∨
      (f = .overflow ∧ spec.runInterval < 0) := by
  have hbetween : t.holder = some .main → Between spec t →
      f = .overflow ∧ spec.runInterval < 0 := by
    intro hh hb
    unfold Between at hb
    cases hp : t.pc with
    | absent | unlock | finished => simp only [hp] at hb
    | test | work | sleep _ => simp [Task.worker, hp] at hs
    | tryLock loops =>
      simp only [hp] at hb
      simp only [Task.worker, hp, hh] at hs
      by_cases h0 : loops = 0
      · rw [if_pos h0] at hs
        cases hs
      · by_cases hmin : loops = -2 ^ 31
        · rw [if_neg h0, if_pos hmin] at hs
          cases hs
          refine ⟨rfl, ?_⟩
          by_contra hneg
          have := hb.2 (not_lt.mp hneg)
          omega
        · rw [if_neg h0, if_neg hmin] at hs
          cases hs
  cases h with
  | fresh _ _ hp | cleared _ _ hp | locked _ _ hp | joined _ hp | destroyed _ hp
  | disabled _ hp | gone hp =>
    rw [worker_of_absent hp] at hs
    cases hs
  | running _ hh hb => exact Or.inr (hbetween hh hb)
  | flagged _ hh hb =>
    rcases hb with hb | hl
    · exact Or.inr (hbetween hh hb)
    · rw [Left] at hl
      cases hu : spec.unlocks <;> simp [hu] at hl <;> simp [Task.worker, hl, hh] at hs
      exact Or.inl ⟨hs.symm, rfl, rfl⟩
  | released tried hf hst =>
    unfold Stopping at hst
    cases hp : t.pc with
    | absent => simp only [hp] at hst
    | finished | test | work | sleep _ => simp [Task.worker, hp] at hs
    | tryLock loops =>
      simp only [hp] at hst
      simp [Task.worker, hp, hst.1] at hs
    | unlock =>
      simp only [hp] at hst
      by_cases hw : t.holder = some .worker
      · simp only [Task.worker, hp, if_pos hw] at hs
        cases hs
      simp only [Task.worker, hp, if_neg hw] at hs
      cases hs
      refine Or.inl ⟨rfl, hst.1, ?_⟩
      rw [hst.2, heldIf] at hw
      cases tried <;> simp_all

/-- A mutex is tried after its release. -/
theorem Phase.released_of_tried (h : Phase spec t ops released tried) (ht : tried = true) :
    released = true := by
  cases h <;> first | rfl | cases ht

/-- A thread that can make a step has been made, and its mutex is released or will be. -/
theorem Phase.active {r : Except Fault Task} (h : Phase spec t ops released tried)
    (hs : t.worker spec = some r) : released = true ∨ .unlock ∈ ops := by
  cases h with
  | fresh _ _ hp | cleared _ _ hp | locked _ _ hp | joined _ hp | destroyed _ hp
  | disabled _ hp | gone hp =>
    rw [worker_of_absent hp] at hs
    cases hs
  | running | flagged => exact Or.inr (by decide)
  | released => exact Or.inl rfl

/-- What the main thread does after the release. -/
theorem Phase.main_released (h : Phase spec t (op :: rest) true tried)
    (hs : t.main op = some (.ok t')) : t'.pc = .absent := by
  generalize hops : op :: rest = ops at h
  generalize hreleased : true = released at h
  cases h with
  | released tried hf hst =>
    cases hops
    cases hp : t.pc <;> simp [Task.main, hp] at hs
    rw [← hs]
  | joined tried hp hh hu =>
    cases hops
    by_cases hn : t.holder = none
    · simp [Task.main, hp, hn] at hs
      exact hs ▸ hp
    · simp [Task.main, hp, hn] at hs
  | fresh | cleared | locked | running | flagged | disabled => cases hreleased
  | destroyed | gone => cases hops

/-- A thread that makes a step after the release. -/
theorem Phase.worker_released {r : Except Fault Task} (h : Phase spec t ops true tried)
    (hs : t.worker spec = some r) : t.stopFlag = true ∧ t.holder ≠ some .main := by
  generalize hreleased : true = released at h
  cases h with
  | released tried hf hst =>
    refine ⟨hf, fun hh => ?_⟩
    unfold Stopping at hst
    cases hp : t.pc <;> cases tried <;> simp [hp, hh, heldIf] at hst
  | joined _ hp | destroyed _ hp =>
    rw [worker_of_absent hp] at hs
    cases hs
  | fresh | cleared | locked | running | flagged | disabled | gone => cases hreleased

/-- The places a thread goes through after the release. -/
inductive Descends : Pc → Pc → Prop
  | left : Descends .test .unlock
  | ended : Descends .test .finished
  | worked (loops : ℤ) : Descends .work (.tryLock loops)
  | slept (loops : ℤ) : Descends (.sleep loops) (.tryLock loops)
  | tried (loops : ℤ) : Descends (.tryLock loops) .test
  | unlocked : Descends .unlock .finished

theorem descends_of_worker (hf : t.stopFlag = true) (hh : t.holder ≠ some .main)
    (hs : t.worker spec = some (.ok t')) : Descends t.pc t'.pc := by
  cases hp : t.pc with
  | absent | finished => simp [Task.worker, hp] at hs
  | test =>
    simp only [Task.worker, hp, hf, if_true] at hs
    cases hs
    cases spec.unlocks
    · exact .ended
    · exact .left
  | work =>
    simp only [Task.worker, hp] at hs
    cases hs
    exact .worked _
  | sleep loops =>
    simp only [Task.worker, hp] at hs
    cases hs
    exact .slept loops
  | tryLock loops =>
    cases hh' : t.holder with
    | none =>
      simp only [Task.worker, hp, hh'] at hs
      cases hs
      exact .tried loops
    | some holder => cases holder <;> simp_all [Task.worker]
  | unlock =>
    by_cases hw : t.holder = some .worker
    · simp only [Task.worker, hp, hw, if_true] at hs
      cases hs
      exact .unlocked
    · simp [Task.worker, hp, hw] at hs

/-- A fault is at a place that can be left without one. -/
theorem exists_descends_of_error (hs : t.worker spec = some (.error f)) :
    ∃ pc, Descends t.pc pc := by
  cases hp : t.pc with
  | absent | finished | test | work | sleep _ => simp [Task.worker, hp] at hs
  | tryLock loops => exact ⟨_, .tried loops⟩
  | unlock => exact ⟨_, .unlocked⟩

/-- Between two rounds, while the main thread holds the mutex. -/
theorem Phase.sleeps (h : Phase spec t ops released tried) (hh : t.holder = some .main)
    (hpc : t.pc = .test) : (t.sleeps : ℤ) = t.rounds * spec.runInterval := by
  have hbetween : Between spec t → (t.sleeps : ℤ) = t.rounds * spec.runInterval := by
    intro hb
    rw [Between, hpc] at hb
    exact hb
  cases h with
  | fresh _ hn | cleared _ hn | disabled hn =>
    rw [hh] at hn
    cases hn
  | locked _ _ hp | joined _ hp | destroyed _ hp | gone hp =>
    rw [hpc] at hp
    cases hp
  | running _ _ hb => exact hbetween hb
  | flagged _ _ hb =>
    rcases hb with hb | hl
    · exact hbetween hb
    · rw [Left, hpc] at hl
      split_ifs at hl
  | released tried _ hst =>
    rw [Stopping, hpc] at hst
    cases tried <;> simp [hst, heldIf] at hh

/-- The main thread waits only for the end of a thread that can make a step. -/
theorem Phase.blocked (h : Phase spec t (op :: rest) released tried) (hs : t.main op = none) :
    op = .join ∧ released = true ∧ ∃ r, t.worker spec = some r := by
  generalize hops : op :: rest = ops at h
  cases h with
  | fresh | running =>
    cases hops
    cases hs
  | cleared _ hh =>
    cases hops
    simp [Task.main, hh] at hs
  | locked | flagged | joined | disabled =>
    cases hops
    simp [Task.main] at hs
  | released tried hf hst =>
    cases hops
    refine ⟨rfl, rfl, ?_⟩
    unfold Stopping at hst
    cases hp : t.pc <;> simp [Task.main, hp] at hs hst <;> simp [Task.worker, hp, hst]
  | destroyed | gone => cases hops

end NixSrv.Periodic
