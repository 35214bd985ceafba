import NixSrv.Queue.Threads

/-!
# Closing a queue

`set_enabled` stores the flag and notifies without the mutex, which `pop` holds from its test until
it waits.

* `Settled`: the `set_enabled(false)` that stored the flag last has made its notification;
* `Stuck`, `Released`: a caller of `pop` waits on a settled queue, and every caller can leave one;
* `Unmissed`: the notification of the call that closed the queue meets no caller before its wait;
* **`released_of_run`**: runs of such notifications leave no caller stuck;
* **`stuck_of_missed`**: after any other notification a caller can get stuck;
* **`closing_releases`**: both together.
-/

namespace NixSrv.Queue

open Transition

variable {D : ℕ} {α : Type*}

/-- The last change of the flag is a `set_enabled(false)` that has made its notification. -/
def Settled (tr : List (Move D α)) (s : Shared D α) : Prop :=
  ∃ t, lastStore tr = some (t, false) ∧ s.threads t ≠ .stored

/-- A caller of `pop` waits on a settled queue, where nothing is left to wake it. -/
structure Stuck (tr : List (Move D α)) (s : Shared D α) (u : Fin D) : Prop where
  settled : Settled tr s
  closed : s.queue.isClosed = true
  waiting : (s.threads u).wake ≠ none

/-- The next step of every caller of `pop` takes it out of the call with nothing. -/
def Leaves (s : Shared D α) : Prop :=
  ∀ u timeout waited woken, s.threads u = .pop timeout waited →
    s.step u woken = some (s.goto u (.popped none))

/-- No caller of `pop` is stuck, and on a settled queue each one leaves. -/
structure Released (tr : List (Move D α)) (s : Shared D α) : Prop where
  not_stuck : ∀ u, ¬ Stuck tr s u
  leaves : Settled tr s → Leaves s

namespace Pc

/-- The thread holds the mutex between two steps: it is between its test and its wait. -/
def holds : Pc α → Bool
  | popEmpty _ => true
  | _ => false

/-- The thread waits or will do so with its next step. -/
def waits (pc : Pc α) : Bool := pc.holds || pc.wake.isSome

end Pc

/-- When the call that closed the queue last notifies, no caller of `pop` is between its test and
its wait. -/
def Unmissed (hist : List (Move D α)) (m : Move D α) : Prop :=
  match m.event with
  | .run t _ => m.pre.threads t = .stored → lastStore hist = some (t, false) →
      ∀ u, (m.pre.threads u).holds = false
  | _ => True

instance [DecidableEq α] (hist : List (Move D α)) (m : Move D α) : Decidable (Unmissed hist m) := by
  unfold Unmissed; split <;> infer_instance

/-! ## Callers on their way to the wait -/

namespace Pc

theorem holds_iff {pc : Pc α} : pc.holds = true ↔ ∃ timeout, pc = .popEmpty timeout := by
  cases pc <;> simp [holds]

theorem holds_of_wake {pc pc' : Pc α} (h : pc.wake = some pc') :
    pc'.holds = pc.holds ∧ pc'.waits = false := by
  cases pc <;> first | (cases h; exact ⟨rfl, rfl⟩) | cases h

end Pc

namespace Shared

variable (s : Shared D α)

theorem holds_goto {t : Fin D} {pc : Pc α} (h : pc.holds = (s.threads t).holds) (u : Fin D) :
    ((s.goto t pc).threads u).holds = (s.threads u).holds := by
  by_cases hu : u = t
  · subst hu
    rw [threads_goto_self, h]
  · rw [threads_goto_ne s hu]

theorem waits_goto {t : Fin D} {pc : Pc α} (h : pc.waits = true → (s.threads t).waits = true)
    {u : Fin D} (hu : ((s.goto t pc).threads u).waits = true) : (s.threads u).waits = true := by
  by_cases he : u = t
  · subst he
    rw [threads_goto_self] at hu
    exact h hu
  · rwa [threads_goto_ne s he] at hu

theorem threads_notifyAll_self (t : Fin D) : (s.notifyAll t).threads t = .out := by
  simp [notifyAll]

theorem threads_notifyAll_ne {t u : Fin D} (h : u ≠ t) :
    (s.notifyAll t).threads u = Condvar.notifyAll Pc.wake s.threads u := by
  simp [notifyAll, h]

/-- After a notification of all no thread waits that did not hold the mutex before. -/
theorem waits_notifyAll (t u : Fin D) (hu : ((s.notifyAll t).threads u).waits = true) :
    (s.threads u).holds = true ∧ (s.notifyAll t).threads u = s.threads u := by
  by_cases he : u = t
  · subst he
    rw [threads_notifyAll_self] at hu
    cases hu
  rw [threads_notifyAll_ne s he] at hu ⊢
  cases hw : (s.threads u).wake with
  | none =>
    rw [Condvar.notifyAll_of_not_waiting hw] at hu ⊢
    simpa [Pc.waits, hw] using hu
  | some pc =>
    rw [Condvar.notifyAll_of_waiting hw, (Pc.holds_of_wake hw).2] at hu
    cases hu

end Shared

/-- A notified thread is not about to wait, and no other thread is moved. -/
theorem notifyOne_eq_or (threads : Fin D → Pc α) (woken : Option (Fin D)) (u : Fin D) :
    Condvar.notifyOne Pc.wake threads woken u = threads u ∨
      (Condvar.notifyOne Pc.wake threads woken u).holds = (threads u).holds ∧
        (Condvar.notifyOne Pc.wake threads woken u).waits = false := by
  rcases Condvar.notifyOne_cases threads woken u with he | ⟨pc, hw, he⟩
  · exact Or.inl he
  · rw [he]
    exact Or.inr (Pc.holds_of_wake hw)

/-- **On a closed queue a step makes no caller of `pop` wait that was not about to.** -/
theorem waits_of_step {n : ℕ} {s s' : Shared D α} {e : Event D α}
    (h : (sharedQueue D α n).step s e s') (hc : s.queue.isClosed = true) {u : Fin D}
    (hu : (s'.threads u).waits = true) : (s.threads u).waits = true := by
  cases step_cases h with
  | called t op hp =>
    refine s.waits_goto (fun hw => ?_) hu
    cases op <;> cases hw
  | accepted | refused | closed | took | stored | cleared | expired | overtaken | woke =>
    exact Shared.waits_goto _ (fun hw => by cases hw) hu
  | foundEmpty t woken timeout waited hp ho ho' hq => rw [hc] at ho'; cases ho'
  | waited t woken timeout hp =>
    exact Shared.waits_goto _ (fun _ => by rw [hp]; rfl) hu
  | notifiedOne t woken elem success hp hw =>
    by_cases he : u = t
    · subst he
      simp [Pc.waits, Pc.holds, Pc.wake] at hu
    · simp only [Function.update_of_ne he] at hu
      rcases notifyOne_eq_or s.threads woken u with h' | ⟨-, h'⟩
      · rwa [h'] at hu
      · rw [h'] at hu; cases hu
  | notifiedAll t woken hp =>
    obtain ⟨-, he⟩ := s.waits_notifyAll t u hu
    rwa [← he]

/-- The mutex is held between two steps by a caller of `pop` that is about to wait. -/
def Owned (s : Shared D α) : Prop := ∀ u, s.owner = some u ↔ (s.threads u).holds = true

theorem Owned.of_holds {s s' : Shared D α} (h : Owned s) (ho : s'.owner = s.owner)
    (hh : ∀ u, (s'.threads u).holds = (s.threads u).holds) : Owned s' :=
  fun u => by rw [ho, hh u, h u]

theorem Owned.step {n : ℕ} {s s' : Shared D α} {e : Event D α} (hs : Owned s)
    (h : (sharedQueue D α n).step s e s') : Owned s' := by
  cases step_cases h with
  | called t op hp =>
    refine hs.of_holds rfl (s.holds_goto ?_)
    cases hpc : s.threads t <;> rw [hpc] at hp <;> cases op <;> first | rfl | cases hp
  | accepted _ _ _ hp | refused _ _ _ hp | closed _ _ _ _ hp | took _ _ _ _ _ _ hp
  | stored _ _ _ hp | cleared _ _ hp | expired _ _ hp | overtaken _ _ hp | woke _ _ hp =>
    exact hs.of_holds rfl (Shared.holds_goto _ (by simp only [hp, Pc.holds]))
  | foundEmpty t woken timeout waited hp ho hc hq =>
    intro u
    by_cases he : u = t
    · subst he
      simp [Pc.holds]
    · have hu : (s.threads u).holds = false := by
        rw [Bool.eq_false_iff, ne_eq, ← hs u, ho]
        simp
      simp [Shared.goto, he, hu, Ne.symm he]
  | waited t woken timeout hp =>
    intro u
    by_cases he : u = t
    · subst he
      simp [Pc.holds]
    · have ht : s.owner = some t := (hs t).mpr (by rw [hp]; rfl)
      have hu : (s.threads u).holds = false := by
        rw [Bool.eq_false_iff, ne_eq, ← hs u, ht]
        simpa using Ne.symm he
      simp [Shared.goto, he, hu]
  | notifiedOne t woken elem success hp hw =>
    refine hs.of_holds rfl fun u => ?_
    by_cases he : u = t
    · subst he
      simp [hp, Pc.holds]
    · simp only [Function.update_of_ne he]
      rcases notifyOne_eq_or s.threads woken u with h' | ⟨h', -⟩
      · rw [h']
      · exact h'
  | notifiedAll t woken hp =>
    refine hs.of_holds rfl fun u => ?_
    by_cases he : u = t
    · subst he
      rw [s.threads_notifyAll_self]
      rcases hp with hp | hp <;> rw [hp] <;> rfl
    · rw [s.threads_notifyAll_ne he]
      cases hw : (s.threads u).wake with
      | none => rw [Condvar.notifyAll_of_not_waiting hw]
      | some pc =>
        rw [Condvar.notifyAll_of_waiting hw]
        exact (Pc.holds_of_wake hw).1

theorem owned_of_run {n : ℕ} {tr : List (Move D α)} {s : Shared D α}
    (hr : Run (sharedQueue D α n) tr s) : Owned s := by
  refine hr.state_invariant (I := Owned) ?_ fun s e s' hs h => hs.step h
  rintro _ rfl u
  simp [Shared.start, Pc.holds]

/-! ## The call that closed the queue -/

/-- A step stores the flag, and the thread is then before its notification, or it does not. -/
theorem storeWrite_cases {n : ℕ} {s s' : Shared D α} {e : Event D α}
    (h : (sharedQueue D α n).step s e s') : storeWrite ⟨s, e, s'⟩ = .keep ∨
      ∃ t state, storeWrite ⟨s, e, s'⟩ = .put (t, state) ∧ s'.threads t = .stored := by
  cases step_cases h with
  | called | expired | overtaken | woke => exact Or.inl rfl
  | stored t woken state hp =>
    exact Or.inr ⟨t, state, by simp only [storeWrite, hp], Shared.threads_goto_self _ _ _⟩
  | accepted _ _ _ hp | refused _ _ _ hp | closed _ _ _ _ hp | took _ _ _ _ _ _ hp
  | cleared _ _ hp | notifiedOne _ _ _ _ hp | waited _ _ _ hp | foundEmpty _ _ _ _ hp =>
    exact Or.inl (by simp only [storeWrite, hp])
  | notifiedAll t woken hp =>
    rcases hp with hp | hp <;> exact Or.inl (by simp only [storeWrite, hp])

/-- A thread before its notification stays there until it makes it. -/
theorem stored_of_step {n : ℕ} {s s' : Shared D α} {e : Event D α}
    (h : (sharedQueue D α n).step s e s') {u : Fin D} (hu : s.threads u = .stored) :
    s'.threads u = .stored ∨ ∃ woken, e = .run u woken ∧ s' = s.notifyAll u := by
  have hgoto : ∀ {s₀ : Shared D α} {t : Fin D} {pc : Pc α}, s₀.threads = s.threads →
      s.threads t ≠ .stored → (s₀.goto t pc).threads u = .stored := by
    intro s₀ t pc he ht
    have hne : u ≠ t := fun e' => ht (e' ▸ hu)
    rw [Shared.threads_goto_ne _ hne, he, hu]
  cases step_cases h with
  | called t op hp =>
    refine Or.inl (hgoto rfl fun ht => ?_)
    rw [ht] at hp; cases hp
  | accepted _ _ _ hp | refused _ _ _ hp | closed _ _ _ _ hp | took _ _ _ _ _ _ hp
  | stored _ _ _ hp | cleared _ _ hp | foundEmpty _ _ _ _ hp | waited _ _ _ hp | expired _ _ hp
  | overtaken _ _ hp | woke _ _ hp =>
    exact Or.inl (hgoto rfl (by rw [hp]; simp))
  | notifiedOne t woken elem success hp hw =>
    have hne : u ≠ t := by
      rintro rfl
      rw [hu] at hp; cases hp
    refine Or.inl ?_
    simp only [Function.update_of_ne hne]
    rcases Condvar.notifyOne_cases s.threads woken u with h' | ⟨pc, hw', -⟩
    · rw [h', hu]
    · rw [hu] at hw'; cases hw'
  | notifiedAll t woken hp =>
    by_cases he : u = t
    · subst he
      exact Or.inr ⟨woken, rfl, rfl⟩
    · rw [s.threads_notifyAll_ne he, Condvar.notifyAll_of_not_waiting (by rw [hu]; rfl), hu]
      exact Or.inl rfl

theorem closed_of_settled {n : ℕ} {tr : List (Move D α)} {s : Shared D α}
    (hr : Run (sharedQueue D α n) tr s) (hs : Settled tr s) : s.queue.isClosed = true := by
  obtain ⟨t, hl, -⟩ := hs
  rw [isClosed_of_run hr, hl]
  rfl

/-- **On a settled queue no caller of `pop` waits or is about to.** -/
theorem none_waits_of_run {n : ℕ} {tr : List (Move D α)} {s : Shared D α}
    (hr : Run (sharedQueue D α n) tr s) (hc : EachMove Unmissed tr) (hs : Settled tr s)
    (u : Fin D) : (s.threads u).waits = false := by
  revert hs u
  refine hr.invariant (I := fun tr s => Settled tr s → ∀ u, (s.threads u).waits = false) ?_ ?_ hc
  · rintro s rfl ⟨t, hl, -⟩
    cases hl
  · rintro tr s e s' hr ih h hun ⟨t, hl, ht⟩ u
    rw [lastStore_snoc] at hl
    rcases storeWrite_cases h with hw | ⟨t', state, hw, ht'⟩
    · rw [hw] at hl
      change lastStore tr = some (t, false) at hl
      rw [Bool.eq_false_iff]
      intro hu
      by_cases hst : s.threads t = .stored
      · obtain ⟨woken, rfl, rfl⟩ := (stored_of_step h hst).resolve_left ht
        obtain ⟨hh, -⟩ := s.waits_notifyAll t u hu
        have hno := hun hst hl u
        rw [hh] at hno
        cases hno
      · have hset : Settled tr s := ⟨t, hl, hst⟩
        have hbefore := waits_of_step h (closed_of_settled hr hset) hu
        rw [ih hset u] at hbefore
        cases hbefore
    · rw [hw] at hl
      cases hl
      exact absurd ht' ht

/-- **Every run in which no notification misses a caller leaves no caller stuck.** -/
theorem released_of_run {n : ℕ} {tr : List (Move D α)} {s : Shared D α}
    (hr : Run (sharedQueue D α n) tr s) (hc : EachMove Unmissed tr) : Released tr s := by
  refine ⟨fun u hu => ?_, fun hs u timeout waited woken hp => ?_⟩
  · have hw := none_waits_of_run hr hc hu.settled u
    exact hu.waiting (by simpa [Pc.waits] using (Bool.or_eq_false_iff.mp hw).2)
  · have ho : s.owner = none := by
      cases ho : s.owner with
      | none => rfl
      | some v =>
        have hv := (owned_of_run hr v).mp ho
        have hw := none_waits_of_run hr hc hs v
        rw [Pc.waits, hv] at hw
        cases hw
    have hpop := Queue.pop_closed.mpr (closed_of_settled hr hs)
    simp only [Shared.step, hp, ho, if_true, hpop]

/-- **After a notification that misses a caller, the caller is stuck when it waits.** -/
theorem stuck_of_missed {n : ℕ} {tr : List (Move D α)} {m : Move D α}
    (hr : Run (sharedQueue D α n) (tr ++ [m]) m.post) (hm : ¬ Unmissed tr m) :
    ∃ u s', Run (sharedQueue D α n) (tr ++ [m] ++ [⟨m.post, .run u none, s'⟩]) s' ∧
      Stuck (tr ++ [m] ++ [⟨m.post, .run u none, s'⟩]) s' u := by
  obtain ⟨s, e, s'⟩ := m
  obtain ⟨t, woken, rfl⟩ : ∃ t woken, e = .run t woken := by
    cases e with
    | run t woken => exact ⟨t, woken, rfl⟩
    | call | expire | spurious => exact absurd trivial hm
  simp only [Unmissed, not_forall, Bool.not_eq_false] at hm
  obtain ⟨ht, hl, u, hu⟩ := hm
  obtain ⟨timeout, hu⟩ := Pc.holds_iff.mp hu
  have hstep : (sharedQueue D α n).step s (.run t woken) s' := hr.of_append.2
  have hnext : s.step t woken = some s' := hstep
  obtain rfl : s.notifyAll t = s' := by simpa only [Shared.step, ht, Option.some.injEq] using hnext
  have hne : u ≠ t := by
    rintro rfl
    rw [ht] at hu; cases hu
  have hu' : (s.notifyAll t).threads u = .popEmpty timeout := by
    rw [s.threads_notifyAll_ne hne, Condvar.notifyAll_of_not_waiting (by rw [hu]; rfl), hu]
  -- the caller goes on to its wait
  obtain ⟨s'', hwait, hw, hout⟩ :
      ∃ s'', (sharedQueue D α n).step (s.notifyAll t) (.run u none) s'' ∧
      s''.threads u = .waiting timeout ∧ s''.threads t = .out := by
    refine ⟨Shared.goto { s.notifyAll t with owner := none } u (.waiting timeout), ?_, ?_, ?_⟩
    · change Shared.step _ u none = _
      simp only [Shared.step, hu']
    · exact Shared.threads_goto_self _ _ _
    · rw [Shared.threads_goto_ne _ hne.symm]
      exact s.threads_notifyAll_self t
  have hrun := hr.snoc hwait
  have hlast : lastStore (tr ++ [⟨s, .run t woken, s.notifyAll t⟩] ++
      [⟨s.notifyAll t, .run u none, s''⟩]) = some (t, false) := by
    rw [lastStore_snoc, lastStore_snoc, hl]
    simp only [storeWrite, ht, hu', Cell.Write.apply]
  have hset : Settled _ s'' := ⟨t, hlast, by rw [hout]; simp⟩
  exact ⟨u, s'', hrun, hset, closed_of_settled hrun hset, by rw [hw]; simp [Pc.wake]⟩

/-- **Closing a queue releases its callers in every run whose notifications miss none, and a
notification that misses one can leave it stuck.** -/
theorem closing_releases {n : ℕ} {tr : List (Move D α)} {s : Shared D α}
    (hr : Run (sharedQueue D α n) tr s) : (EachMove Unmissed tr → Released tr s) ∧
      ∀ e s', (sharedQueue D α n).step s e s' → ¬ Unmissed tr ⟨s, e, s'⟩ →
        ∃ u s'', Run (sharedQueue D α n)
            (tr ++ [⟨s, e, s'⟩] ++ [⟨s', .run u none, s''⟩]) s'' ∧
          Stuck (tr ++ [⟨s, e, s'⟩] ++ [⟨s', .run u none, s''⟩]) s'' u :=
  ⟨released_of_run hr, fun _ _ hs hm => stuck_of_missed (hr.snoc hs) hm⟩

section Sample

/-- A caller waits, and another thread closes the queue. -/
def closeWaiter : List (Event 2 ℕ) :=
  [.call 0 (.pop (-1)), .run 0, .run 0, .call 1 (.setEnabled false), .run 1, .run 1]

/-- The queue is closed between the test and the wait of the caller. -/
def closeBetween : List (Event 2 ℕ) :=
  [.call 0 (.pop (-1)), .run 0, .call 1 (.setEnabled false), .run 1, .run 1, .run 0]

theorem closing_releases_waiter :
    Released (runOf closeWaiter).1 (runOf closeWaiter).2 :=
  (closing_releases (run_traceOf (by decide))).1 (by decide)

/-- A caller that has found the queue open and empty misses the notification and waits for good. -/
theorem stuck_closeBetween : ∃ s, Run (sharedQueue 2 ℕ 1) (runOf closeBetween).1 s ∧
    Stuck (runOf closeBetween).1 s 0 :=
  ⟨(runOf closeBetween).2, run_traceOf (by decide), ⟨1, by decide, by decide⟩, by decide, by decide⟩

end Sample

end NixSrv.Queue
