import NixSrv.Queue.Calls
import NixSrv.Queue.Closing

/-!
# Elements and the callers that wait for them

`push` adds its element under the mutex and notifies one thread without it.

* `Pc.attends`: the thread is about to notify after a push, or about to test the queue in `pop`;
* `Attended`: while a caller of `pop` waits on an open queue, there is a thread that attends for
  each element, unless a notification of all is to come;
* `Prompt`, **`prompt_of_untimed`**: no caller that was woken has its wait reported as timed out,
  as where every caller waits without a timeout;
* **`attended_of_run`**: every run whose steps are prompt keeps this;
* **`elements_attended`**: the same in numbers of threads, for any caller that waits;
* `Rests`, **`empty_of_rests`**: at rest, an open queue with a caller that waits is empty.
-/

namespace NixSrv.Queue

open Transition

variable {D : ℕ} {α : Type*}

/-- The thread looks at the queue next, or notifies a thread that will. -/
def Pc.attends : Pc α → ℕ
  | .pop _ _ | .pushUnlocked _ _ => 1
  | _ => 0

/-- Some caller of `pop` waits. -/
def SomeWaits (s : Shared D α) : Prop := ∃ u, (s.threads u).wake ≠ none

/-- The threads that attend. -/
def attending (s : Shared D α) : ℕ := Places.total Pc.attends s.threads

/-- No element is left behind by the callers that wait. -/
def Attended (s : Shared D α) : Prop :=
  s.queue.isClosed = false → SomeWaits s →
    (∃ t, s.threads t = .stored) ∨ s.queue.q.length ≤ attending s

/-- The thread whose wait is reported as timed out. -/
def Event.expires : Event D α → Option (Fin D)
  | .expire t => some t
  | _ => none

/-- No thread that was woken has its wait reported as timed out. -/
def Prompt (m : Move D α) : Prop :=
  ∀ t ∈ m.event.expires, (m.pre.threads t).wake.isSome = true

instance (m : Move D α) : Decidable (Prompt m) := by unfold Prompt; infer_instance

/-! ## The mutex -/

/-- While a thread holds the mutex between two steps the queue is empty. -/
def EmptyHeld (s : Shared D α) : Prop := s.owner ≠ none → s.queue.q = []

theorem EmptyHeld.step {n : ℕ} {s s' : Shared D α} {e : Event D α} (hs : EmptyHeld s)
    (h : (sharedQueue D α n).step s e s') : EmptyHeld s' := by
  intro ho'
  cases step_cases h with
  | accepted _ _ _ _ ho | took _ _ _ _ _ _ _ ho => exact absurd ho ho'
  | foundEmpty _ _ _ _ _ _ _ hq => exact hq
  | cleared => rfl
  | waited => exact absurd rfl ho'
  | called | refused | notifiedOne | closed | stored | notifiedAll | expired | overtaken | woke =>
    exact hs ho'

theorem emptyHeld_of_run {n : ℕ} {tr : List (Move D α)} {s : Shared D α}
    (hr : Run (sharedQueue D α n) tr s) : EmptyHeld s := by
  refine hr.state_invariant (I := EmptyHeld) ?_ fun s e s' hs h => hs.step h
  rintro _ rfl ho
  exact absurd rfl ho

/-! ## Steps -/

/-- A thread that moves, and does not wait afterwards, on a queue that is changed with the
mutex. -/
theorem Attended.goto {s s₀ : Shared D α} (h : Attended s) (hth : s₀.threads = s.threads)
    (hc : s₀.queue.isClosed = s.queue.isClosed) {t : Fin D} {pc : Pc α} (hw : pc.wake = none)
    (hst : s.threads t ≠ .stored)
    (hle : s₀.queue.q.length + (s.threads t).attends ≤
      s.queue.q.length + pc.attends) : Attended (s₀.goto t pc) := by
  rintro ho ⟨u, hu⟩
  have hut : u ≠ t := by
    rintro rfl
    rw [Shared.threads_goto_self] at hu
    exact hu hw
  rw [Shared.threads_goto_ne _ hut, hth] at hu
  rcases h (hc ▸ ho) ⟨u, hu⟩ with ⟨v, hv⟩ | hlen
  · refine Or.inl ⟨v, ?_⟩
    rw [Shared.threads_goto_ne _ (by rintro rfl; exact hst hv), hth, hv]
  · have htotal := total_goto Pc.attends hth pc (t := t)
    rw [← attending, ← attending] at htotal
    exact Or.inr (by rw [Shared.queue_goto]; omega)

/-- A notification of one thread hands on what the thread that makes it attends for. -/
theorem Attended.notifyOne {s : Shared D α} (h : Attended s) {t : Fin D} {woken : Option (Fin D)}
    {elem : Option α} {success : Bool} (hp : s.threads t = .pushUnlocked elem success)
    (hm : s.MayWake woken) : Attended { s with
      threads := Function.update (Condvar.notifyOne Pc.wake s.threads woken) t
        (.pushed elem success) } := by
  rintro ho ⟨u, hu⟩
  have hut : u ≠ t := by
    rintro rfl
    exact hu (by simp [Pc.wake])
  simp only [Function.update_of_ne hut] at hu
  have hbefore : SomeWaits s := by
    refine ⟨u, fun hnone => hu ?_⟩
    rcases Condvar.notifyOne_cases s.threads woken u with h' | ⟨pc, hpc, -⟩
    · rw [h', hnone]
    · rw [hnone] at hpc
      cases hpc
  rcases h ho hbefore with ⟨x, hx⟩ | hlen
  · refine Or.inl ⟨x, ?_⟩
    have hxt : x ≠ t := by
      rintro rfl
      rw [hp] at hx
      cases hx
    simp only [Function.update_of_ne hxt]
    rcases Condvar.notifyOne_cases s.threads woken x with h' | ⟨pc, hpc, -⟩
    · rw [h', hx]
    · rw [hx] at hpc
      cases hpc
  · refine Or.inr (hlen.trans ?_)
    rcases total_notifyOne (M := ℕ) hp hm rfl with ⟨hnone, -⟩ | ⟨timeout, htotal⟩
    · obtain ⟨v, hv⟩ := hbefore
      exact absurd (hnone v) hv
    · have hattends := htotal Pc.attends
      simp only [Pc.attends] at hattends
      simp only [attending]
      omega

/-- **A step leaves no element behind.** -/
theorem Attended.step {n : ℕ} {s s' : Shared D α} {e : Event D α} (hown : Owned s)
    (hheld : EmptyHeld s) (hs : Attended s) (h : (sharedQueue D α n).step s e s')
    (hprompt : Prompt ⟨s, e, s'⟩) : Attended s' := by
  cases step_cases h with
  | called t op hp =>
    refine hs.goto rfl rfl (by cases op <;> rfl) (by intro ht; rw [ht] at hp; cases hp) ?_
    have hno : (s.threads t).attends = 0 := by
      cases hpc : s.threads t <;> rw [hpc] at hp <;> first | rfl | cases hp
    simp [hno]
  | accepted t woken elem hp ho hr =>
    refine hs.goto ?_ ?_ ?_ ?_ ?_ <;> simp [hp, Pc.attends, Pc.wake]
  | refused t woken elem hp ho hr =>
    refine hs.goto ?_ ?_ ?_ ?_ ?_ <;> simp [hp, Pc.attends, Pc.wake]
  | notifiedOne t woken elem success hp hw => exact hs.notifyOne hp hw
  | closed t woken timeout waited hp ho hc =>
    intro ho'
    rw [Shared.queue_goto, hc] at ho'
    cases ho'
  | took t woken timeout waited ptr rest hp ho hc hq =>
    refine hs.goto ?_ ?_ ?_ ?_ ?_ <;> simp [hp, hq, Pc.attends, Pc.wake]
  | foundEmpty t woken timeout waited hp ho hc hq =>
    intro _ _
    exact Or.inr (by simp [hq])
  | waited t woken timeout hp =>
    intro _ _
    have ho : s.owner ≠ none := by
      rw [(hown t).mpr (by rw [hp]; rfl)]
      simp
    exact Or.inr (by simp [hheld ho])
  | stored t woken state hp => exact fun _ _ => Or.inl ⟨t, Shared.threads_goto_self _ _ _⟩
  | cleared t woken hp ho =>
    intro _ _
    exact Or.inr (by simp)
  | notifiedAll t woken hp =>
    rintro _ ⟨u, hu⟩
    have hwaits : ((s.notifyAll t).threads u).waits = true := by
      rw [Pc.waits, Bool.or_eq_true]
      exact Or.inr (by simpa [Option.isSome_iff_ne_none] using hu)
    obtain ⟨hh, he⟩ := s.waits_notifyAll t u hwaits
    obtain ⟨timeout, hpc⟩ := Pc.holds_iff.mp hh
    rw [he, hpc] at hu
    exact absurd rfl hu
  | expired t timeout hp ht ho =>
    refine hs.goto ?_ ?_ ?_ ?_ ?_ <;> simp [hp, Pc.attends, Pc.wake]
  | overtaken t timeout hp =>
    have hw : (s.threads t).wake.isSome = true := hprompt t rfl
    rw [hp] at hw
    cases hw
  | woke t timeout hp =>
    refine hs.goto ?_ ?_ ?_ ?_ ?_ <;> simp [hp, Pc.attends, Pc.wake]

/-! ## Runs -/

/-- **No run whose steps are prompt leaves an element behind.** -/
theorem attended_of_run {n : ℕ} {tr : List (Move D α)} {s : Shared D α}
    (hr : Run (sharedQueue D α n) tr s) (hprompt : EachMove (fun _ m => Prompt m) tr) :
    Attended s := by
  refine hr.invariant (I := fun _ s => Attended s) ?_ ?_ hprompt
  · rintro _ rfl _ ⟨u, hu⟩
    exact absurd rfl hu
  · exact fun tr s e s' hr ih hs hp => ih.step (owned_of_run hr) (emptyHeld_of_run hr) hs hp

/-- **While a caller waits on an open queue, each element has a thread that looks at the queue next
or is about to notify one**, or `set_enabled` is about to notify all, after a run in which no caller
that was woken has its wait reported as timed out. -/
theorem elements_attended {n : ℕ} {tr : List (Move D α)} {s : Shared D α}
    (hr : Run (sharedQueue D α n) tr s) (hprompt : EachMove (fun _ m => Prompt m) tr)
    (ho : s.queue.isClosed = false) {u : Fin D} (hu : (s.threads u).wake ≠ none) :
    (∃ t, s.threads t = .stored) ∨
      s.queue.q.length ≤ (Finset.univ.filter fun t => (s.threads t).attends = 1).card := by
  refine (attended_of_run hr hprompt ho ⟨u, hu⟩).imp_right fun hlen => ?_
  have hcount : attending s = (Finset.univ.filter fun t => (s.threads t).attends = 1).card := by
    rw [attending, Places.total, Finset.card_filter]
    exact Finset.sum_congr rfl fun t _ => by cases s.threads t <;> rfl
  rwa [hcount] at hlen

/-- A caller waits, and another thread has added an element and not yet notified. -/
def pushBeforeNotice : List (Event 2 ℕ) :=
  [.call 0 (.pop (-1)), .run 0, .run 0, .call 1 (.push 7), .run 1]

theorem elements_attended_pushBeforeNotice :
    (∃ t, (runOf pushBeforeNotice).2.threads t = .stored) ∨
      (runOf pushBeforeNotice).2.queue.q.length ≤ (Finset.univ.filter fun t =>
        ((runOf pushBeforeNotice).2.threads t).attends = 1).card := by
  have hr : Run (sharedQueue 2 ℕ 1) (runOf pushBeforeNotice).1 (runOf pushBeforeNotice).2 :=
    run_traceOf (by decide)
  have hw : ((runOf pushBeforeNotice).2.threads 0).wake ≠ none := by decide
  exact elements_attended hr (by decide) (by decide) hw

/-! ## Callers without a timeout -/

/-- A wait of the thread has no timeout. -/
def Pc.untimed : Pc α → Bool
  | .pop timeout _ | .popEmpty timeout | .waiting timeout => timeout = -1
  | _ => true

theorem Pc.untimed_goes {pc pc' : Pc α} (h : pc.untimed = true) (hg : pc.Goes pc') :
    pc'.untimed = true := by
  cases hg with
  | told => rfl
  | accepted | refused | notified | popped | empty | waits | woken | expired | set | cleared =>
    simp_all [untimed]

/-- A call of `pop` in the step has no timeout. -/
def Untimed (m : Move D α) : Prop :=
  ∀ t timeout, m.event = .call t (.pop timeout) → timeout = -1

theorem untimed_of_step {n : ℕ} {s s' : Shared D α} {e : Event D α}
    (hs : ∀ u, (s.threads u).untimed = true) (h : (sharedQueue D α n).step s e s')
    (hcall : Untimed ⟨s, e, s'⟩) (u : Fin D) : (s'.threads u).untimed = true := by
  by_cases he : e.isCall = true
  · cases step_cases h with
    | called t op hp =>
      by_cases hu : u = t
      · subst hu
        rw [Shared.threads_goto_self]
        cases op with
        | pop timeout => simp [Op.start, Pc.untimed, hcall u timeout rfl]
        | push | setEnabled | clear => rfl
      · rw [Shared.threads_goto_ne _ hu]
        exact hs u
    | _ => cases he
  · rcases goes_of_step h (Bool.eq_false_iff.mpr he) u with hsame | hgoes
    · rw [hsame]
      exact hs u
    · exact Pc.untimed_goes (hs u) hgoes

/-- **Where every caller waits without a timeout, the steps are prompt.** -/
theorem prompt_of_untimed {n : ℕ} {tr : List (Move D α)} {s : Shared D α}
    (hr : Run (sharedQueue D α n) tr s) (hu : EachMove (fun _ m => Untimed m) tr) :
    EachMove (fun _ m => Prompt m) tr := by
  refine hr.eachMove_imp ?_ hu
  intro tr s e s' hr hu _ hs _
  have huntimed : ∀ u, (s.threads u).untimed = true := by
    refine hr.invariant (I := fun _ s => ∀ u, (s.threads u).untimed = true) ?_ ?_ hu
    · rintro _ rfl u
      rfl
    · exact fun _ _ _ _ _ ih hs hcall => untimed_of_step ih hs hcall
  cases step_cases hs with
  | expired t timeout hp =>
    rintro _ ⟨⟩
    simp [hp, Pc.wake]
  | overtaken t timeout hp ht =>
    have hno := huntimed t
    rw [hp] at hno
    exact absurd (of_decide_eq_true hno) ht
  | _ => exact fun t he => by cases he

/-! ## Threads at rest -/

/-- No thread can go on in its call. -/
def Rests (s : Shared D α) : Prop := ∀ t woken, s.step t woken = none

theorem exists_mayWake (s : Shared D α) : ∃ woken, s.MayWake woken := by
  by_cases h : SomeWaits s
  · obtain ⟨u, hu⟩ := h
    exact ⟨some u, hu⟩
  · exact ⟨none, fun u => not_not.mp fun hu => h ⟨u, hu⟩⟩

/-- **When no thread can go on, each has returned or waits.** -/
theorem returned_or_waits {s : Shared D α} (hown : Owned s) (h : Rests s) (t : Fin D) :
    (s.threads t).returned = true ∨ (s.threads t).wake ≠ none := by
  have ho : s.owner = none := by
    cases ho : s.owner with
    | none => rfl
    | some u =>
      obtain ⟨timeout, hu⟩ := Pc.holds_iff.mp ((hown u).mp ho)
      have hstep := h u none
      simp only [Shared.step, hu] at hstep
      cases hstep
  obtain ⟨woken, hm⟩ := exists_mayWake s
  have hstep := h t woken
  cases hp : s.threads t with
  | out | pushed | popped => exact Or.inl rfl
  | waiting => exact Or.inr (by simp [Pc.wake])
  | pushUnlocked | popEmpty | setEnabled | stored | cleared =>
    simp [Shared.step, hp, hm] at hstep
  | push | clear => simp [Shared.step, hp, ho] at hstep
  | pop =>
    simp only [Shared.step, hp, ho, if_true] at hstep
    cases hpop : s.queue.pop <;> simp [hpop] at hstep

/-- **A queue at rest that is open, with a caller that waits, is empty.** -/
theorem empty_of_rests {n : ℕ} {tr : List (Move D α)} {s : Shared D α}
    (hr : Run (sharedQueue D α n) tr s) (hprompt : EachMove (fun _ m => Prompt m) tr)
    (h : Rests s) (ho : s.queue.isClosed = false) (hw : SomeWaits s) : s.queue.q = [] := by
  have hrest := returned_or_waits (owned_of_run hr) h
  have hnone : attending s = 0 := by
    refine Places.total_eq_zero fun t => ?_
    rcases hrest t with ht | ht <;> cases hp : s.threads t <;> rw [hp] at ht <;>
      first | rfl | cases ht | exact absurd rfl ht
  rcases attended_of_run hr hprompt ho hw with ⟨t, ht⟩ | hlen
  · rcases hrest t with h' | h' <;> rw [ht] at h'
    · cases h'
    · exact absurd rfl h'
  · rw [hnone] at hlen
    exact List.length_eq_zero_iff.mp (Nat.le_zero.mp hlen)

end NixSrv.Queue
