import NixSrv.JobQueue.ThreadSteps

/-!
# Threads that wait

* `Thread.Goes`, `Sound`: no thread waits and iterators are valid;
* **`step_goes`**: a step that is ready leaves its thread running, with less to do;
* `Unhindered`, `Served`, **`never_waits_iff`**: dispatcher threads are never left waiting if and
  only if `get_work` finds its queue closed or not empty, `submit` finds a worker still parked when
  it takes one, lists are there and have room, and no handler's iterator is made invalid.
-/

namespace NixSrv.JobQueue

open Json Transition

section Blocking

variable [Jsoncpp]

/-! ## Threads that go on -/

/-- The thread is free or goes on, and its iterator is valid. -/
def Thread.Goes (jq : JobQueue) : Thread → Prop
  | .idle | .thrown => True
  | .running pc => ∀ name ∈ pc.iterator, name ∈ jq.queues
  | .waiting _ | .undefined => False

/-- A bound on the steps the thread still makes. -/
def Thread.rank (th : Thread) : ℕ := th.pc.elim 0 Pc.rank

theorem goes_of_none {jq : JobQueue} {pc : Pc} (hi : pc.iterator = none) :
    (Thread.running pc).Goes jq := by
  intro name h
  rw [hi] at h
  cases h

/-- A step takes no queue away but those it erases. -/
theorem mem_queues_step {jq : JobQueue} {pc : Pc} {name : String} (h : name ∈ jq.queues)
    (he : pc.erases name = false) : name ∈ (pc.step jq).state.queues := by
  cases pc_cases jq pc with
  | goes _ hs | ends _ _ hs | fails hs | waits hs | sent _ _ _ hs => rw [hs]; exact h
  | served _ _ _ _ _ _ _ _ _ hs | registered _ _ hs | parked _ _ _ _ hs => rw [hs]; exact h
  | pushed _ _ _ _ _ _ hs | took _ _ _ _ _ _ _ _ hs =>
    rw [hs]
    exact (AList.mem_insert _).mpr (Or.inr h)
  | progressed msg _ hs => rw [hs]; exact (setProgress_queues jq msg).symm ▸ h
  | stored env msg _ _ hs => rw [hs]; exact (setResult_queues jq env msg).symm ▸ h
  | looked msg _ hs => rw [hs]; exact (getResult_queues jq msg).symm ▸ h
  | managed jq' _ hs _ _ _ hm => rw [hs]; exact hm.kept name h he

theorem setProgress_lists (jq : JobQueue) (msg : IncomingMessage) :
    (jq.setProgress msg).state.workersAwaiting = jq.workersAwaiting := by
  rcases setProgress_cases jq msg with h | ⟨_, _, -, h⟩ <;> rw [h]

theorem setResult_lists (jq : JobQueue) (env : Env) (msg : IncomingMessage) :
    (jq.setResult env msg).state.workersAwaiting = jq.workersAwaiting := by
  cases setResult_cases jq env msg with
  | refused _ h | stored _ h => rw [h]

theorem getResult_lists (jq : JobQueue) (msg : IncomingMessage) :
    (jq.getResult msg).state.workersAwaiting = jq.workersAwaiting := by
  cases getResult_cases jq msg with
  | collected _ _ _ h | denied _ _ _ h | notReady _ _ _ h | notFound _ _ h => rw [h]

/-- No step closes a list. -/
theorem lists_step {jq : JobQueue} (ho : ListsOpen jq) (pc : Pc) :
    ListsOpen (pc.step jq).state := by
  cases pc_cases jq pc with
  | goes _ hs | ends _ _ hs | fails hs | waits hs | sent _ _ _ hs => rw [hs]; exact ho
  | pushed _ _ _ _ _ _ hs | took _ _ _ _ _ _ _ _ hs | registered _ _ hs => rw [hs]; exact ho
  | served _ msg _ ws _ _ _ hopen _ hs => rw [hs]; exact ho.insert (moduleOf msg) hopen
  | parked msg ws _ hw hs =>
    rw [hs]
    refine ho.insert (moduleOf msg) ?_
    rw [Queue.isClosed_push]
    exact ho _ ws hw
  | progressed msg _ hs =>
    rw [hs, ListsOpen, setProgress_lists]
    exact ho
  | stored env msg _ _ hs =>
    rw [hs, ListsOpen, setResult_lists]
    exact ho
  | looked msg _ hs =>
    rw [hs, ListsOpen, getResult_lists]
    exact ho
  | managed jq' _ hs _ _ _ hm => rw [hs]; exact hm.lists ho

/-- **A step of a handler that goes on and is ready**: the thread is free or goes on afterwards, and
has less to do. -/
theorem step_goes {jq : JobQueue} (ho : ListsOpen jq) {pc : Pc} (hg : (Thread.running pc).Goes jq)
    (hr : pc.Ready jq) :
    (pc.step jq).thread.Goes (pc.step jq).state ∧ (pc.step jq).thread.rank < pc.rank := by
  cases pc_cases jq pc with
  | goes pc' h hrank hiter' _ =>
    rw [h]
    exact ⟨fun name hn => (hiter' name hn).elim (hg name) id, hrank⟩
  | ends th sent h hth =>
    rw [h]
    rcases hth with rfl | rfl
    · exact ⟨trivial, pc.rank_pos⟩
    · exact ⟨trivial, pc.rank_pos⟩
  | fails h hno =>
    obtain ⟨name, hn, hno⟩ := hno hr ho
    exact absurd (hg name hn) hno
  | waits h hn => exact absurd hr hn
  | sent job msg hp h =>
    rw [h, hp]
    exact ⟨goes_of_none rfl, Nat.one_lt_two⟩
  | served job msg w ws rest hp _ _ _ h =>
    rw [h, hp]
    refine ⟨goes_of_none rfl, ?_⟩
    show 1 < 3
    omega
  | pushed job msg q _ hp _ h =>
    rw [h, hp]
    exact ⟨goes_of_none rfl, Nat.one_lt_two⟩
  | took msg q job rest hp _ _ _ h =>
    rw [h, hp]
    refine ⟨goes_of_none rfl, ?_⟩
    show 2 < 3
    omega
  | registered job hp h =>
    rw [h, hp]
    exact ⟨trivial, Nat.one_pos⟩
  | parked msg ws hp _ h =>
    rw [h, hp]
    exact ⟨trivial, Nat.one_pos⟩
  | progressed msg hp h =>
    rw [h, hp]
    exact ⟨trivial, Nat.one_pos⟩
  | stored env msg hp _ h =>
    rw [h, hp]
    exact ⟨goes_of_none rfl, Nat.one_lt_two⟩
  | looked msg hp h =>
    rw [h, hp]
    exact ⟨trivial, Nat.one_pos⟩
  | managed jq' pc' h hrank hiter' _ hm =>
    rw [h]
    exact ⟨hiter', hrank⟩

/-! ## Waiting as a condition on the steps -/

variable {D : ℕ}

/-- No thread waits, and what the handlers use is there. -/
structure Sound (s : Server D) : Prop where
  lists : ListsOpen s.jq
  goes : ∀ t, (s.threads t).Goes s.jq

/-- The step waits for nothing, finds the list it uses with room for the request it parks, and makes
no iterator of another thread invalid. -/
def Unhindered (m : Server.Move D) : Prop :=
  match m.event with
  | .run t rehash => ∀ pc ∈ (m.pre.threads t).pc, pc.Ready m.pre.jq ∧
      ∀ u ≠ t, ∀ name ∈ (m.pre.threads u).iterator, pc.invalidates m.pre.jq rehash name = false
  | _ => True

instance (m : Server.Move D) : Decidable (Unhindered m) := by
  unfold Unhindered; split <;> infer_instance

/-- The queue for which the thread waits in `get_work`. -/
def Thread.awaits : Thread → Option String
  | .waiting (.popJob msg) => some (moduleOf msg)
  | _ => none

/-- All threads wait in `get_work` for the queue `name`, and a job for it is not delivered. -/
def Starved (s : Server D) (name : String) : Prop :=
  (∀ t, (s.threads t).awaits = some name) ∧
  ∃ r ∈ s.incoming, r.handler = .submit ∧ moduleOf r.msg = name

instance (s : Server D) (name : String) : Decidable (Starved s name) := by
  unfold Starved; infer_instance

/-- No thread is left waiting: every thread is free or goes on, `get_work` ends with a job or with
its request parked, and `submit` with its job handed to a parked worker or queued, or refused. -/
structure Served (m : Server.Move D) : Prop where
  unblocked : ∀ t pc, m.post.threads t ≠ .waiting pc
  defined : ∀ t, m.post.threads t ≠ .undefined
  returning : ∀ t ∈ m.event.thread, (m.post.threads t).rank < (m.pre.threads t).rank
  others : ∀ t ∈ m.event.thread, ∀ u ≠ t, m.post.threads u = m.pre.threads u
  work : ∀ t ∈ m.event.thread, ∀ msg, m.pre.threads t = .running (.popJob msg) →
    (∃ job, m.post.threads t = .running (.replyWork job msg)) ∨
      m.post.threads t = .running (.park msg)
  parked : ∀ t ∈ m.event.thread, ∀ msg, m.pre.threads t = .running (.park msg) →
    m.post.threads t = .idle ∧
    ∃ ws ws', m.pre.jq.workersAwaiting.lookup (moduleOf msg) = some ws ∧
      m.post.jq.workersAwaiting.lookup (moduleOf msg) = some ws' ∧ ws'.q = ws.q ++ [msg]
  passed : ∀ t ∈ m.event.thread, ∀ job msg, m.pre.threads t = .running (.popWorker job msg) →
    ∃ worker ws, m.pre.jq.workersAwaiting.lookup (moduleOf msg) = some ws ∧
      ws.q.head? = some worker ∧ m.post.threads t = .running (.replyWorker job worker)
  queued : ∀ t ∈ m.event.thread, ∀ job msg, m.pre.threads t = .running (.pushJob job msg) →
    (∃ q, m.post.jq.queues.lookup (moduleOf msg) = some q ∧ q.q.getLast? = some job ∧
      m.post.threads t = .running (.answer (accepted msg job))) ∨
    m.post.threads t = .running (.answer (msg.fail .tempLimitReached "Queue full"))
  delivered : 0 < D → ∀ name, ¬ Starved m.post name

namespace Sound

/-- A thread beside a step that leaves its iterator valid. -/
theorem beside_eq {th : Thread} {invalid : String → Bool}
    (h : ∀ name ∈ th.iterator, invalid name = false) : th.beside invalid = th := by
  unfold Thread.beside
  split
  · rename_i name hn
    rw [if_neg (by simp [h name hn])]
  · rfl

theorem running_of_goes {jq : JobQueue} {th : Thread} {pc : Pc} (hg : th.Goes jq)
    (hp : th.pc = some pc) : th = .running pc := by
  cases th with
  | running pc' => exact congrArg Thread.running (Option.some.inj hp)
  | waiting pc' => exact hg.elim
  | idle | thrown | undefined => cases hp

variable {s : Server D} (hs : Sound s)

include hs

/-- An unhindered step of a thread leads to a sound state. -/
theorem afterStep {t : Fin D} {pc : Pc} {rehash : Bool} (hp : (s.threads t).pc = some pc)
    (hr : pc.Ready s.jq) (he : ∀ u ≠ t, ∀ name ∈ (s.threads u).iterator,
      pc.invalidates s.jq rehash name = false) :
    Sound (s.afterStep t pc rehash) ∧
      ((s.afterStep t pc rehash).threads t).rank < (s.threads t).rank ∧
      ∀ u ≠ t, (s.afterStep t pc rehash).threads u = s.threads u := by
  have hrun := running_of_goes (hs.goes t) hp
  have hgt := hs.goes t
  rw [hrun] at hgt
  obtain ⟨hg, hrank⟩ := step_goes hs.lists hgt hr
  have hother : ∀ u ≠ t, (s.afterStep t pc rehash).threads u = s.threads u := by
    intro u hu
    exact (if_neg hu).trans (beside_eq (he u hu))
  have hself : (s.afterStep t pc rehash).threads t = (pc.step s.jq).thread := if_pos rfl
  refine ⟨⟨lists_step hs.lists pc, fun u => ?_⟩, ?_, hother⟩
  · by_cases hu : u = t
    · rw [hu, hself]
      exact hg
    · rw [hother u hu]
      have hgu := hs.goes u
      cases hth : s.threads u with
      | idle | thrown => trivial
      | running pc' =>
        rw [hth] at hgu
        refine fun name hn => mem_queues_step (hgu name hn) ?_
        have hinv := he u hu name (by rw [hth]; exact hn)
        exact (Bool.or_eq_false_iff.mp hinv).1
      | waiting pc' | undefined =>
        rw [hth] at hgu
        exact hgu.elim
  · rw [hself, hrun]
    exact hrank

theorem unblocked (t : Fin D) (pc : Pc) : s.threads t ≠ .waiting pc := by
  intro h
  have hg := hs.goes t
  rw [h] at hg
  exact hg

theorem defined (t : Fin D) : s.threads t ≠ .undefined := by
  intro h
  have hg := hs.goes t
  rw [h] at hg
  exact hg

theorem not_starved (hD : 0 < D) (name : String) : ¬ Starved s name := by
  rintro ⟨h, -⟩
  have hw := h ⟨0, hD⟩
  cases hth : s.threads ⟨0, hD⟩ with
  | waiting pc => exact hs.unblocked _ _ hth
  | idle | running | thrown | undefined =>
    rw [hth] at hw
    cases hw

end Sound

/-! ## Steps that look at a queue or a list -/

section Looks

variable {jq : JobQueue} {msg : IncomingMessage}

theorem goes_lookup {pc : Pc} {name : String} (hg : (Thread.running pc).Goes jq)
    (hi : pc.iterator = some name) : ∃ q, jq.queues.lookup name = some q :=
  Map.exists_lookup (hg name hi)

/-- `get_work` waits exactly when its queue is open and empty. -/
theorem popJob_waits {q : Queue Job} (hq : jq.queues.lookup (moduleOf msg) = some q)
    (hr : ¬ Pc.Ready jq (.popJob msg)) :
    Pc.step jq (.popJob msg) = ⟨jq, .waiting (.popJob msg), []⟩ := by
  have hn : ¬ (q.isClosed = true ∨ q.q ≠ []) := fun h => hr fun q' hq' => by
    rw [hq] at hq'
    cases hq'
    exact h
  push Not at hn
  simp only [Pc.step, hq, Queue.pop_waits.mpr ⟨by simpa using hn.1, hn.2⟩]

theorem popJob_goes {q : Queue Job} (hq : jq.queues.lookup (moduleOf msg) = some q)
    (hr : Pc.Ready jq (.popJob msg)) :
    (∃ job, (Pc.step jq (.popJob msg)).thread = .running (.replyWork job msg)) ∨
      (Pc.step jq (.popJob msg)).thread = .running (.park msg) := by
  cases hc : q.isClosed with
  | true => exact Or.inr (by simp only [Pc.step, hq, Queue.pop_closed.mpr hc])
  | false =>
  cases hj : q.q with
  | nil =>
    rcases hr q hq with h | h
    · rw [hc] at h
      cases h
    · exact absurd hj h
  | cons job rest => exact Or.inl ⟨job, by simp only [Pc.step, hq, Queue.pop_cons hc hj]⟩

/-- `submit` waits, or uses a list that is not there, exactly when no worker is parked any more. -/
theorem popWorker_waits {job : Job} (ho : ListsOpen jq) (hr : ¬ Pc.Ready jq (.popWorker job msg)) :
    Pc.step jq (.popWorker job msg) = ⟨jq, .waiting (.popWorker job msg), []⟩ ∨
      Pc.step jq (.popWorker job msg) = ⟨jq, .undefined, []⟩ := by
  cases hws : jq.workersAwaiting.lookup (moduleOf msg) with
  | none => exact Or.inr (by simp only [Pc.step, hws])
  | some ws =>
    have hn : ws.q = [] := by
      by_contra h
      exact hr ⟨ws, hws, h⟩
    refine Or.inl ?_
    simp only [Pc.step, hws, Queue.pop_waits.mpr ⟨ho _ ws hws, hn⟩]

theorem popWorker_goes {job : Job} (ho : ListsOpen jq) (hr : Pc.Ready jq (.popWorker job msg)) :
    ∃ worker ws, jq.workersAwaiting.lookup (moduleOf msg) = some ws ∧ ws.q.head? = some worker ∧
      (Pc.step jq (.popWorker job msg)).thread = .running (.replyWorker job worker) := by
  obtain ⟨ws, hws, hne⟩ := hr
  cases hq : ws.q with
  | nil => exact absurd hq hne
  | cons worker rest =>
    have hs : (Pc.step jq (.popWorker job msg)).thread = .running (.replyWorker job worker) := by
      simp only [Pc.step, Option.mem_def.mp hws, Queue.pop_cons (ho _ ws hws) hq]
    exact ⟨worker, ws, hws, by rw [hq, List.head?_cons], hs⟩

/-- A request is parked exactly when there is a list with room for it. -/
theorem park_iff : (∃ ws ws', jq.workersAwaiting.lookup (moduleOf msg) = some ws ∧
      (Pc.step jq (.park msg)).state.workersAwaiting.lookup (moduleOf msg) = some ws' ∧
      ws'.q = ws.q ++ [msg]) ↔ Pc.Ready jq (.park msg) := by
  have hs : ∀ ws, jq.workersAwaiting.lookup (moduleOf msg) = some ws →
      (Pc.step jq (.park msg)).state.workersAwaiting.lookup (moduleOf msg) =
        some (ws.push msg).1 := by
    intro ws hws
    simp only [Pc.step, hws, AList.lookup_insert]
  constructor
  · rintro ⟨ws, ws', hws, he, happ⟩
    rw [hs ws hws] at he
    cases he
    refine ⟨ws, hws, ?_⟩
    by_contra hr
    rw [Queue.push_of_not_hasRoom hr] at happ
    exact absurd happ (by simp)
  · rintro ⟨ws, hws, hr⟩
    refine ⟨ws, _, hws, hs ws hws, ?_⟩
    rw [Queue.push_of_hasRoom hr]
    rfl

theorem pushJob_goes {job : Job} {q : Queue Job} (hq : jq.queues.lookup (moduleOf msg) = some q) :
    (∃ q', (Pc.step jq (.pushJob job msg)).state.queues.lookup (moduleOf msg) = some q' ∧
      q'.q.getLast? = some job ∧
      (Pc.step jq (.pushJob job msg)).thread = .running (.answer (accepted msg job))) ∨
    (Pc.step jq (.pushJob job msg)).thread =
      .running (.answer (msg.fail .tempLimitReached "Queue full")) := by
  by_cases hr : q.HasRoom
  · refine Or.inl ⟨q.enqueue job hr, ?_, ?_, ?_⟩
    · simp [Pc.step, hq, Queue.push_of_hasRoom hr]
    · simp
    · simp [Pc.step, hq, Queue.push_of_hasRoom hr]
  · exact Or.inr (by simp [Pc.step, hq, Queue.push_of_not_hasRoom hr])

end Looks

/-! ## Never waiting -/

theorem Sound.start (config : List (String × ℕ)) : Sound (Server.start D config) := by
  have hinit : ∀ (jq : JobQueue) (inst : String × ℕ), ListsOpen jq →
      ListsOpen (jq.initQueue inst.1 inst.2).1 := by
    intro jq inst ho
    by_cases hn : inst.1 ∈ jq.queues
    · rwa [initQueue_of_mem hn]
    · obtain ⟨n, h⟩ := initQueue_of_notMem hn inst.2
      rw [h]
      exact ho.emplace inst.1 n
  have hfold : ∀ (config : List (String × ℕ)) (jq : JobQueue), ListsOpen jq →
      ListsOpen (config.foldl (fun jq inst => (jq.initQueue inst.1 inst.2).1) jq) := by
    intro config
    induction config with
    | nil => exact fun _ ho => ho
    | cons inst config ih => exact fun jq ho => ih _ (hinit jq inst ho)
  have hempty : ListsOpen {} := by
    intro name ws h
    simp at h
  exact ⟨hfold config {} hempty, fun _ => trivial⟩

theorem Sound.dispatch {s : Server D} (hs : Sound s) (t : Fin D) (i : ℕ) (r : Request) :
    Sound (s.afterDispatch t i r) := by
  refine ⟨hs.lists, fun u => ?_⟩
  by_cases hu : u = t
  · have hth : (s.afterDispatch t i r).threads u = .running (.start r) := if_pos hu
    rw [hth]
    obtain ⟨handler, env, msg⟩ := r
    cases handler with
    | submit | getWork | setProgress | setResult | getResult | manage | status =>
      exact goes_of_none rfl
  · have hth : (s.afterDispatch t i r).threads u = s.threads u := if_neg hu
    rw [hth]
    exact hs.goes u

/-- A sound state after a step that is not one of a thread. -/
theorem Sound.served {m : Server.Move D} (hs : Sound m.post) (he : m.event.thread = none) :
    Served m := by
  have hno : ∀ t, t ∉ m.event.thread := fun t h => by rw [he] at h; cases h
  exact {
    unblocked := hs.unblocked
    defined := hs.defined
    returning := fun t h => absurd h (hno t)
    others := fun t h => absurd h (hno t)
    work := fun t h => absurd h (hno t)
    parked := fun t h => absurd h (hno t)
    passed := fun t h => absurd h (hno t)
    queued := fun t h => absurd h (hno t)
    delivered := hs.not_starved }

theorem Sound.step {config : List (String × ℕ)} {s s' : Server D} {e : Event D} (hs : Sound s)
    (hstep : (server D config).step s e s') (hu : Unhindered ⟨s, e, s'⟩) : Sound s' := by
  cases Server.step_cases hstep with
  | arrived r he h => rw [h]; exact ⟨hs.lists, hs.goes⟩
  | dispatched t i r he hr hf h => rw [h]; exact hs.dispatch t i r
  | ran t rehash pc he hp hl h =>
    subst he
    obtain ⟨hr, hother⟩ := hu pc hp
    rw [h]
    exact (hs.afterStep hp hr hother).1

/-- An unhindered step of a thread serves its request. -/
theorem Sound.served_afterStep {s : Server D} (hs : Sound s) {t : Fin D} {pc : Pc} {rehash : Bool}
    (hp : (s.threads t).pc = some pc) (hr : pc.Ready s.jq)
    (he : ∀ u ≠ t, ∀ name ∈ (s.threads u).iterator, pc.invalidates s.jq rehash name = false) :
    Served ⟨s, .run t rehash, s.afterStep t pc rehash⟩ := by
  obtain ⟨hs', hrank, hothers⟩ := hs.afterStep hp hr he
  have hrun : s.threads t = .running pc := Sound.running_of_goes (hs.goes t) hp
  have hself : (s.afterStep t pc rehash).threads t = (pc.step s.jq).thread := if_pos rfl
  have hg := hs.goes t
  rw [hrun] at hg
  -- a field about a place speaks of the thread that makes the step
  have hat : ∀ {t' : Fin D} {pc' : Pc}, t' ∈ (Event.run t rehash : Event D).thread →
      s.threads t' = .running pc' → t' = t ∧ pc' = pc := by
    intro t' pc' h h'
    cases h
    rw [hrun] at h'
    exact ⟨rfl, (Thread.running.inj h').symm⟩
  refine ⟨hs'.unblocked, hs'.defined, ?_, ?_, ?_, ?_, ?_, ?_, hs'.not_starved⟩
  · intro t' h
    cases h
    exact hrank
  · intro t' h
    cases h
    exact hothers
  · intro t' h msg h'
    obtain ⟨rfl, rfl⟩ := hat h h'
    obtain ⟨q, hq⟩ := goes_lookup hg rfl
    rw [hself]
    exact popJob_goes hq hr
  · intro t' h msg h'
    obtain ⟨rfl, rfl⟩ := hat h h'
    obtain ⟨ws, ws', hws, hws', happ⟩ := park_iff.mpr hr
    refine ⟨?_, ws, ws', hws, hws', happ⟩
    rw [hself]
    simp only [Pc.step, hws]
  · intro t' h job msg h'
    obtain ⟨rfl, rfl⟩ := hat h h'
    obtain ⟨worker, ws, hws, hhead, hth⟩ := popWorker_goes hs.lists hr
    exact ⟨worker, ws, hws, hhead, hself.trans hth⟩
  · intro t' h job msg h'
    obtain ⟨rfl, rfl⟩ := hat h h'
    obtain ⟨q, hq⟩ := goes_lookup hg rfl
    rcases pushJob_goes hq with ⟨q', hq', hlast, hth⟩ | hth
    · exact Or.inl ⟨q', hq', hlast, hself.trans hth⟩
    · exact Or.inr (hself.trans hth)

/-- A thread that leaves no one waiting with its step was ready for it. -/
theorem Sound.ready_of_served {s : Server D} (hs : Sound s) {t : Fin D} {pc : Pc} {rehash : Bool}
    (hp : (s.threads t).pc = some pc)
    (h : Served ⟨s, .run t rehash, s.afterStep t pc rehash⟩) : pc.Ready s.jq := by
  have hrun : s.threads t = .running pc := Sound.running_of_goes (hs.goes t) hp
  have hself : (s.afterStep t pc rehash).threads t = (pc.step s.jq).thread := if_pos rfl
  have hg := hs.goes t
  rw [hrun] at hg
  by_contra hr
  cases pc with
  | popJob msg =>
    obtain ⟨q, hq⟩ := goes_lookup hg rfl
    refine h.unblocked t (.popJob msg) (hself.trans ?_)
    rw [popJob_waits hq hr]
  | countWorkers job msg =>
    have hw : s.jq.workersAwaiting.lookup (moduleOf msg) = none := AList.lookup_eq_none.mpr hr
    refine h.defined t (hself.trans ?_)
    simp only [Pc.step, hw]
  | popWorker job msg =>
    rcases popWorker_waits hs.lists hr with hstep | hstep
    · refine h.unblocked t (.popWorker job msg) (hself.trans ?_)
      rw [hstep]
    · refine h.defined t (hself.trans ?_)
      rw [hstep]
  | park msg =>
    obtain ⟨-, ws, ws', hws, hws', happ⟩ := h.parked t rfl msg hrun
    exact hr (park_iff.mp ⟨ws, ws', hws, hws', happ⟩)
  | _ => exact hr trivial

/-- **In a sound state, a step serves its request if and only if it is unhindered.** -/
theorem Sound.served_iff {config : List (String × ℕ)} {s s' : Server D} {e : Event D}
    (hs : Sound s) (hstep : (server D config).step s e s') :
    Served ⟨s, e, s'⟩ ↔ Unhindered ⟨s, e, s'⟩ := by
  cases Server.step_cases hstep with
  | arrived r he h =>
    subst he h
    exact ⟨fun _ => trivial, fun hu => (hs.step hstep hu).served rfl⟩
  | dispatched t i r he hr hf h =>
    subst he h
    exact ⟨fun _ => trivial, fun hu => (hs.step hstep hu).served rfl⟩
  | ran t rehash pc he hp hl h =>
    subst he h
    constructor
    · intro h pc' hpc'
      rw [hp] at hpc'
      cases hpc'
      refine ⟨hs.ready_of_served hp h, fun u hu name hn => ?_⟩
      by_contra he
      have hbeside : ((s.threads u).beside fun name => pc.invalidates s.jq rehash name) =
          .undefined := by
        rw [Thread.beside, Option.mem_def.mp hn]
        exact if_pos (by simpa using he)
      exact h.defined u ((if_neg hu).trans hbeside)
    · intro hu
      obtain ⟨hr, he⟩ := hu pc hp
      exact hs.served_afterStep hp hr he

theorem sound_of_run {config : List (String × ℕ)} {tr : List (Server.Move D)} {s : Server D}
    (hr : Run (server D config) tr s) (hu : EachMove (fun _ m => Unhindered m) tr) : Sound s := by
  refine hr.invariant (I := fun _ s => Sound s) ?_ ?_ hu
  · rintro s rfl
    exact Sound.start config
  · intro tr s e s' _ hs hstep hu
    exact hs.step hstep hu

end Blocking

section Sample

attribute [local instance] Jsoncpp.integral

def workRequest (handle : ℕ) : Request := requestOf .getWork handle [("module", .string "q")]

/-- A job is queued and handed out, and then a request parked while the queue is disabled. -/
def twoThreads : List (Event 2) :=
  Server.serve 0 (requestOf .submit 1 (jobDocument "j")) 5 ++ Server.serve 1 (workRequest 2) 4 ++
  Server.serve 0 (requestOf .manage 3 [("queue", .string "q"), ("enable", .bool false)]) 7 ++
  Server.serve 1 (workRequest 4) 3

/-- The only thread waits for a job, and the job arrives. -/
def oneThread : List (Event 1) :=
  Server.serve 0 (workRequest 1) 2 ++ [.arrive (requestOf .submit 2 (jobDocument "j"))]

end Sample

end NixSrv.JobQueue
