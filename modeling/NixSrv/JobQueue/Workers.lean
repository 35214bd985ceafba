import NixSrv.JobQueue.Invariant
import NixSrv.JobQueue.Steps

/-!
# Worker requests

A `get_work` that finds its queue closed is parked and answered later.

* `answers`, `waiting`, **`balance`**, **`balance_getWork`**: a call moves requests between those
  answered and those parked, and a `get_work` adds its own;
* `ParkedUnderQueues`, `parked_origin`: where parked requests are and where they come from;
* **`destroy_balance`**: the destructor answers all that are parked under a queue;
* `KeepsWorkers`, **`no_request_lost_iff`**: the steps by which requests are lost.
-/

namespace NixSrv.JobQueue

open Json Transition

/-! ## Counting -/

/-- How many of the answers go to the request with handle `h`. -/
def countTo (h : ℕ) (sent : List Sent) : ℕ := sent.countP fun a => a.handle = h

/-- How often the request is parked in a waiting list. -/
def parkedIn (h : ℕ) (ws : Queue IncomingMessage) : ℕ := ws.q.countP fun w => w.handle = h

/-- How often the request is parked. -/
def waiting (jq : JobQueue) (h : ℕ) : ℕ := Map.total (parkedIn h) jq.workersAwaiting

@[simp] theorem countTo_nil (h : ℕ) : countTo h [] = 0 := rfl

theorem countTo_append (h : ℕ) (a b : List Sent) : countTo h (a ++ b) = countTo h a + countTo h b :=
  List.countP_append

theorem countTo_singleton (h : ℕ) (a : Sent) :
    countTo h [a] = if a.handle = h then 1 else 0 := by
  simp [countTo, List.countP_cons]

theorem countTo_eq_zero {h : ℕ} {sent : List Sent} (hs : ∀ a ∈ sent, a.handle ≠ h) :
    countTo h sent = 0 :=
  List.countP_eq_zero.mpr fun a ha => by simpa using hs a ha

@[simp] theorem parkedIn_new (h n : ℕ) : parkedIn h (.new n) = 0 := rfl

theorem parkedIn_of_q {h : ℕ} {ws : Queue IncomingMessage} {w : IncomingMessage}
    {rest : List IncomingMessage} (hq : ws.q = w :: rest) :
    parkedIn h ws = parkedIn h ws.dropFront + if w.handle = h then 1 else 0 := by
  simp [parkedIn, hq, List.countP_cons]

theorem parkedIn_push (h : ℕ) {ws : Queue IncomingMessage} (hr : ws.HasRoom)
    (w : IncomingMessage) :
    parkedIn h (ws.push w).1 = parkedIn h ws + if w.handle = h then 1 else 0 := by
  rw [Queue.push_of_hasRoom hr]
  simp [parkedIn, List.countP_append, List.countP_cons]

/-- A change of one waiting list. -/
theorem waiting_insert {jq s : JobQueue} {name : String} {ws ws' : Queue IncomingMessage}
    (hw : jq.workersAwaiting.lookup name = some ws)
    (hs : s.workersAwaiting = jq.workersAwaiting.insert name ws') (h : ℕ) :
    waiting s h + parkedIn h ws = waiting jq h + parkedIn h ws' := by
  have ht := Map.total_insert (parkedIn h) name ws' jq.workersAwaiting
  rw [Map.share_of_lookup hw, ← hs] at ht
  exact ht

section Calls

variable [Jsoncpp]

/-- How often the request was answered. -/
def answers (tr : List Move) (h : ℕ) : ℕ := countTo h (tr.flatMap sentIn)

theorem answers_snoc (tr : List Move) (m : Move) (h : ℕ) :
    answers (tr ++ [m]) h = answers tr h + countTo h (sentIn m) := by
  rw [answers, List.flatMap_append, countTo_append, List.flatMap_singleton]
  rfl

/-! ## One call -/

/-- The handle of a request. -/
def Call.handle? : Call → Option ℕ
  | .initQueue _ _ => none
  | .request r => some r.msg.handle

/-- Only `submit` and `get_work` change what is parked. -/
theorem waiting_handle (jq : JobQueue) {c : Call}
    (hs : ∀ env msg, c ≠ .request ⟨.submit, env, msg⟩)
    (hg : ∀ env msg, c ≠ .request ⟨.getWork, env, msg⟩) (h : ℕ) :
    waiting (jq.handle c).state h = waiting jq h := by
  cases awaiting_cases jq c with
  | kept hw => rw [waiting, hw, waiting]
  | created name n hm hw => rw [waiting, hw, Map.total_emplace (parkedIn_new h n), waiting]
  | served env msg ws hc => exact absurd hc (hs env msg)
  | parked env msg q ws hc => exact absurd hc (hg env msg)

theorem balance_submit (jq : JobQueue) (env : Env) (msg : IncomingMessage) {h : ℕ}
    (hne : msg.handle ≠ h) :
    countTo h (jq.submit env msg).sent + waiting (jq.submit env msg).state h = waiting jq h := by
  cases submit_cases jq env msg with
  | refused status reason hs he => rw [he, countTo_singleton, handle_fail, if_neg hne, Nat.zero_add]
  | noList _ _ he | closedList _ _ _ he => rw [he, countTo_nil, Nat.zero_add]
  | passed q ws w rest hv hq ho hw hws he =>
    have hi := waiting_insert (s := (jq.submit env msg).state) hw (by rw [he]) h
    have hp := parkedIn_of_q (h := h) hws
    rw [he] at hi
    rw [he, countTo_singleton, handle_reply]
    omega
  | queued q ws hv hq hr hw hws he =>
    rw [he, countTo_singleton, handle_reply, if_neg hne, Nat.zero_add]
    rfl

theorem balance_getWork_ne (jq : JobQueue) (msg : IncomingMessage) {h : ℕ} (hne : msg.handle ≠ h) :
    countTo h (jq.getWork msg).sent + waiting (jq.getWork msg).state h = waiting jq h := by
  cases getWork_cases jq msg with
  | noQueue reason hq he => rw [he, countTo_singleton, handle_fail, if_neg hne, Nat.zero_add]
  | waits _ _ _ _ he | noList _ _ _ he => rw [he, countTo_nil, Nat.zero_add]
  | handed q job rest hq ho hj he =>
    rw [he, countTo_singleton, handle_reply, if_neg hne, Nat.zero_add]
    rfl
  | parked q ws hq hc hw he =>
    have hp : parkedIn h (ws.push msg).1 = parkedIn h ws := by
      by_cases hr : ws.HasRoom
      · rw [parkedIn_push h hr, if_neg hne, Nat.add_zero]
      · rw [Queue.push_of_not_hasRoom hr]
    have hi := waiting_insert (s := (jq.getWork msg).state) hw (by rw [he]) h
    rw [he] at hi
    rw [he, countTo_nil]
    omega

/-- **A call answers or keeps every request that was there before it.** -/
theorem balance (jq : JobQueue) (c : Call) {h : ℕ} (hne : c.handle? ≠ some h) :
    countTo h (jq.handle c).sent + waiting (jq.handle c).state h = waiting jq h := by
  obtain ⟨name, size⟩ | ⟨⟨handler, env, msg⟩⟩ := c
  · rw [waiting_handle jq (by simp) (by simp)]
    exact Nat.zero_add _
  have hne' : msg.handle ≠ h := fun he => hne (congrArg some he)
  by_cases hr : handler ≠ .submit ∧ handler ≠ .getWork
  · have hsent : countTo h (jq.handleRequest ⟨handler, env, msg⟩).sent = 0 :=
      countTo_eq_zero fun a ha => handle_of_mem_sent hr ha ▸ hne'
    rw [waiting_handle jq (by simp [hr.1]) (by simp [hr.2])]
    exact (congrArg (· + _) hsent).trans (Nat.zero_add _)
  cases handler with
  | submit => exact balance_submit jq env msg hne'
  | getWork => exact balance_getWork_ne jq msg hne'
  | setProgress | setResult | getResult | manage | status => exact absurd (by decide) hr

/-- **A `get_work` adds one request**, if the waiting list it comes to has room. -/
theorem balance_getWork {jq : JobQueue} {msg : IncomingMessage}
    (hfin : (jq.getWork msg).Finished) (hq : moduleOf msg ∈ jq.queues)
    (hroom : ∀ q ws, jq.queues.lookup (moduleOf msg) = some q → q.isClosed = true →
      jq.workersAwaiting.lookup (moduleOf msg) = some ws → ws.HasRoom) :
    countTo msg.handle (jq.getWork msg).sent + waiting (jq.getWork msg).state msg.handle =
      waiting jq msg.handle + 1 := by
  cases getWork_cases jq msg with
  | noQueue reason hn he => exact absurd hq (AList.lookup_eq_none.mp hn)
  | waits _ _ _ _ he | noList _ _ _ he => simp [he, Outcome.Finished] at hfin
  | handed q job rest hq' ho hj he =>
    rw [he, countTo_singleton, handle_reply, if_pos rfl, Nat.add_comm]
    rfl
  | parked q ws hq' hc hw he =>
    have hp := parkedIn_push msg.handle (hroom q ws hq' hc hw) msg
    have hi := waiting_insert (s := (jq.getWork msg).state) hw (by rw [he]) msg.handle
    rw [if_pos rfl] at hp
    rw [he] at hi
    rw [he, countTo_nil]
    omega

/-! ## Queues with parked requests stay -/

/-- The `manage` request takes the queue `name` out of `queues_` and does not create it again. -/
def Drops (msg : IncomingMessage) (name : String) : Prop :=
  (msg.getBool "remove_all" false = true ∧ ¬ (Creates msg ∧ name = queueOf msg)) ∨
  (¬ Creates msg ∧ name = queueOf msg ∧ removes msg = true)

instance (msg : IncomingMessage) (name : String) : Decidable (Drops msg name) := by
  unfold Drops; infer_instance

omit [Jsoncpp] in
theorem queueAfterAll_some {msg : IncomingMessage} (h : ¬ msg.getBool "remove_all" false = true)
    (q : Queue Job) : ∃ q', queueAfterAll msg (some q) = some q' := by
  simp only [queueAfterAll, if_neg h]
  split_ifs <;> exact ⟨_, rfl⟩

omit [Jsoncpp] in
theorem queueAfterOwn_some {msg : IncomingMessage} (h : ¬ removes msg = true) (q : Queue Job) :
    ∃ q', queueAfterOwn msg q = some q' := by
  simp only [queueAfterOwn, if_neg h]
  exact ⟨_, rfl⟩

theorem mem_queues_manage_of_not_drops (jq : JobQueue) {msg : IncomingMessage} {name : String}
    (hm : name ∈ jq.queues) (hd : ¬ Drops msg name) : name ∈ (jq.manage msg).state.queues := by
  obtain ⟨n, hl⟩ := lookup_manage jq msg
  obtain ⟨q, hq⟩ := Map.exists_lookup hm
  refine AList.lookup_isSome.mp ?_
  rw [hl, hq, queueAfter]
  by_cases hown : name = queueOf msg
  · rw [if_pos hown]
    by_cases hc : Creates msg
    · rw [if_pos hc]
      rfl
    · have hall : ¬ msg.getBool "remove_all" false = true := fun h =>
        hd (Or.inl ⟨h, fun h' => hc h'.1⟩)
      have hrem : ¬ removes msg = true := fun h => hd (Or.inr ⟨hc, hown, h⟩)
      obtain ⟨q₁, hq₁⟩ := queueAfterAll_some hall q
      obtain ⟨q₂, hq₂⟩ := queueAfterOwn_some hrem q₁
      rw [if_neg hc, hq₁, Option.bind_some, hq₂]
      rfl
  · have hall : ¬ msg.getBool "remove_all" false = true := fun h =>
      hd (Or.inl ⟨h, fun h' => hown h'.2⟩)
    obtain ⟨q₁, hq₁⟩ := queueAfterAll_some hall q
    rw [if_neg hown, hq₁]
    rfl

theorem not_mem_queues_manage_of_drops (jq : JobQueue) {msg : IncomingMessage} {name : String}
    (hd : Drops msg name) : name ∉ (jq.manage msg).state.queues := by
  obtain ⟨n, hl⟩ := lookup_manage jq msg
  rw [← AList.lookup_eq_none, hl, queueAfter]
  rcases hd with ⟨hall, hown⟩ | ⟨hc, hown, hrem⟩
  · have hnone : queueAfterAll msg (jq.queues.lookup name) = none := by
      simp only [queueAfterAll, if_pos hall, Option.map_none, ite_self]
    rw [hnone]
    split_ifs with hn hc
    · exact absurd ⟨hc, hn⟩ hown
    · rfl
    · rfl
  · have hnone : queueAfterOwn msg = fun _ => none := by
      funext q
      simp only [queueAfterOwn, if_pos hrem]
    rw [if_pos hown, if_neg hc, hnone]
    exact Option.bind_fun_none _

/-- Requests are parked under names of queues only. -/
def ParkedUnderQueues (jq : JobQueue) : Prop :=
  ∀ name ws, jq.workersAwaiting.lookup name = some ws → ws.q ≠ [] → name ∈ jq.queues

/-- A `get_work` that comes to a closed queue finds room in the waiting list. -/
def FindsRoom (jq : JobQueue) (msg : IncomingMessage) : Prop :=
  ∀ q ∈ jq.queues.lookup (moduleOf msg), q.isClosed = true →
    ∀ ws ∈ jq.workersAwaiting.lookup (moduleOf msg), ws.q.length < ws.queueSize

/-- The `manage` request drops no queue under which requests are parked. -/
def SparesWorkers (jq : JobQueue) (msg : IncomingMessage) : Prop :=
  ∀ e ∈ jq.workersAwaiting.entries, Drops msg e.1 → e.2.q = []

/-- The step parks no request in a full list and drops no queue with parked requests. -/
def KeepsWorkers (m : Move) : Prop :=
  match m.event with
  | .request ⟨.getWork, _, msg⟩ => FindsRoom m.pre msg
  | .request ⟨.manage, _, msg⟩ => SparesWorkers m.pre msg
  | _ => True

instance (jq : JobQueue) (msg : IncomingMessage) : Decidable (FindsRoom jq msg) := by
  unfold FindsRoom; infer_instance

instance (jq : JobQueue) (msg : IncomingMessage) : Decidable (SparesWorkers jq msg) := by
  unfold SparesWorkers; infer_instance

instance (m : Move) : Decidable (KeepsWorkers m) :=
  match m with
  | ⟨pre, .request ⟨.getWork, _, msg⟩, _⟩ => inferInstanceAs (Decidable (FindsRoom pre msg))
  | ⟨pre, .request ⟨.manage, _, msg⟩, _⟩ => inferInstanceAs (Decidable (SparesWorkers pre msg))
  | ⟨_, .request ⟨.submit, _, _⟩, _⟩ | ⟨_, .request ⟨.setProgress, _, _⟩, _⟩
  | ⟨_, .request ⟨.setResult, _, _⟩, _⟩ | ⟨_, .request ⟨.getResult, _, _⟩, _⟩
  | ⟨_, .request ⟨.status, _, _⟩, _⟩ | ⟨_, .initQueue _ _, _⟩ => isTrue trivial

/-- Every queue is still there after a call that does not drop it. -/
theorem mem_queues_handle {jq : JobQueue} {c : Call} (hfin : (jq.handle c).Finished)
    {name : String} (hm : name ∈ jq.queues)
    (hd : ∀ env msg, c = .request ⟨.manage, env, msg⟩ → ¬ Drops msg name) :
    name ∈ (jq.handle c).state.queues := by
  obtain ⟨q, hq⟩ := Map.exists_lookup hm
  cases queue_cases hfin jq name with
  | kept _ h => exact Map.mem_of_lookup (h.trans hq)
  | created n _ _ h => exact Map.mem_of_lookup h
  | enqueued _ _ _ _ _ h => exact Map.mem_of_lookup h
  | dequeued _ _ _ _ _ _ h => exact Map.mem_of_lookup h
  | managed env msg n hc h =>
    subst hc
    exact mem_queues_manage_of_not_drops jq hm (hd env msg rfl)

omit [Jsoncpp] in
theorem mem_push {ws : Queue IncomingMessage} {msg w : IncomingMessage}
    (h : w ∈ (ws.push msg).1.q) : w ∈ ws.q ∨ w = msg := by
  by_cases hr : ws.HasRoom
  · rw [Queue.push_of_hasRoom hr] at h
    simpa using h
  · rw [Queue.push_of_not_hasRoom hr] at h
    exact Or.inl h

/-- **Where a parked request comes from**: it was parked before the call, or the call is its own. -/
theorem parked_before {jq : JobQueue} {c : Call} {name : String} {ws : Queue IncomingMessage}
    {w : IncomingMessage} (hl : (jq.handle c).state.workersAwaiting.lookup name = some ws)
    (hw : w ∈ ws.q) :
    (∃ ws', jq.workersAwaiting.lookup name = some ws' ∧ w ∈ ws'.q) ∨
    (name = moduleOf w ∧ name ∈ jq.queues ∧ ∃ env, c = .request ⟨.getWork, env, w⟩) := by
  cases awaiting_cases jq c with
  | kept h => rw [h] at hl; exact Or.inl ⟨ws, hl, hw⟩
  | created name' n hm h =>
    rw [h, Map.lookup_emplace] at hl
    split_ifs at hl with he
    · cases ho : jq.workersAwaiting.lookup name' with
      | none => rw [ho] at hl; cases hl; cases hw
      | some ws' => rw [ho] at hl; cases hl; exact Or.inl ⟨_, he ▸ ho, hw⟩
    · exact Or.inl ⟨ws, hl, hw⟩
  | served env msg ws' hc hq hw' h =>
    rw [h, Map.lookup_insert] at hl
    split_ifs at hl with he
    · cases hl
      exact Or.inl ⟨ws', by rw [he]; exact hw', List.mem_of_mem_tail hw⟩
    · exact Or.inl ⟨ws, hl, hw⟩
  | parked env msg q ws' hc hq _ hw' h =>
    rw [h, Map.lookup_insert] at hl
    split_ifs at hl with he
    · cases hl
      rcases mem_push hw with hw | rfl
      · exact Or.inl ⟨ws', by rw [he]; exact hw', hw⟩
      · exact Or.inr ⟨he, by rw [he]; exact Map.mem_of_lookup hq, env, hc⟩
    · exact Or.inl ⟨ws, hl, hw⟩

/-- A call keeps parked requests under the names of queues, if it drops none with parked ones. -/
theorem ParkedUnderQueues.handle {jq : JobQueue} (hp : ParkedUnderQueues jq) {c : Call}
    (hfin : (jq.handle c).Finished)
    (hs : ∀ env msg, c = .request ⟨.manage, env, msg⟩ → SparesWorkers jq msg) :
    ParkedUnderQueues (jq.handle c).state := by
  intro name ws hl hne
  obtain ⟨w, hw⟩ := List.exists_mem_of_ne_nil _ hne
  rcases parked_before hl hw with ⟨ws', hl', hw'⟩ | ⟨-, hq, env, rfl⟩
  · have hne' : ws'.q ≠ [] := List.ne_nil_of_mem hw'
    refine mem_queues_handle hfin (hp name ws' hl' hne') fun env msg hc hd => hne' ?_
    exact hs env msg hc ⟨name, ws'⟩ (AList.mem_lookup_iff.mp hl') hd
  · exact mem_queues_handle hfin hq fun env' msg hc => by cases hc

/-! ## The destructor -/

omit [Jsoncpp] in
/-- The inner loop of the destructor empties an open list. -/
theorem drain_of_open (n : ℕ) : ∀ ws : Queue IncomingMessage, ws.isClosed = false → ws.size ≤ n →
    ∃ rest, drain n ws = some (ws.q.map
      (·.reject .serviceUnavailable "Service unavailable."), rest) ∧
      rest.q = [] ∧ rest.isClosed = false := by
  induction n with
  | zero =>
    intro ws ho hn
    have hq : ws.q = [] := List.length_eq_zero_iff.mp (Nat.le_zero.mp hn)
    exact ⟨ws, by rw [drain, hq, List.map_nil], hq, ho⟩
  | succ n ih =>
    intro ws ho hn
    cases hq : ws.q with
    | nil => exact ⟨ws, by simp [drain, Queue.size, hq], hq, ho⟩
    | cons w rest =>
      have hsize : ws.size = rest.length + 1 := by rw [Queue.size, hq, List.length_cons]
      have hlen : ws.dropFront.size ≤ n := by
        rw [Queue.size, Queue.q_dropFront, hq, List.tail_cons]
        omega
      obtain ⟨ws', hd, he⟩ := ih ws.dropFront ho hlen
      refine ⟨ws', ?_, he⟩
      have hne : ws.size ≠ 0 := by omega
      rw [drain, if_neg hne, Queue.pop_cons ho hq]
      simp only [hd, Queue.q_dropFront, hq, List.tail_cons, List.map_cons, Option.map_some]

omit [Jsoncpp] in
theorem countTo_reject (h : ℕ) (ws : Queue IncomingMessage) (status : StatusCode)
    (reason : String) : countTo h (ws.q.map (·.reject status reason)) = parkedIn h ws := by
  rw [countTo, parkedIn, List.countP_map]
  rfl

/-- All waiting lists are open. -/
def AllOpen (jq : JobQueue) : Prop :=
  ∀ name ws, jq.workersAwaiting.lookup name = some ws → ws.isClosed = false

omit [Jsoncpp] in
/-- One pass of the destructor's loop rejects what is parked under the name. -/
theorem destroyQueue_of_open {o : Outcome} (ho : o.ending = .returned) (hopen : AllOpen o.state)
    {name : String} (hm : name ∈ o.state.workersAwaiting) :
    ∃ ws rest, o.state.workersAwaiting.lookup name = some ws ∧ rest.q = [] ∧
      rest.isClosed = false ∧ destroyQueue o name = .returned
        { o.state with workersAwaiting := o.state.workersAwaiting.insert name rest }
        (o.sent ++ ws.q.map (·.reject .serviceUnavailable "Service unavailable.")) := by
  obtain ⟨ws, hws⟩ := Map.exists_lookup hm
  obtain ⟨rest, hd, hq, hc⟩ := drain_of_open ws.size ws (hopen name ws hws) le_rfl
  exact ⟨ws, rest, hws, hq, hc, by simp only [destroyQueue, ho, hws, hd]⟩

omit [Jsoncpp] in
/-- The destructor's loop over some names: every request is answered or still parked, and none is
parked under these names. -/
theorem destroy_keys (names : List String) : ∀ o : Outcome, o.ending = .returned →
    AllOpen o.state → (∀ name ∈ names, name ∈ o.state.workersAwaiting) →
    (names.foldl destroyQueue o).ending = .returned ∧
    (∀ h, countTo h (names.foldl destroyQueue o).sent +
        waiting (names.foldl destroyQueue o).state h = countTo h o.sent + waiting o.state h) ∧
    ∀ name ws, (names.foldl destroyQueue o).state.workersAwaiting.lookup name = some ws →
      ws.q = [] ∨ (name ∉ names ∧ o.state.workersAwaiting.lookup name = some ws) := by
  induction names with
  | nil =>
    intro o ho _ _
    exact ⟨ho, fun h => rfl, fun name ws h => Or.inr ⟨List.not_mem_nil, h⟩⟩
  | cons name names ih =>
    intro o ho hopen hmem
    obtain ⟨ws, rest, hws, hrest, hc, hstep⟩ :=
      destroyQueue_of_open ho hopen (hmem name List.mem_cons_self)
    rw [List.foldl_cons]
    have hopen' : AllOpen (destroyQueue o name).state := by
      rw [hstep]
      intro name' ws' h
      rw [Map.lookup_insert] at h
      split_ifs at h with he
      · cases h; exact hc
      · exact hopen name' ws' h
    obtain ⟨hend, hbal, hleft⟩ := ih (destroyQueue o name) (by rw [hstep]) hopen' (by
      rw [hstep]
      exact fun name' hn =>
        (AList.mem_insert _).mpr (Or.inr (hmem name' (List.mem_cons_of_mem _ hn))))
    refine ⟨hend, fun h => ?_, fun name' ws' h => ?_⟩
    · have hi := waiting_insert (s := (destroyQueue o name).state) hws (by rw [hstep]) h
      have hr : parkedIn h rest = 0 := by rw [parkedIn, hrest]; rfl
      have hsent : countTo h (destroyQueue o name).sent = countTo h o.sent + parkedIn h ws := by
        rw [hstep, countTo_append, countTo_reject]
      have hb := hbal h
      omega
    · rcases hleft name' ws' h with he | ⟨hn, he⟩
      · exact Or.inl he
      · rw [hstep, Map.lookup_insert] at he
        split_ifs at he with hnn
        · cases he
          exact Or.inl hrest
        · refine Or.inr ⟨fun hm => ?_, he⟩
          rcases List.mem_cons.mp hm with hm | hm
          · exact hnn hm
          · exact hn hm

omit [Jsoncpp] in
/-- **The destructor answers every parked request**, if all are parked under queues. -/
theorem destroy_balance {jq : JobQueue} (hw : WellFormed jq) (hp : ParkedUnderQueues jq) :
    jq.destroy.ending = .returned ∧ ∀ h, countTo h jq.destroy.sent = waiting jq h := by
  obtain ⟨hend, hbal, hleft⟩ := destroy_keys jq.queues.keys (.returned jq []) rfl hw.awaiting_open
    fun name hn => hw.awaiting name (AList.mem_keys.mpr hn)
  refine ⟨hend, fun h => ?_⟩
  have hzero : waiting jq.destroy.state h = 0 := by
    refine Map.total_eq_zero.mpr fun name ws hws => ?_
    rcases hleft name ws hws with hq | ⟨hn, hq⟩
    · rw [parkedIn, hq]; rfl
    · by_contra hne
      refine hn (AList.mem_keys.mp (hp name ws hq fun he => hne ?_))
      rw [parkedIn, he]
      rfl
  have hb := hbal h
  rw [countTo_nil, Nat.zero_add] at hb
  change countTo h jq.destroy.sent + waiting jq.destroy.state h = waiting jq h at hb
  omega

/-! ## Runs -/

/-- The request has a handle of its own. -/
def FreshHandle (hist : List Move) (m : Move) : Prop :=
  ∀ h ∈ m.event.handle?, ∀ m' ∈ hist, m'.event.handle? ≠ some h

instance (hist : List Move) (m : Move) : Decidable (FreshHandle hist m) := by
  unfold FreshHandle; infer_instance

/-- The step is a `get_work` that names a queue. -/
def AsksForWork (h : ℕ) (m : Move) : Prop :=
  ∃ env msg, m.event = .request ⟨.getWork, env, msg⟩ ∧ msg.handle = h ∧
    moduleOf msg ∈ m.pre.queues

/-- The request is parked under the name of a queue. -/
def Parked (jq : JobQueue) (h : ℕ) : Prop :=
  ∃ name ws, name ∈ jq.queues ∧ jq.workersAwaiting.lookup name = some ws ∧
    ∃ w ∈ ws.q, w.handle = h

/-- Every `get_work` that named a queue is answered once or parked, and the destructor leaves none
of them unanswered. -/
def NoneLost (tr : List Move) (jq : JobQueue) : Prop :=
  ∀ m ∈ tr, ∀ h, AsksForWork h m →
    (answers tr h = 1 ∨ (answers tr h = 0 ∧ Parked jq h)) ∧
    jq.destroy.ending = .returned ∧ answers tr h + countTo h jq.destroy.sent = 1

/-- No request is lost in any state the run comes through. -/
def NeverLost (tr : List Move) : Prop := ∀ a s, a <+: tr → Run system a s → NoneLost a s

omit [Jsoncpp] in
theorem parked_of_waiting {jq : JobQueue} (hp : ParkedUnderQueues jq) {h : ℕ}
    (hw : waiting jq h ≠ 0) : Parked jq h := by
  have hex : ¬ ∀ name ws, jq.workersAwaiting.lookup name = some ws → parkedIn h ws = 0 :=
    fun hn => hw (Map.total_eq_zero.mpr hn)
  push Not at hex
  obtain ⟨name, ws, hws, hne⟩ := hex
  obtain ⟨w, hwm, hh⟩ := List.countP_pos_iff.mp (Nat.pos_of_ne_zero hne)
  refine ⟨name, ws, hp name ws hws fun hq => ?_, hws, w, hwm, of_decide_eq_true hh⟩
  rw [hq] at hwm
  cases hwm

/-- A handle that no request has had is neither answered nor parked. -/
theorem balance_of_fresh {tr : List Move} {jq : JobQueue} (hr : Run system tr jq) {h : ℕ}
    (hf : ∀ m ∈ tr, m.event.handle? ≠ some h) : answers tr h + waiting jq h = 0 := by
  induction hr with
  | nil hi => cases hi; rfl
  | @snoc tr s s' c hr hs ih =>
    have hb := balance s c (hf ⟨s, c, s'⟩ (by simp))
    have hi := ih fun m hm => hf m (List.mem_append_left _ hm)
    rw [answers_snoc, (step_iff.mp hs).2]
    change answers tr h + countTo h (s.handle c).sent + _ = 0
    omega

/-- Requests are parked under names of queues only, as long as no step drops such a queue. -/
theorem parkedUnderQueues_of_run {tr : List Move} {jq : JobQueue} (hr : Run system tr jq)
    (hc : ∀ m ∈ tr, KeepsWorkers m) : ParkedUnderQueues jq := by
  induction hr with
  | nil hi => cases hi; intro name ws h; simp at h
  | @snoc tr s s' c hr hs ih =>
    have hk := hc ⟨s, c, s'⟩ (by simp)
    rw [(step_iff.mp hs).2]
    refine (ih fun m hm => hc m (List.mem_append_left _ hm)).handle (step_iff.mp hs).1
      fun env msg he => ?_
    subst he
    exact hk

/-- A parked request is a `get_work` that named the queue it is parked under. -/
theorem parked_origin {tr : List Move} {jq : JobQueue} (hr : Run system tr jq) :
    ∀ name ws, jq.workersAwaiting.lookup name = some ws → ∀ w ∈ ws.q,
      name = moduleOf w ∧ ∃ m ∈ tr, AsksForWork w.handle m := by
  induction hr with
  | nil hi => cases hi; intro name ws h; simp at h
  | @snoc tr s s' c hr hs ih =>
    intro name ws hl w hw
    rw [(step_iff.mp hs).2] at hl
    rcases parked_before hl hw with ⟨ws', hl', hw'⟩ | ⟨hn, hq, env, rfl⟩
    · obtain ⟨hn, m, hm, ha⟩ := ih name ws' hl' w hw'
      exact ⟨hn, m, List.mem_append_left _ hm, ha⟩
    · exact ⟨hn, _, List.mem_append_right _ (List.mem_singleton.mpr rfl), env, w, rfl, rfl,
        hn ▸ hq⟩

/-- **Each `get_work` is answered once or parked once.** -/
theorem balance_of_run {tr : List Move} {jq : JobQueue} (hr : Run system tr jq)
    (hf : EachMove FreshHandle tr) (hc : ∀ m ∈ tr, KeepsWorkers m) :
    ∀ m ∈ tr, ∀ h, AsksForWork h m → answers tr h + waiting jq h = 1 := by
  induction hr with
  | nil hi => intro m hm; cases hm
  | @snoc tr s s' c hr hs ih =>
    rw [eachMove_snoc] at hf
    intro m hm h hask
    rw [answers_snoc, (step_iff.mp hs).2]
    change answers tr h + countTo h (s.handle c).sent + _ = 1
    rcases List.mem_append.mp hm with hm | hm
    · have hi := ih hf.1 (fun m hm => hc m (List.mem_append_left _ hm)) m hm h hask
      have hb := balance s c (h := h) fun hh => by
        obtain ⟨env, msg, he, rfl, -⟩ := hask
        exact hf.2 msg.handle hh m hm (by rw [he]; rfl)
      omega
    · rw [List.mem_singleton.mp hm] at hask
      obtain ⟨env, msg, he, rfl, hq⟩ := hask
      cases he
      have hb := balance_of_fresh hr (hf.2 msg.handle rfl)
      have hk : FindsRoom s msg := hc _ (List.mem_append_right _ (List.mem_singleton.mpr rfl))
      have hg : countTo msg.handle (s.getWork msg).sent +
          waiting (s.getWork msg).state msg.handle = waiting s msg.handle + 1 :=
        balance_getWork (step_iff.mp hs).1 hq fun q ws hq' hcl hws =>
          ⟨(wellFormed_of_run hr).awaiting_open _ ws hws, hk q hq' hcl ws hws⟩
      change _ + countTo msg.handle (s.getWork msg).sent +
        waiting (s.getWork msg).state msg.handle = 1
      omega

/-- **No worker request is lost** in a run that parks no request in a full list and drops no queue
under which requests are parked. -/
theorem no_request_lost {tr : List Move} {jq : JobQueue} (hr : Run system tr jq)
    (hf : EachMove FreshHandle tr) (hc : ∀ m ∈ tr, KeepsWorkers m) : NoneLost tr jq := by
  intro m hm h hask
  have hb := balance_of_run hr hf hc m hm h hask
  have hp := parkedUnderQueues_of_run hr hc
  obtain ⟨hend, hd⟩ := destroy_balance (wellFormed_of_run hr) hp
  refine ⟨?_, hend, by rw [hd]; exact hb⟩
  by_cases h0 : waiting jq h = 0
  · exact Or.inl (by omega)
  · exact Or.inr ⟨by omega, parked_of_waiting hp h0⟩

/-! ## The condition is exact -/

omit [Jsoncpp] in
theorem waiting_of_parked {jq : JobQueue} {h : ℕ} (hp : Parked jq h) : waiting jq h ≠ 0 := by
  obtain ⟨name, ws, -, hws, w, hw, hh⟩ := hp
  intro h0
  have hz := Map.total_eq_zero.mp h0 name ws hws
  exact List.countP_eq_zero.mp hz w hw (decide_eq_true hh)

/-- A `get_work` that is not lost has found room. -/
theorem findsRoom_of_noneLost {tr : List Move} {s : JobQueue} (hr : Run system tr s) {env : Env}
    {msg : IncomingMessage} (hf : FreshHandle tr ⟨s, .request ⟨.getWork, env, msg⟩,
      (s.getWork msg).state⟩)
    (hn : NoneLost (tr ++ [⟨s, .request ⟨.getWork, env, msg⟩, (s.getWork msg).state⟩])
      (s.getWork msg).state) : FindsRoom s msg := by
  intro q hq hcl ws hws
  by_contra hlen
  have hroom : ¬ ws.HasRoom := fun h => hlen h.2
  have hb := balance_of_fresh hr (hf msg.handle rfl)
  have hlost : answers (tr ++ [⟨s, .request ⟨.getWork, env, msg⟩, (s.getWork msg).state⟩])
      msg.handle = 0 ∧ waiting (s.getWork msg).state msg.handle = 0 := by
    cases getWork_cases s msg with
    | noQueue _ hq' _ => rw [hq] at hq'; cases hq'
    | waits q' hq' ho _ _ | handed q' _ _ hq' ho _ _ =>
      rw [hq] at hq'
      cases hq'
      rw [hcl] at ho
      cases ho
    | noList _ _ hw' _ => rw [hws] at hw'; cases hw'
    | parked q' ws' hq' _ hw' he =>
      rw [hws] at hw'
      cases hw'
      have hi := waiting_insert (s := (s.getWork msg).state) hws (by rw [he]) msg.handle
      simp only [Queue.push_of_not_hasRoom hroom] at hi
      have hsent : sentIn ⟨s, .request ⟨.getWork, env, msg⟩, (s.getWork msg).state⟩ = [] := by
        simp only [sentIn, handle, handleRequest, he]
      rw [answers_snoc, hsent, countTo_nil]
      omega
  obtain ⟨h | ⟨-, h⟩, -⟩ := hn _ (List.mem_append_right _ (List.mem_singleton.mpr rfl)) msg.handle
    ⟨env, msg, rfl, rfl, Map.mem_of_lookup hq⟩
  · omega
  · exact waiting_of_parked h hlost.2

/-- A `manage` after which no request is lost has dropped no queue with parked requests. -/
theorem sparesWorkers_of_noneLost {tr : List Move} {s : JobQueue} (hr : Run system tr s)
    (hfr : EachMove FreshHandle tr) (hc : ∀ m ∈ tr, KeepsWorkers m) {env : Env}
    {msg : IncomingMessage} (hf : FreshHandle tr ⟨s, .request ⟨.manage, env, msg⟩,
      (s.manage msg).state⟩)
    (hn : NoneLost (tr ++ [⟨s, .request ⟨.manage, env, msg⟩, (s.manage msg).state⟩])
      (s.manage msg).state) : SparesWorkers s msg := by
  rintro ⟨name, ws⟩ he hd
  by_contra hne
  have hws : s.workersAwaiting.lookup name = some ws := AList.mem_lookup_iff.mpr he
  obtain ⟨w, hw⟩ := List.exists_mem_of_ne_nil _ hne
  obtain ⟨-, m, hm, hask⟩ := parked_origin hr name ws hws w hw
  have hb := balance_of_run hr hfr hc m hm w.handle hask
  have hpos : 0 < parkedIn w.handle ws := List.countP_pos_iff.mpr ⟨w, hw, decide_eq_true rfl⟩
  have hhandle : (Call.request ⟨.manage, env, msg⟩).handle? ≠ some w.handle := by
    intro hh
    obtain ⟨env', msg', he', hh', -⟩ := hask
    exact hf w.handle hh m hm (by rw [he', ← hh']; rfl)
  have hstep : countTo w.handle (s.manage msg).sent + waiting (s.manage msg).state w.handle =
      waiting s w.handle := balance s (.request ⟨.manage, env, msg⟩) hhandle
  have hkeep : waiting (s.manage msg).state w.handle = waiting s w.handle :=
    waiting_handle s (c := .request ⟨.manage, env, msg⟩) (by simp) (by simp) w.handle
  -- the dropped queue's list stays, so the request cannot be in another one as well
  have hws' : (s.manage msg).state.workersAwaiting.lookup name = some ws := by
    rcases manage_workersAwaiting s msg with h | ⟨n, h, -⟩
    · rw [h, hws]
    · rw [h, Map.lookup_emplace]
      split_ifs with hq
      · rw [← hq, hws, Option.getD_some]
      · exact hws
  have hle : parkedIn w.handle ws ≤ waiting s w.handle := by
    have := Map.total_erase (parkedIn w.handle) name s.workersAwaiting
    rw [Map.share_of_lookup hws] at this
    unfold waiting
    omega
  obtain ⟨h | ⟨-, name', ws', hq', hl', w', hw', hh'⟩, -⟩ :=
    hn m (List.mem_append_left _ hm) w.handle hask
  · rw [answers_snoc] at h
    change answers tr w.handle + countTo w.handle (s.manage msg).sent = 1 at h
    omega
  · have hne' : name' ≠ name := fun h => not_mem_queues_manage_of_drops s hd (h ▸ hq')
    have hpos' : 0 < parkedIn w.handle ws' :=
      List.countP_pos_iff.mpr ⟨w', hw', decide_eq_true hh'⟩
    have htwo := Map.share_add_share_le (parkedIn w.handle) (s.manage msg).state.workersAwaiting
      hne'
    rw [Map.share_of_lookup hws', Map.share_of_lookup hl'] at htwo
    change _ ≤ waiting (s.manage msg).state w.handle at htwo
    omega

/-- **No worker request is lost at any point of a run if and only if** no step parks a request in
a full list or drops a queue under which requests are parked. -/
theorem no_request_lost_iff {tr : List Move} {jq : JobQueue} (hr : Run system tr jq)
    (hf : EachMove FreshHandle tr) :
    NeverLost tr ↔ ∀ m ∈ tr, KeepsWorkers m := by
  constructor
  · intro hn
    induction hr with
    | nil _ => intro m hm; cases hm
    | @snoc tr s s' c hr hs ih =>
      rw [eachMove_snoc] at hf
      have hold := ih hf.1 fun a t ha => hn a t (ha.trans (List.prefix_append _ _))
      have hend := hn _ s' List.prefix_rfl (hr.snoc hs)
      intro m hm
      rcases List.mem_append.mp hm with hm | hm
      · exact hold m hm
      rw [List.mem_singleton.mp hm]
      obtain rfl := (step_iff.mp hs).2
      obtain ⟨name, size⟩ | ⟨⟨handler, env, msg⟩⟩ := c
      · trivial
      cases handler with
      | getWork => exact findsRoom_of_noneLost hr hf.2 hend
      | manage => exact sparesWorkers_of_noneLost hr hf.1 hold hf.2 hend
      | _ => trivial
  · rintro hc a s ⟨b, rfl⟩ ha
    exact no_request_lost ha hf.of_append fun m hm => hc m (List.mem_append_left _ hm)

end Calls

section Sample

attribute [local instance] Jsoncpp.integral

/-- Two workers come to a closed queue with the given capacity; it is opened and gets a job. -/
def parkedWorkers (size : ℕ) : List Call := [
  .initQueue "q" size,
  callOf .manage 1 [("queue", .string "q"), ("enable", .bool false)],
  callOf .getWork 2 [("module", .string "q")],
  callOf .getWork 3 [("module", .string "q")],
  callOf .manage 4 [("queue", .string "q"), ("enable", .bool true)],
  callOf .submit 5 [("module", .string "q"), ("action", .string "a"), ("parameters", .null)]]

theorem no_request_lost_iff_parkedWorkers : NeverLost (historyOf (parkedWorkers 2)) ↔
    ∀ m ∈ historyOf (parkedWorkers 2), KeepsWorkers m :=
  no_request_lost_iff (run_historyOf (by decide)) (by decide)

/-- A worker that comes to a full list is forgotten. -/
theorem not_noneLost_parkedWorkers :
    Run system (historyOf (parkedWorkers 1)) (stateAfter (parkedWorkers 1)) ∧
    ¬ NoneLost (historyOf (parkedWorkers 1)) (stateAfter (parkedWorkers 1)) := by
  refine ⟨run_historyOf (by decide), fun hn => ?_⟩
  obtain ⟨-, -, h⟩ := hn (historyOf (parkedWorkers 1))[3] (List.getElem_mem _) 3
    ⟨_, _, rfl, rfl, by decide⟩
  exact absurd h (by decide)

end Sample

end NixSrv.JobQueue
