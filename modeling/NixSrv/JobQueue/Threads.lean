import Mathlib.Data.Fin.Basic
import NixSrv.JobQueue.Spec

/-!
# Concurrent handlers

The handlers of `nix::module::JobQueue` on `D` dispatcher threads. A step of a thread is one access
to data that threads share (a lookup in `queues_`, a change of it or of `workers_awaiting_`, a
member of `Queue`) or the sending of an answer, with what the handler computes before the next one.
`submit` and `get_work` look up queues and lists without the mutex, so they can see any state
between two steps of `manage`. The loops over all queues are one step each, as are a lookup in
`in_progress_` or `completed_` and the critical section after it.

* `Pc`, `Pc.step`: the places a handler can be at and what it does there;
* `Pc.iterator`, `Pc.invalidates`: the iterators handlers hold, and the steps that invalidate them;
* `Pc.holds`, `Pc.locks`: the mutex of the module;
* `Server`, `Event`, `Server.next`, **`server`**: the threads, the requests in flight and the runs;
* **`holder_unique`**: no two threads hold the mutex.
-/

namespace NixSrv.JobQueue

open Json

/-- What a thread does next. -/
inductive Pc where
  | submit (env : Env) (msg : IncomingMessage)
  | checkOpen (env : Env) (msg : IncomingMessage)
  | countWorkers (job : Job) (msg : IncomingMessage)
  | popWorker (job : Job) (msg : IncomingMessage)
  | replyWorker (job : Job) (worker : IncomingMessage)
  | pushJob (job : Job) (msg : IncomingMessage)
  | getWork (msg : IncomingMessage)
  | popJob (msg : IncomingMessage)
  | replyWork (job : Job) (msg : IncomingMessage)
  | register (job : Job)
  | park (msg : IncomingMessage)
  | setProgress (msg : IncomingMessage)
  | setResult (env : Env) (msg : IncomingMessage)
  | acknowledge (msg : IncomingMessage)
  | getResult (msg : IncomingMessage)
  | clearAll (msg : IncomingMessage)
  | removeAll (msg : IncomingMessage)
  | emptyAll (msg : IncomingMessage)
  | eraseAll (msg : IncomingMessage)
  | switchAll (msg : IncomingMessage)
  | findQueue (msg : IncomingMessage)
  | createQueue (msg : IncomingMessage)
  | createList (msg : IncomingMessage)
  | manageQueue (msg : IncomingMessage)
  | clearQueue (msg : IncomingMessage)
  | closeQueue (msg : IncomingMessage)
  | emptyQueue (msg : IncomingMessage)
  | eraseQueue (msg : IncomingMessage)
  | status (msg : IncomingMessage)
  | answer (a : Sent)

/-- A dispatcher thread. -/
inductive Thread where
  | idle
  | running (pc : Pc)
  /-- Blocked in `Queue::pop`. -/
  | waiting (pc : Pc)
  /-- An exception has left the handler. -/
  | thrown
  /-- A null pointer or an invalid iterator was dereferenced. -/
  | undefined

/-- The handler a thread is in and where it is. -/
def Thread.pc : Thread → Option Pc
  | .running pc | .waiting pc => some pc
  | .idle | .thrown | .undefined => none

/-- What a step of a thread leaves. -/
structure Stepped where
  state : JobQueue
  thread : Thread
  sent : List Sent := []

section Threads

variable [Jsoncpp]

/-- The capacity `init_queue` gives the queue it creates for the request. -/
def sizeOf (msg : IncomingMessage) : ℕ :=
  let size := toSizeT (msg.getInt "create.size" 0)
  if size ≠ 0 then size else defaultQueueSize

/-- The request enables, clears or removes the queue it names. -/
def touches (msg : IncomingMessage) : Bool := !msg.isNull "enable" || clears msg || removes msg

/-- `manage` does `f` to the queue it has found; it needs the queue when `needed` holds. -/
def onQueue (jq : JobQueue) (msg : IncomingMessage) (needed : Bool) (f : Queue Job → Queue Job)
    (next : Pc) : Stepped :=
  match jq.queues.lookup (queueOf msg) with
  | some queue =>
    ⟨{ jq with queues := jq.queues.insert (queueOf msg) (f queue) }, .running next, []⟩
  | none => ⟨jq, if needed then .undefined else .running next, []⟩

/-- Where the handler of a request begins. -/
def Pc.start (r : Request) : Pc :=
  match r.handler with
  | .submit => .submit r.env r.msg
  | .getWork => .getWork r.msg
  | .setProgress => .setProgress r.msg
  | .setResult => .setResult r.env r.msg
  | .getResult => .getResult r.msg
  | .manage => .clearAll r.msg
  | .status => .status r.msg

/-- One step of a thread. -/
def Pc.step (jq : JobQueue) : Pc → Stepped
  -- submit
  | .submit env msg =>
    match jq.queues.lookup (moduleOf msg) with
    | none =>
      ⟨jq, .running (.answer (msg.fail .fail ("No queue for module: " ++ moduleOf msg))), []⟩
    | some _ => ⟨jq, .running (.checkOpen env msg), []⟩
  | .checkOpen env msg =>
    match jq.queues.lookup (moduleOf msg) with
    | none => ⟨jq, .undefined, []⟩
    | some queue =>
      if queue.isClosed then ⟨jq, .running (.answer (msg.fail .fail "Queue closed")), []⟩
      else if ¬ ValidSubmit msg then ⟨jq, .running (.answer (msg.fail .dataInvalidContent)), []⟩
      else ⟨jq, .running (.countWorkers (Job.ofMessage env msg.toMessage) msg), []⟩
  | .countWorkers job msg =>
    match jq.workersAwaiting.lookup (moduleOf msg) with
    | none => ⟨jq, .undefined, []⟩
    | some awaiting =>
      if awaiting.size ≠ 0 then ⟨jq, .running (.popWorker job msg), []⟩
      else ⟨jq, .running (.pushJob job msg), []⟩
  | .popWorker job msg =>
    match jq.workersAwaiting.lookup (moduleOf msg) with
    | none => ⟨jq, .undefined, []⟩
    | some awaiting =>
      match awaiting.pop with
      | .item worker rest =>
        ⟨{ jq with workersAwaiting := jq.workersAwaiting.insert (moduleOf msg) rest },
          .running (.replyWorker job worker), []⟩
      | .closed => ⟨jq, .undefined, []⟩
      | .waits => ⟨jq, .waiting (.popWorker job msg), []⟩
  | .replyWorker job worker => ⟨jq, .idle, [worker.reply job.toDocument]⟩
  | .pushJob job msg =>
    match jq.queues.lookup (moduleOf msg) with
    | none => ⟨jq, .undefined, []⟩
    | some queue =>
      let (queue, success) := queue.push job
      if ¬ success then ⟨jq, .running (.answer (msg.fail .tempLimitReached "Queue full")), []⟩
      else ⟨{ jq with queues := jq.queues.insert (moduleOf msg) queue },
        .running (.answer (accepted msg job)), []⟩
  -- get_work
  | .getWork msg =>
    match jq.queues.lookup (moduleOf msg) with
    | none =>
      ⟨jq, .running (.answer (msg.fail .fail ("No queue for module: " ++ moduleOf msg))), []⟩
    | some _ => ⟨jq, .running (.popJob msg), []⟩
  | .popJob msg =>
    match jq.queues.lookup (moduleOf msg) with
    | none => ⟨jq, .undefined, []⟩
    | some queue =>
      match queue.pop with
      | .item job rest =>
        ⟨{ jq with queues := jq.queues.insert (moduleOf msg) rest },
          .running (.replyWork job msg), []⟩
      | .closed => ⟨jq, .running (.park msg), []⟩
      | .waits => ⟨jq, .waiting (.popJob msg), []⟩
  | .replyWork job msg => ⟨jq, .running (.register job), [msg.reply job.toDocument]⟩
  | .register job => ⟨{ jq with inProgress := jq.inProgress.insert job.id job }, .idle, []⟩
  | .park msg =>
    match jq.workersAwaiting.lookup (moduleOf msg) with
    | none => ⟨jq, .undefined, []⟩
    | some awaiting => ⟨{ jq with
        workersAwaiting := jq.workersAwaiting.insert (moduleOf msg) (awaiting.push msg).1 },
        .idle, []⟩
  -- set_progress, set_result and get_result
  | .setProgress msg => ⟨(jq.setProgress msg).state, .idle, (jq.setProgress msg).sent⟩
  | .setResult env msg =>
    if jobIdOf msg = "" then ⟨jq, .running (.answer (msg.fail .nullValue)), []⟩
    else ⟨(jq.setResult env msg).state, .running (.acknowledge msg), []⟩
  | .acknowledge msg => ⟨jq, .idle, [msg.replyEmpty]⟩
  | .getResult msg => ⟨(jq.getResult msg).state, .idle, (jq.getResult msg).sent⟩
  -- manage
  | .clearAll msg => ⟨if msg.getBool "clear_all" false then jq.clearAll else jq,
      .running (.removeAll msg), []⟩
  | .removeAll msg =>
    if msg.getBool "remove_all" false then ⟨jq.switchAll false, .running (.emptyAll msg), []⟩
    else ⟨jq, .running (.switchAll msg), []⟩
  | .emptyAll msg => ⟨jq.clearAll, .running (.eraseAll msg), []⟩
  | .eraseAll msg => ⟨{ jq with queues := ∅ }, .running (.switchAll msg), []⟩
  | .switchAll msg =>
    ⟨if !msg.isNull "switch_all" then jq.switchAll (msg.getBool "switch_all" true) else jq,
      .running (.findQueue msg), []⟩
  | .findQueue msg =>
    if Creates msg then
      -- the test of `init_queue`, before it takes the mutex
      if queueOf msg ∈ jq.queues then ⟨jq, .running (.answer
        (msg.fail .fail "Failed to create queue. Already exists?")), []⟩
      else ⟨jq, .running (.createQueue msg), []⟩
    else match jq.queues.lookup (queueOf msg) with
    | some _ => ⟨jq, .running (.manageQueue msg), []⟩
    | none =>
      if anyAllAction msg then ⟨jq, .idle, []⟩
      else ⟨jq, .running (.answer (msg.fail .nullValue)), []⟩
  | .createQueue msg =>
    ⟨{ jq with queues := Map.emplace (queueOf msg) (.new (sizeOf msg)) jq.queues },
      .running (.createList msg), []⟩
  | .createList msg =>
    ⟨{ jq with
        workersAwaiting := Map.emplace (queueOf msg) (.new (sizeOf msg)) jq.workersAwaiting },
      .running (.answer msg.replyEmpty), []⟩
  | .manageQueue msg => onQueue jq msg (touches msg)
      (fun q => if !msg.isNull "enable" then q.setEnabled (msg.getBool "enable" true) else q)
      (.clearQueue msg)
  | .clearQueue msg => onQueue jq msg (clears msg || removes msg)
      (fun q => if clears msg then q.clear else q)
      (if removes msg then .closeQueue msg else .answer msg.replyEmpty)
  | .closeQueue msg => onQueue jq msg true (·.setEnabled false) (.emptyQueue msg)
  | .emptyQueue msg => onQueue jq msg true Queue.clear (.eraseQueue msg)
  | .eraseQueue msg =>
    match jq.queues.lookup (queueOf msg) with
    | some _ =>
      ⟨{ jq with queues := jq.queues.erase (queueOf msg) }, .running (.answer msg.replyEmpty), []⟩
    | none => ⟨jq, .undefined, []⟩
  -- status
  | .status msg =>
    match jq.statusDocument with
    | .ok out => ⟨jq, .running (.answer (msg.reply out)), []⟩
    | .error _ => ⟨jq, .thrown, []⟩
  | .answer a => ⟨jq, .idle, [a]⟩

/-! ## Iterators to queues -/

/-- The queue the handler has an iterator to and is going to use it. -/
def Pc.iterator : Pc → Option String
  | .checkOpen _ msg | .countWorkers _ msg | .popWorker _ msg | .pushJob _ msg | .popJob msg
  | .park msg => some (moduleOf msg)
  | .manageQueue msg => if touches msg then some (queueOf msg) else none
  | .clearQueue msg => if clears msg || removes msg then some (queueOf msg) else none
  | .closeQueue msg | .emptyQueue msg | .eraseQueue msg => some (queueOf msg)
  | _ => none

def Thread.iterator : Thread → Option String
  | .running pc => pc.iterator
  -- the iterator is used again when `pop` returns
  | .waiting (.popJob msg) => some (moduleOf msg)
  | _ => none

/-- The step erases the queue `name`. -/
def Pc.erases (name : String) : Pc → Bool
  | .eraseAll _ => true
  | .eraseQueue msg => decide (name = queueOf msg)
  | _ => false

/-- The step inserts a queue that is not there. -/
def Pc.inserts (jq : JobQueue) : Pc → Bool
  | .createQueue msg => decide (queueOf msg ∉ jq.queues)
  | _ => false

/-- The step makes iterators to the queue `name` invalid: it erases the queue, or inserts another
one so that `queues_` is rehashed. -/
def Pc.invalidates (jq : JobQueue) (rehash : Bool) (name : String) (pc : Pc) : Bool :=
  pc.erases name || rehash && pc.inserts jq

/-- What another thread's step leaves of a thread. -/
def Thread.beside (th : Thread) (invalid : String → Bool) : Thread :=
  match th.iterator with
  | some name => if invalid name then .undefined else th
  | none => th

/-! ## The mutex -/

/-- The handler is inside a critical section. -/
def Pc.holds : Pc → Bool
  | .emptyAll _ | .eraseAll _ | .createList _ | .clearQueue _ | .closeQueue _ | .emptyQueue _
  | .eraseQueue _ => true
  | _ => false

/-- The step begins with taking the mutex. -/
def Pc.locks (jq : JobQueue) : Pc → Bool
  | .register _ | .createQueue _ | .manageQueue _ | .status _ => true
  | .setProgress msg => decide (jobIdOf msg ∈ jq.inProgress)
  | .setResult _ msg => decide (jobIdOf msg ≠ "")
  | .getResult msg =>
    match jq.completed.lookup (jobIdOf msg) with
    | some job => decide (job.apiKey = keyOf msg)
    | none => decide (jobIdOf msg ∈ jq.inProgress)
  | .removeAll msg => msg.getBool "remove_all" false
  | _ => false

def Thread.holds (th : Thread) : Bool := th.pc.elim false Pc.holds

/-! ## The server -/

/-- The module, the dispatcher threads and the requests that are not yet delivered to one. -/
structure Server (D : ℕ) where
  jq : JobQueue
  threads : Fin D → Thread
  incoming : List Request := []

inductive Event (D : ℕ) where
  | arrive (r : Request)
  /-- The `i`-th request in flight is delivered to a thread that is free. -/
  | dispatch (t : Fin D) (i : ℕ)
  /-- A thread makes a step. One that waits looks at its queue again. A queue that is inserted has
  `queues_` rehashed or not. -/
  | run (t : Fin D) (rehash : Bool := false)

/-- The thread that makes the step. -/
def Event.thread {D : ℕ} : Event D → Option (Fin D)
  | .run t _ => some t
  | .arrive _ | .dispatch _ _ => none

def Thread.isFree : Thread → Bool
  | .idle | .thrown => true
  | _ => false

variable {D : ℕ}

namespace Server

/-- Thread `t` makes the step at `pc`. -/
def afterStep (s : Server D) (t : Fin D) (pc : Pc) (rehash : Bool) : Server D where
  jq := (pc.step s.jq).state
  threads u :=
    if u = t then (pc.step s.jq).thread
    else (s.threads u).beside fun name => pc.invalidates s.jq rehash name
  incoming := s.incoming

/-- The step at `pc` has to wait for the mutex, which another thread holds. -/
def LockedOut (s : Server D) (t : Fin D) (pc : Pc) : Prop :=
  pc.locks s.jq = true ∧ ∃ u ≠ t, (s.threads u).holds = true

instance (s : Server D) (t : Fin D) (pc : Pc) : Decidable (s.LockedOut t pc) := by
  unfold LockedOut; infer_instance

/-- Thread `t` begins with the request `r`, the `i`-th in flight. -/
def afterDispatch (s : Server D) (t : Fin D) (i : ℕ) (r : Request) : Server D where
  jq := s.jq
  threads u := if u = t then .running (.start r) else s.threads u
  incoming := s.incoming.eraseIdx i

def next (s : Server D) : Event D → Option (Server D)
  | .arrive r => some { s with incoming := s.incoming ++ [r] }
  | .dispatch t i =>
    match s.incoming[i]? with
    | some r => if (s.threads t).isFree then some (s.afterDispatch t i r) else none
    | none => none
  | .run t rehash =>
    match (s.threads t).pc with
    | some pc => if s.LockedOut t pc then none else some (s.afterStep t pc rehash)
    | none => none

/-- The server after start-up with the queues of the configuration. -/
def start (D : ℕ) (config : List (String × ℕ)) : Server D where
  jq := config.foldl (fun jq inst => (jq.initQueue inst.1 inst.2).1) {}
  threads _ := .idle

end Server

/-- **The server as a transition system**: any number of requests, delivered in any order, and the
steps of the threads interleaved in any way. -/
def server (D : ℕ) (config : List (String × ℕ)) : Transition.System (Server D) (Event D) :=
  .ofNext (.start D config) Server.next

namespace Server

/-- A step of a run of the server. -/
abbrev Move (D : ℕ) := Transition.Move (Server D) (Event D)

/-- The place at which a thread makes the step, none for an arrival or a delivery. -/
def pcOf (m : Move D) : Option Pc :=
  match m.event with
  | .run t _ => (m.pre.threads t).pc
  | _ => none

/-- What a step of the server can be. -/
inductive StepCase (s : Server D) (e : Event D) (s' : Server D) : Prop
  | arrived (r : Request) (he : e = .arrive r)
      (h : s' = { s with incoming := s.incoming ++ [r] })
  | dispatched (t : Fin D) (i : ℕ) (r : Request) (he : e = .dispatch t i)
      (hr : s.incoming[i]? = some r) (hf : (s.threads t).isFree = true)
      (h : s' = s.afterDispatch t i r)
  | ran (t : Fin D) (rehash : Bool) (pc : Pc) (he : e = .run t rehash)
      (hp : (s.threads t).pc = some pc) (hl : ¬ s.LockedOut t pc)
      (h : s' = s.afterStep t pc rehash)

/-- **What a step of the server does.** -/
theorem step_cases {config : List (String × ℕ)} {s s' : Server D} {e : Event D}
    (h : (server D config).step s e s') : StepCase s e s' := by
  change s.next e = some s' at h
  cases e with
  | arrive r => exact .arrived r rfl (Option.some.inj h).symm
  | dispatch t i =>
    simp only [next] at h
    cases hr : s.incoming[i]? with
    | none => rw [hr] at h; cases h
    | some r =>
      rw [hr] at h
      simp only at h
      split_ifs at h with hf
      exact .dispatched t i r rfl hr hf (Option.some.inj h).symm
  | run t rehash =>
    simp only [next] at h
    cases hp : (s.threads t).pc with
    | none => rw [hp] at h; cases h
    | some pc =>
      rw [hp] at h
      simp only at h
      split_ifs at h with hl
      exact .ran t rehash pc rfl hp hl (Option.some.inj h).symm

theorem beside_cases (th : Thread) (invalid : String → Bool) :
    th.beside invalid = th ∨ th.beside invalid = .undefined := by
  unfold Thread.beside
  split
  · split_ifs
    · exact Or.inr rfl
    · exact Or.inl rfl
  · exact Or.inl rfl

/-- What another thread is about to do is unchanged, or it does nothing any more. -/
theorem threads_afterStep (s : Server D) {t u : Fin D} (pc : Pc) (rehash : Bool) (hu : u ≠ t) :
    (s.afterStep t pc rehash).threads u = s.threads u ∨
      (s.afterStep t pc rehash).threads u = .undefined := by
  have he : (s.afterStep t pc rehash).threads u =
      (s.threads u).beside fun name => pc.invalidates s.jq rehash name := if_neg hu
  rw [he]
  exact beside_cases _ _

/-! ## One holder of the mutex -/

/-- A step that leaves its handler inside a critical section was inside it, or enters it. -/
theorem holds_step {jq : JobQueue} {pc : Pc} (h : (pc.step jq).thread.holds = true) :
    pc.holds = true ∨ pc.locks jq = true := by
  cases pc with
  | emptyAll | eraseAll | createList | clearQueue | closeQueue | emptyQueue | eraseQueue =>
    exact Or.inl rfl
  | register | createQueue | manageQueue | status => exact Or.inr rfl
  | removeAll msg =>
    simp only [Pc.step] at h
    split_ifs at h with hr
    · exact Or.inr hr
    · cases h
  | submit | checkOpen | countWorkers | popWorker | replyWorker | pushJob | getWork | popJob
  | replyWork | park | setProgress | setResult | acknowledge | getResult | clearAll | switchAll
  | findQueue | answer =>
    simp only [Pc.step] at h
    repeat' split at h
    all_goals cases h

omit [Jsoncpp] in
theorem holds_start (r : Request) : (Thread.running (.start r)).holds = false := by
  obtain ⟨handler, env, msg⟩ := r
  cases handler <;> rfl

/-- A thread inside a critical section after a step was so before, or the step was its own. -/
theorem holds_afterStep {s : Server D} {t u : Fin D} {pc : Pc} {rehash : Bool}
    (h : ((s.afterStep t pc rehash).threads u).holds = true) (hu : u ≠ t) :
    (s.threads u).holds = true := by
  rcases threads_afterStep s pc rehash hu with he | he
  · rwa [he] at h
  · rw [he] at h
    cases h

/-- **No two threads are inside a critical section**, in any state of any run. -/
theorem holder_unique {config : List (String × ℕ)} {tr : List (Move D)} {s : Server D}
    (hr : Transition.Run (server D config) tr s) :
    ∀ t u, (s.threads t).holds = true → (s.threads u).holds = true → t = u := by
  refine hr.state_invariant (I := fun s => ∀ t u, (s.threads t).holds = true →
    (s.threads u).holds = true → t = u) ?_ ?_
  · rintro s rfl t u ht
    cases ht
  rintro s e s' hs hstep t' u' ht hu
  cases step_cases hstep with
  | arrived r he h =>
    subst h
    exact hs t' u' ht hu
  | dispatched t i r he hr hf h =>
    subst h
    -- the thread that begins with the request holds nothing
    have hold : ∀ v, ((s.afterDispatch t i r).threads v).holds = true →
        (s.threads v).holds = true := by
      intro v hv
      by_cases hvt : v = t
      · have hth : (s.afterDispatch t i r).threads v = .running (.start r) := if_pos hvt
        rw [hth, holds_start] at hv
        cases hv
      · have hth : (s.afterDispatch t i r).threads v = s.threads v := if_neg hvt
        rwa [hth] at hv
    exact hs t' u' (hold t' ht) (hold u' hu)
  | ran t rehash pc he hp hl h =>
    subst h
    have hself : ((s.afterStep t pc rehash).threads t).holds = true →
        ∀ v ≠ t, (s.threads v).holds = true → False := by
      intro hh v hv hvh
      have hth : (s.afterStep t pc rehash).threads t = (pc.step s.jq).thread := if_pos rfl
      rw [hth] at hh
      rcases holds_step hh with hpc | hlock
      · refine hv (hs v t hvh ?_)
        rw [Thread.holds, hp]
        exact hpc
      · exact hl ⟨hlock, v, hv, hvh⟩
    by_cases ht' : t' = t <;> by_cases hu' : u' = t
    · exact ht'.trans hu'.symm
    · subst ht'
      exact (hself ht u' hu' (holds_afterStep hu hu')).elim
    · subst hu'
      exact (hself hu t' ht' (holds_afterStep ht ht')).elim
    · exact hs t' u' (holds_afterStep ht ht') (holds_afterStep hu hu')

/-! ## Runs on given events -/

/-- The run on a list of events, and the state after it. -/
def traceOf (D : ℕ) (config : List (String × ℕ)) (events : List (Event D)) :
    List (Move D) × Server D :=
  Transition.traceOf next (.start D config) events

theorem run_traceOf {config : List (String × ℕ)} {events : List (Event D)}
    (h : (Transition.trace next (.start D config) events).isSome = true) :
    Transition.Run (server D config) (traceOf D config events).1 (traceOf D config events).2 :=
  Transition.run_traceOf h

/-- The request arrives, is delivered to the thread at once, and the thread makes `n` steps. -/
def serve (t : Fin D) (r : Request) (n : ℕ) : List (Event D) :=
  [.arrive r, .dispatch t 0] ++ List.replicate n (.run t)

end Server

end Threads

end NixSrv.JobQueue
