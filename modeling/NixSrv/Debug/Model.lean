import NixSrv.Message
import NixSrv.Queue.Calls

/-!
# `nix::module::Debug`

The module answers `debug_sync` at once. The handler of `debug_async` pushes its message on a queue
of five, which two workers pop from. The threads are `D` dispatchers, the workers and the main
thread, which calls `stop`; a step is one of a call of the queue, or the code between two calls.

* `Stage`, `Debug`, `Event`: where a thread is between calls, states and events;
* `Debug.own`, `Debug.exec`: the code between calls, one step with the answers it sends;
* **`system`**: the module from the end of `start` on;
* `StepCase`, **`step_cases`**: everything a step can be;
* **`projects`**: the queue of the module is one that is shared by its threads.
-/

namespace NixSrv

open Transition

namespace Debug

/-- The capacity of the queue. -/
def queueSize : ℕ := 5

def workers : ℕ := 2

/-- What a thread is for. -/
inductive Role where
  | dispatcher
  | worker
  | main
  deriving DecidableEq, Repr

abbrev Thread (D : ℕ) := Fin (D + workers + 1)

def role {D : ℕ} (t : Thread D) : Role :=
  if t.val < D then .dispatcher else if t.val < D + workers then .worker else .main

abbrev mainThread (D : ℕ) : Thread D := Fin.last (D + workers)

/-- The thread of worker `i`. -/
def workerThread (D : ℕ) (i : Fin workers) : Thread D := ⟨D + i, by omega⟩

/-- Where a thread is. -/
inductive Stage where
  /-- A dispatcher without a message, a worker before the test of its loop, or the main thread
  before `stop`. -/
  | free
  /-- In a call of the queue or with the result of one. -/
  | calling
  /-- A worker that has returned, or the main thread after `stop`. -/
  | ended
  deriving DecidableEq, Repr

end Debug

/-- `q_` with the calls of the threads, and the stages of the threads. -/
structure Debug (D : ℕ) where
  q : Queue.Shared (D + Debug.workers + 1) IncomingMessage
  stages : Debug.Thread D → Debug.Stage

namespace Debug

variable {D : ℕ}

inductive Event (D : ℕ) where
  | debugSync (t : Thread D) (msg : IncomingMessage)
  | debugAsync (t : Thread D) (msg : IncomingMessage)
  | stop
  /-- A step inside a call of the queue. -/
  | inside (e : Queue.Event (D + workers + 1) IncomingMessage)
  /-- Thread `t` runs the code between two calls. -/
  | own (t : Thread D)

variable (d : Debug D)

def put (t : Thread D) (stage : Stage) : Debug D :=
  { d with stages := Function.update d.stages t stage }

/-- Thread `t` calls a member of the queue. -/
def call (t : Thread D) (op : Queue.Op IncomingMessage) : Option (Debug D) :=
  (d.q.next (.call t op)).map fun q => { d.put t .calling with q }

/-- Thread `t` has called a member of the queue. -/
def enter (t : Thread D) (op : Queue.Op IncomingMessage) : Debug D :=
  { d.put t .calling with q := d.q.goto t op.start }

/-- Dispatcher `t` can take a message. After `stop` none arrives, as `q_` has been reset. -/
def Serves (t : Thread D) : Prop :=
  role t = .dispatcher ∧ d.stages t = .free ∧ d.stages (mainThread D) ≠ .ended

instance (t : Thread D) : Decidable (d.Serves t) := by unfold Serves; infer_instance

/-- `process`. How long it sleeps is left out. -/
def process (msg : IncomingMessage) : Sent := msg.replyEmpty

/-- The end of `debug_async`. -/
def pushEnd (elem : Option IncomingMessage) (success : Bool) : List Sent :=
  if success then []
  else (elem.map fun msg =>
    msg.reject .tempLimitReached "Temporary failure: request queue full").toList

/-- The code of a thread between two calls, with the answers it sends. -/
def own (t : Thread D) : Option (Debug D × List Sent) :=
  match role t, d.stages t, d.q.threads t with
  | .dispatcher, .calling, .pushed elem success => some (d.put t .free, pushEnd elem success)
  | .worker, .free, _ =>
    if d.q.queue.isClosed then some (d.put t .ended, [])
    else (d.call t (.pop (-1))).map fun d' => (d', [])
  | .worker, .calling, .popped ptr => some (d.put t .free, (ptr.map process).toList)
  | .main, .calling, .out =>
    if ∀ u, role u = .worker → d.stages u = .ended then some (d.put t .ended, []) else none
  | _, _, _ => none

/-- One step, with the answers it sends. -/
def exec : Event D → Option (Debug D × List Sent)
  | .debugSync t msg => if d.Serves t then some (d, [msg.replyEmpty]) else none
  | .debugAsync t msg =>
    if d.Serves t then (d.call t (.push msg)).map fun d' => (d', []) else none
  | .stop =>
    if d.stages (mainThread D) = .free then
      (d.call (mainThread D) (.setEnabled false)).map fun d' => (d', [])
    else none
  | .inside e => if e.isCall then none else (d.q.next e).map fun q => ({ d with q }, [])
  | .own t => d.own t

def next (e : Event D) : Option (Debug D) := (d.exec e).map (·.1)

/-- The module after `start`. -/
def start (D : ℕ) : Debug D where
  q := .start (D + workers + 1) IncomingMessage queueSize
  stages _ := .free

/-- **The module after `start`, with `D` dispatchers**, whose steps and those of the workers and the
main thread are interleaved in any way. -/
def system (D : ℕ) : System (Debug D) (Event D) := .ofNext (start D) next

/-- A step of a run. -/
abbrev Move (D : ℕ) := Transition.Move (Debug D) (Event D)

/-- The answers sent in a step. -/
def sentIn (m : Move D) : List Sent := ((m.pre.exec m.event).map (·.2)).getD []

/-! ## What a step can be -/

/-- The thread that begins a call in a step, and the call. -/
inductive Begins (d : Debug D) : Event D → Thread D → Queue.Op IncomingMessage → Prop
  | debugAsync (t : Thread D) (msg : IncomingMessage) (hs : d.Serves t) :
      Begins d (.debugAsync t msg) t (.push msg)
  | stop (hs : d.stages (mainThread D) = .free) :
      Begins d .stop (mainThread D) (.setEnabled false)
  | loop (t : Thread D) (hr : role t = .worker) (hs : d.stages t = .free)
      (hc : d.q.queue.isClosed = false) : Begins d (.own t) t (.pop (-1))

/-- The thread that goes on to another stage in a step, and the answers it sends. -/
inductive Turns (d : Debug D) : Event D → Thread D → Stage → List Sent → Prop
  | pushed (t : Thread D) (elem : Option IncomingMessage) (success : Bool)
      (hr : role t = .dispatcher) (hs : d.stages t = .calling)
      (hp : d.q.threads t = .pushed elem success) :
      Turns d (.own t) t .free (pushEnd elem success)
  | popped (t : Thread D) (ptr : Option IncomingMessage) (hr : role t = .worker)
      (hs : d.stages t = .calling) (hp : d.q.threads t = .popped ptr) :
      Turns d (.own t) t .free (ptr.map process).toList
  | returned (t : Thread D) (hr : role t = .worker) (hs : d.stages t = .free)
      (hc : d.q.queue.isClosed = true) : Turns d (.own t) t .ended []
  | joined (t : Thread D) (hr : role t = .main) (hs : d.stages t = .calling)
      (hp : d.q.threads t = .out) (hw : ∀ u, role u = .worker → d.stages u = .ended) :
      Turns d (.own t) t .ended []

/-- What a step can be, with the answers it sends. -/
inductive StepCase (d : Debug D) : Event D → Debug D → List Sent → Prop
  | synced (t : Thread D) (msg : IncomingMessage) (hs : d.Serves t) :
      StepCase d (.debugSync t msg) d [msg.replyEmpty]
  | begins (e : Event D) (t : Thread D) (op : Queue.Op IncomingMessage) (hb : Begins d e t op)
      (hp : (d.q.threads t).returned = true) :
      StepCase d e (d.enter t op) []
  | turns (e : Event D) (t : Thread D) (stage : Stage) (sent : List Sent)
      (ht : Turns d e t stage sent) : StepCase d e (d.put t stage) sent
  | inside (e : Queue.Event (D + workers + 1) IncomingMessage)
      (q : Queue.Shared (D + workers + 1) IncomingMessage) (he : e.isCall = false)
      (hq : d.q.next e = some q) : StepCase d (.inside e) { d with q } []

theorem call_eq_some {t : Thread D} {op : Queue.Op IncomingMessage} {d' : Debug D}
    (h : d.call t op = some d') : (d.q.threads t).returned = true ∧
      d' = d.enter t op := by
  simp only [call, Queue.Shared.next, Option.map_eq_some_iff] at h
  obtain ⟨q, hq, rfl⟩ := h
  split_ifs at hq with hp
  cases hq
  exact ⟨hp, rfl⟩

variable {d} {d' : Debug D} {e : Event D} {sent : List Sent}

theorem own_cases {t : Thread D} (h : d.own t = some (d', sent)) :
    StepCase d (.own t) d' sent := by
  unfold own at h
  split at h
  · rename_i elem success hr hs hp
    cases h
    exact .turns _ _ _ _ (.pushed t elem success hr hs hp)
  · rename_i hr hs
    cases hc : d.q.queue.isClosed with
    | true =>
      rw [if_pos hc] at h
      cases h
      exact .turns _ _ _ _ (.returned t hr hs hc)
    | false =>
      rw [if_neg (by simp [hc]), Option.map_eq_some_iff] at h
      obtain ⟨d'', hcall, he⟩ := h
      cases he
      obtain ⟨hp, rfl⟩ := d.call_eq_some hcall
      exact .begins _ _ _ (.loop t hr hs hc) hp
  · rename_i ptr hr hs hp
    cases h
    exact .turns _ _ _ _ (.popped t ptr hr hs hp)
  · rename_i hr hs hp
    split_ifs at h with hw
    cases h
    exact .turns _ _ _ _ (.joined t hr hs hp hw)
  · cases h

theorem exec_cases (h : d.exec e = some (d', sent)) : StepCase d e d' sent := by
  cases e with
  | debugSync t msg =>
    simp only [exec] at h
    split_ifs at h with hs
    cases h
    exact .synced t msg hs
  | debugAsync t msg =>
    simp only [exec] at h
    split_ifs at h with hs
    obtain ⟨d'', hcall, he⟩ := Option.map_eq_some_iff.mp h
    cases he
    obtain ⟨hp, rfl⟩ := d.call_eq_some hcall
    exact .begins _ _ _ (.debugAsync t msg hs) hp
  | stop =>
    simp only [exec] at h
    split_ifs at h with hs
    obtain ⟨d'', hcall, he⟩ := Option.map_eq_some_iff.mp h
    cases he
    obtain ⟨hp, rfl⟩ := d.call_eq_some hcall
    exact .begins _ _ _ (.stop hs) hp
  | inside e =>
    simp only [exec] at h
    split_ifs at h with he
    obtain ⟨q, hq, he'⟩ := Option.map_eq_some_iff.mp h
    cases he'
    exact .inside e q (by simpa using he) hq
  | own t => exact own_cases h

/-- **What a step does.** -/
theorem step_cases (h : (system D).step d e d') :
    ∃ sent, sentIn ⟨d, e, d'⟩ = sent ∧ StepCase d e d' sent := by
  obtain ⟨⟨d'', sent⟩, hx, rfl⟩ := Option.map_eq_some_iff.mp (show d.next e = some d' from h)
  exact ⟨sent, by simp [sentIn, hx], exec_cases hx⟩

/-! ## The queue of the module -/

/-- The step of the queue in a step of the module. -/
def queueEvent (m : Move D) : Option (Queue.Event (D + workers + 1) IncomingMessage) :=
  match m.event with
  | .debugSync _ _ => none
  | .debugAsync t msg => some (.call t (.push msg))
  | .stop => some (.call (mainThread D) (.setEnabled false))
  | .inside e => some e
  | .own t =>
    if role t = .worker ∧ m.pre.stages t = .free ∧ m.pre.q.queue.isClosed = false then
      some (.call t (.pop (-1)))
    else none

theorem queueEvent_of_begins {t : Thread D} {op : Queue.Op IncomingMessage}
    (h : Begins d e t op) : queueEvent ⟨d, e, d'⟩ = some (.call t op) := by
  cases h with
  | debugAsync | stop => rfl
  | loop t hr hs hc => exact if_pos ⟨hr, hs, hc⟩

theorem queueEvent_of_turns {t : Thread D} {stage : Stage} (h : Turns d e t stage sent) :
    queueEvent ⟨d, e, d'⟩ = none := by
  cases h with
  | pushed t elem success hr hs hp => exact if_neg (by simp [hr])
  | popped t ptr hr hs hp => exact if_neg (by simp [hs])
  | returned t hr hs hc => exact if_neg (by simp [hc])
  | joined t hr hs hp hw => exact if_neg (by simp [hr])

/-- **The queue of the module runs as a queue shared by its threads.** -/
theorem projects (D : ℕ) : Projects (system D)
    (Queue.sharedQueue (D + workers + 1) IncomingMessage queueSize) (·.q) queueEvent where
  init d h := by
    cases h
    rfl
  step d e d' h := by
    obtain ⟨sent, -, hcase⟩ := step_cases h
    cases hcase with
    | synced => exact Or.inr ⟨rfl, rfl⟩
    | begins _ t op hb hp =>
      exact Or.inl ⟨_, queueEvent_of_begins hb, if_pos hp⟩
    | turns _ t stage _ ht => exact Or.inr ⟨queueEvent_of_turns ht, rfl⟩
    | inside e q he hq => exact Or.inl ⟨e, rfl, hq⟩

end Debug

end NixSrv
