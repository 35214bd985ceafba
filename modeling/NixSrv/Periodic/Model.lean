import Mathlib.Algebra.Ring.Int.Defs
import Mathlib.Logic.Function.Basic
import NixSrv.Lib.Transition

/-!
# Threads that work at intervals

The cleaner of the cache, the monitor of the resolver and the thread of the module manager. Such a
thread does its work, and then tries a mutex and sleeps in turn. The main thread holds the mutex
from before the thread is made until it stops it. `try_lock` fails on a mutex that is held only. A
round of work is one step, and what can go wrong inside it is left out.

* `Op`, `start`, `stop`: the statements of the main thread;
* `Pc`, `Fault`, `Spec`, `Task`: a thread, its flag and its mutex, and what is undefined;
* `Task.main`, `Task.worker`: a statement of the main thread, and a step of the thread;
* `State`, `State.next`, **`system`**: the main thread with any number of such threads;
* `ServerOptions`, `serverProgram`, **`server`**: the threads of the server.
-/

namespace NixSrv.Periodic

open Transition

/-- Who holds a mutex. -/
inductive Party where
  | main
  | worker
  deriving DecidableEq, Repr

/-- A statement of the main thread about one of the threads. -/
inductive Op where
  | setFlag (stop : Bool)
  | lock
  | spawn
  | unlock
  | join
  /-- The mutex and the thread object are destroyed. -/
  | destroy
  deriving DecidableEq, Repr

/-- `start`. -/
def start : List Op := [.setFlag false, .lock, .spawn]

/-- `stop`. -/
def stop : List Op := [.setFlag true, .unlock, .join]

/-- Where a thread is. -/
inductive Pc where
  /-- The thread object has no thread. -/
  | absent
  /-- Before the test of the flag. -/
  | test
  | work
  /-- Before the test of the inner loop. -/
  | tryLock (loops : ℤ)
  | sleep (loops : ℤ)
  /-- Before the `unlock` after the loop. -/
  | unlock
  | finished
  deriving DecidableEq, Repr

def Pc.isTryLock : Pc → Bool
  | tryLock _ => true
  | _ => false

/-- Statements about flags, mutexes, thread objects and loop counters that have no defined effect,
or that end the program. -/
inductive Fault where
  /-- A thread locks or tries a mutex that it holds. -/
  | relock
  | unlockNotHeld
  | destroyHeld
  /-- The object of a thread that is not joined is destroyed or assigned to. -/
  | joinable
  /-- There is no thread to join. -/
  | notJoinable
  /-- `loops--` at the smallest `int`. -/
  | overflow
  deriving DecidableEq, Repr

/-- What the threads differ in. -/
structure Spec where
  runInterval : ℤ
  /-- The thread unlocks the mutex after its loop. -/
  unlocks : Bool

/-- A thread, with its flag and its mutex, and how often it has worked and slept. -/
structure Task where
  stopFlag : Bool := false
  holder : Option Party := none
  pc : Pc := .absent
  rounds : ℕ := 0
  sleeps : ℕ := 0
  deriving DecidableEq, Repr

/-- A statement of the main thread; there is no step when it waits. -/
def Task.main (t : Task) : Op → Option (Except Fault Task)
  | .setFlag stop => some (.ok { t with stopFlag := stop })
  | .lock =>
    match t.holder with
    | none => some (.ok { t with holder := some .main })
    | some .main => some (.error .relock)
    | some .worker => none
  | .spawn => some (if t.pc = .absent then .ok { t with pc := .test } else .error .joinable)
  | .unlock =>
    some (if t.holder = some .main then .ok { t with holder := none } else .error .unlockNotHeld)
  | .join =>
    match t.pc with
    | .absent => some (.error .notJoinable)
    | .finished => some (.ok { t with pc := .absent })
    | _ => none
  | .destroy =>
    some (if t.pc ≠ .absent then .error .joinable
      else if t.holder ≠ none then .error .destroyHeld else .ok t)

/-- A step of the thread. -/
def Task.worker (spec : Spec) (t : Task) : Option (Except Fault Task) :=
  match t.pc with
  | .absent | .finished => none
  | .test =>
    some (.ok { t with
      pc := if t.stopFlag then (if spec.unlocks then .unlock else .finished) else .work })
  | .work => some (.ok { t with pc := .tryLock spec.runInterval, rounds := t.rounds + 1 })
  | .tryLock loops =>
    match t.holder with
    | none => some (.ok { t with holder := some .worker, pc := .test })
    | some .worker => some (.error .relock)
    | some .main =>
      some (if loops = 0 then .ok { t with pc := .test }
        else if loops = -2 ^ 31 then .error .overflow else .ok { t with pc := .sleep (loops - 1) })
  | .sleep loops => some (.ok { t with pc := .tryLock loops, sleeps := t.sleeps + 1 })
  | .unlock =>
    some (if t.holder = some .worker then .ok { t with holder := none, pc := .finished }
      else .error .unlockNotHeld)

/-- What is left of the program of the main thread, the threads, and the first fault. -/
structure State (ι : Type*) where
  program : List (ι × Op)
  tasks : ι → Task := fun _ => {}
  fault : Option (ι × Fault) := none

inductive Event (ι : Type*) where
  | main
  | worker (i : ι)
  deriving DecidableEq

/-- A step of a run. -/
abbrev Move (ι : Type*) := Transition.Move (State ι) (Event ι)

section System

variable {ι : Type*} [DecidableEq ι]

/-- What a step makes of thread `i`. -/
def State.put (s : State ι) (i : ι) (rest : List (ι × Op)) : Except Fault Task → State ι
  | .ok t => { s with program := rest, tasks := Function.update s.tasks i t }
  | .error f => { s with fault := some (i, f) }

def State.next (spec : ι → Spec) (s : State ι) (e : Event ι) : Option (State ι) :=
  if s.fault.isSome then none
  else match e with
    | .main =>
      match s.program with
      | [] => none
      | (i, op) :: rest => ((s.tasks i).main op).map (s.put i rest)
    | .worker i => ((s.tasks i).worker (spec i)).map (s.put i s.program)

/-- **The main thread with its program, and the threads**, whose steps are interleaved in any way.
-/
def system (spec : ι → Spec) (program : List (ι × Op)) : System (State ι) (Event ι) :=
  .ofNext { program } (State.next spec)

/-- No thread can make a step. -/
def State.Stuck (spec : ι → Spec) (s : State ι) : Prop := ∀ e, s.next spec e = none

end System

/-! ## The threads of the server -/

inductive Thread where
  | monitor
  | cleaner
  | manager
  deriving DecidableEq, Repr

/-- The options for the threads of a server with a resolver and a cache. -/
structure ServerOptions where
  resolverMonitorEnabled : Bool := false
  resolverMonitorRunInterval : ℤ := 60
  cacheCleanerEnabled : Bool := false
  cacheCleanerRunInterval : ℤ := 60
  managerThreadEnabled : Bool := false
  managerThreadRunInterval : ℤ := 120

namespace ServerOptions

variable (o : ServerOptions)

def enabled : Thread → Bool
  | .monitor => o.resolverMonitorEnabled
  | .cleaner => o.cacheCleanerEnabled
  | .manager => o.managerThreadEnabled

def spec : Thread → Spec
  | .monitor => ⟨o.resolverMonitorRunInterval, true⟩
  | .cleaner => ⟨o.cacheCleanerRunInterval, true⟩
  | .manager => ⟨o.managerThreadRunInterval, false⟩

/-- Statements about a thread, if it is enabled. -/
def whenEnabled (i : Thread) (ops : List Op) : List (Thread × Op) :=
  if o.enabled i then ops.map (i, ·) else []

/-- `start_all` and `start_manager_thread`, and then the destructor of the module manager. -/
def serverProgram : List (Thread × Op) :=
  o.whenEnabled .monitor start ++ o.whenEnabled .cleaner start ++ o.whenEnabled .manager start ++
    (o.whenEnabled .monitor stop ++ o.whenEnabled .cleaner stop ++
      [(.monitor, .destroy), (.cleaner, .destroy)]) ++
    (o.whenEnabled .manager stop ++ [(.manager, .destroy)])

/-- `main` when `Server::start` throws: the thread of the module manager is not started, and the
destructor of the module manager stops it. -/
def failedProgram : List (Thread × Op) :=
  o.whenEnabled .monitor start ++ o.whenEnabled .cleaner start ++
    (o.whenEnabled .monitor stop ++ o.whenEnabled .cleaner stop ++
      [(.monitor, .destroy), (.cleaner, .destroy)]) ++
    (o.whenEnabled .manager stop ++ [(.manager, .destroy)])

/-- **The server from its start to its end.** -/
abbrev server : System (State Thread) (Event Thread) := system o.spec o.serverProgram

end ServerOptions

end NixSrv.Periodic
