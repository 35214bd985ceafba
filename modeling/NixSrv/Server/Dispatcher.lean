import Mathlib.Data.String.Basic
import NixSrv.Auth
import NixSrv.Lib.OrderedSet
import NixSrv.ReadBack
import NixSrv.Response

/-!
# The dispatcher of the server

`nix::server::Dispatcher` with messages dispatched one at a time. What a handler of a module does
with a request is part of the message.

* `Route`, `ServerStats`, `Dispatcher`, `Dispatcher.new`: the tables;
* `addRoute`, `addRoutes`: what registers a module;
* `serverStatus`: the route of the dispatcher itself, which may reset the counters;
* `dispatch`: `operator()`;
* `Event`, **`system`**: runs.
-/

namespace NixSrv

open Json

/-- `Route::ProcessingType_t`. -/
inductive ProcessingType where
  | void
  | sync
  | async
  | future
  | publish
  deriving DecidableEq, Repr

def ProcessingType.toInt : ProcessingType → ℤ
  | void => 0
  | sync => 1
  | async => 2
  | future => 3
  | publish => 4

def AccessModifier.toInt : AccessModifier → ℤ
  | any => 0
  | public_ => 1
  | apiPrivate => 2
  | admin => 3

/-- What a route is bound to; `H` are the handlers of modules. -/
inductive Target (H : Type*) where
  | serverStatus
  | module (handler : H)
  deriving DecidableEq

structure Route (H : Type*) where
  route : String
  handler : Target H
  am : AccessModifier := .apiPrivate
  processingType : ProcessingType := .sync
  description : String := ""
  deriving DecidableEq

structure ServerStats where
  requests : ℕ := 0
  authErrors : ℕ := 0
  unroutable : ℕ := 0
  rejected : ℕ := 0

namespace Server

structure Options where
  nodename : String
  developmentMode : Bool
  startTime : ℤ

structure Dispatcher (H : Type*) where
  routing : Map String (Route H) := ∅
  auth : Auth
  options : Options
  stats : ServerStats := {}
  statsByModule : Map String ServerStats := ∅

/-- The field `message` of a request. -/
inductive Payload where
  | absent
  | empty
  | json (v : Value)
  /-- No text, or one that does not parse, for which `get_string` or `parse` throws. -/
  | malformed

/-- The root of the message built from a payload. -/
def Payload.root? : Payload → Option Value
  | absent | empty => some (.object [])
  | json v => some v
  | malformed => none

/-- What a handler of a module does with a request. -/
structure Handling where
  sent : List Delivery := []
  throws : Bool := false

/-- A message with the clock reading of its dispatch and what a handler does with it. -/
structure Incoming where
  objectName : String
  messageName : String
  payload : Payload
  now : ℤ := 0
  handling : Handling := {}

/-- What a dispatch comes to. -/
structure Dispatched (H : Type*) where
  state : Dispatcher H
  ran : Option (Target H) := none
  sent : List Delivery := []
  ending : Ending := .returned

namespace Dispatcher

variable {H : Type*} (d : Dispatcher H)

def fullRoute (module route : String) : String := module ++ "::" ++ route

def addRoute (module : String) (route : Route H) : Dispatcher H :=
  { d with
    routing := Map.emplace (fullRoute module route.route) route d.routing
    statsByModule := Map.emplace module {} d.statsByModule }

def addRoutes (module : String) (routes : List (Route H)) : Dispatcher H :=
  routes.foldl (fun d route => d.addRoute module route) d

def builtinStatusObjectName : String := "Status"

def serverStatusRoute (H : Type*) : Route H where
  route := "status"
  handler := .serverStatus
  am := .apiPrivate
  processingType := .sync

/-- The constructor. -/
def new (H : Type*) (options : Options) : Dispatcher H :=
  addRoute { auth := .new options.developmentMode, options } builtinStatusObjectName
    (serverStatusRoute H)

def countRequest : Dispatcher H :=
  { d with stats := { d.stats with requests := d.stats.requests + 1 } }

def countUnroutable (module : String) : Dispatcher H :=
  { d with
    stats := { d.stats with unroutable := d.stats.unroutable + 1 }
    statsByModule := Map.modify module
      (fun stats => { stats with unroutable := stats.unroutable + 1 }) d.statsByModule }

def countModuleRequest (module : String) : Dispatcher H :=
  { d with
    statsByModule := Map.modify module
      (fun stats => { stats with requests := stats.requests + 1 }) d.statsByModule }

def countAuthError (module : String) : Dispatcher H :=
  { d with
    stats := { d.stats with authErrors := d.stats.authErrors + 1 }
    statsByModule := Map.modify module
      (fun stats => { stats with authErrors := stats.authErrors + 1 }) d.statsByModule }

/-! ## The status of the server -/

/-- The calls of `set` for a record of counters. -/
def statsFields (key : String) (stats : ServerStats) : List (String × Value) :=
  [(key ++ ".requests", .int stats.requests), (key ++ ".auth_errors", .int stats.authErrors),
    (key ++ ".unroutable", .int stats.unroutable), (key ++ ".rejected", .int stats.rejected)]

/-- The calls of `set` for a route. -/
def routeFields (fullRoute : String) (route : Route H) : List (String × Value) :=
  let routeKey := "server.routing." ++ fullRoute
  [(routeKey ++ ".access_modifier", .int route.am.toInt),
    (routeKey ++ ".processing_type", .int route.processingType.toInt),
    (routeKey ++ ".description", .string route.description)]

/-- The routes in the order of `std::map`. -/
def sortedRouting : List (Sigma fun _ : String => Route H) :=
  d.routing.entries.insertionSort fun a b => a.1 ≤ b.1

/-- The calls of `set` that `server_status` makes. -/
def statusFields (msg : Message) (now : ℤ) : List (String × Value) :=
  let full := msg.getBool "full" false
  ("nodename", .string d.options.nodename) ::
    (if full || msg.getBool "server" false then
      [("server.uptime", .int (toCInt (now - d.options.startTime)))] else []) ++
    (if full || msg.getBool "stats" false then statsFields "stats" d.stats else []) ++
    (if full || msg.getBool "module_stats" false then
      d.statsByModule.entries.flatMap fun it => statsFields ("stats." ++ it.1) it.2 else []) ++
    (if full || msg.getBool "routing" false then
      d.sortedRouting.flatMap fun it => routeFields it.1 it.2 else [])

/-- All counters are set to zero. -/
def resetStats : Dispatcher H :=
  { d with stats := {}, statsByModule := Map.mapVal (fun _ => {}) d.statsByModule }

def serverStatus (msg : Message) (now : ℤ) : Dispatched H :=
  match (d.statusFields msg now).foldlM (fun out it => Members.set out it.1 it.2) [] with
  | .error e => { state := d, ran := some .serverStatus, ending := e.ending }
  | .ok out =>
    { state := if msg.getBool "reset" false then d.resetStats else d
      ran := some .serverStatus
      sent := [.replied (some (.object (out.setStatusCode .ok)))] }

/-! ## Dispatching -/

/-- `handle` of a route. -/
def runHandler (r : Incoming) (msg : Message) : Target H → Dispatched H
  | .serverStatus => d.serverStatus msg r.now
  | .module handler =>
    { state := d
      ran := some (.module handler)
      sent := r.handling.sent
      ending := if r.handling.throws then .thrown else .returned }

variable [Jsoncpp]

/-- The part of `operator()` from the construction of the message on. -/
def dispatchTo (route : Route H) (r : Incoming) : Dispatched H :=
  match r.payload.root? with
  | none => { state := d, ending := .thrown }
  | some root =>
    let msg : Message := ⟨root⟩
    let access := d.auth.checkAccess msg route.am
    let d := { d with auth := access.2 }
    if access.1.authorized = false then
      match msg.fail .authUnauthorized access.1.errorMsg with
      | .error e => { state := d, ending := e.ending }
      | .ok answer =>
        { state := d.countAuthError r.objectName, sent := [.replied (some answer.root)] }
    else if route.processingType = .publish then { state := d, sent := [.replied none] }
    else d.runHandler r msg route.handler

/-- `operator()`. -/
def dispatch (r : Incoming) : Dispatched H :=
  let d := d.countRequest
  match d.routing.lookup (fullRoute r.objectName r.messageName) with
  | none => { state := d.countUnroutable r.objectName, sent := [.rejected ""] }
  | some route =>
    -- `operator[]` makes a null pointer where the object has no counters
    if r.objectName ∈ d.statsByModule then
      (d.countModuleRequest r.objectName).dispatchTo route r
    else { state := d, ending := .undefined }

/-- What happens to the dispatcher. -/
inductive Event (H : Type*) where
  | addRoutes (module : String) (routes : List (Route H))
  | message (r : Incoming)

def next (d : Dispatcher H) : Event H → Option (Dispatcher H)
  | .addRoutes module routes => some (d.addRoutes module routes)
  | .message r => if (d.dispatch r).ending ≠ .undefined then some (d.dispatch r).state else none

/-- **The dispatcher as a transition system**: registrations and messages, one after another. -/
def system (H : Type*) (options : Options) : Transition.System (Dispatcher H) (Event H) :=
  .ofNext (new H options) next

/-- A step of a run. -/
abbrev Move (H : Type*) := Transition.Move (Dispatcher H) (Event H)

end Dispatcher

end Server

end NixSrv
