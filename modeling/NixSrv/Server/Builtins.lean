import NixSrv.Cache.Stats
import NixSrv.JobQueue.Configuration
import NixSrv.Resolver.Model
import NixSrv.Server.Node

/-!
# The server with its built-in modules

The resolver, the job queue and the cache behind one dispatcher, with their routes and access
modifiers. The threads of the modules are not started, and the debug module is not enabled.

* `Handler`, `Enabled`, `resolverModule`, `jobQueueModule`, `cacheModule`: the modules as their
  constructors register them;
* `Modules`, `Modules.own`, `exec`, **`builtins`**: their states and what they do with a request;
* `addressOf`, `amOf`, **`admitted_own_iff`**, **`ran_iff_of_run`**: the messages that a handler
  gets;
* **`admitted_only`**: what clients without access send makes no difference;
* **`nothing_admitted`**: a server that is not in development mode serves no request of its modules;
* `managed`, **`queueConfig_of_run`**: the queues are those that administrators have asked for.
-/

namespace NixSrv.Server

open Json

/-- The routes of the cache. -/
inductive CacheHandler where
  | store
  | retrieve
  | remove
  | status
  deriving DecidableEq

/-- The routes of the modules. -/
inductive Handler where
  | resolver (h : Resolver.Handler)
  | jobQueue (h : JobQueue.Handler)
  | cache (h : CacheHandler)
  deriving DecidableEq

/-- A route of a module. -/
def ownRoute (route : String) (h : Handler) (am : AccessModifier)
    (processingType : ProcessingType) (description : String := "") : ModuleRoute Handler :=
  { route, handler := .module (.own h), am, processingType, description }

def resolverModule : Module Handler where
  ident := "Resolver"
  version := 1
  ownRoutes := [
    ownRoute "node/bind" (.resolver .bind) .apiPrivate .sync "Bind node name to address",
    ownRoute "node/resolve" (.resolver .resolve) .apiPrivate .sync "Resolve node's address",
    ownRoute "node/unbind" (.resolver .unbind) .apiPrivate .sync "Unbind node's address",
    ownRoute "service/bind" (.resolver .bindService) .apiPrivate .sync
      "Register a node that serves given implementation ",
    ownRoute "service/resolve" (.resolver .resolveService) .apiPrivate .sync
      "Resolve a node that serves given implementation ",
    ownRoute "service/unbind" (.resolver .unbindService) .apiPrivate .sync
      "Unbind a node that serves given implementation "]

def jobQueueModule : Module Handler where
  ident := "JobQueue"
  version := 1
  ownRoutes := [
    ownRoute "job/submit" (.jobQueue .submit) .apiPrivate .future,
    ownRoute "job/work/get" (.jobQueue .getWork) .apiPrivate .sync,
    ownRoute "job/progress/set" (.jobQueue .setProgress) .apiPrivate .void,
    ownRoute "job/result/set" (.jobQueue .setResult) .apiPrivate .sync,
    ownRoute "job/result/get" (.jobQueue .getResult) .apiPrivate .sync,
    ownRoute "manage" (.jobQueue .manage) .admin .sync,
    ownRoute "status" (.jobQueue .status) .apiPrivate .sync]

def cacheModule : Module Handler where
  ident := "Cache"
  version := 1
  ownRoutes := [
    ownRoute "store" (.cache .store) .apiPrivate .sync,
    ownRoute "retrieve" (.cache .retrieve) .apiPrivate .sync,
    ownRoute "remove" (.cache .remove) .apiPrivate .void,
    ownRoute "status" (.cache .status) .apiPrivate .sync]

/-- The options `enable-resolver`, `enable-job-queue` and `enable-cache`. -/
structure Enabled where
  resolver : Bool
  jobQueue : Bool
  cache : Bool

/-- The modules that `setup_builtin_modules` adds. -/
def builtinModules (e : Enabled) : List (Module Handler) :=
  (if e.resolver then [resolverModule] else []) ++ (if e.jobQueue then [jobQueueModule] else []) ++
    (if e.cache then [cacheModule] else [])

theorem noColon_builtinModules (e : Enabled) : ∀ m ∈ builtinModules e,
    Dispatcher.NoColon m.ident ∧ ∀ it ∈ m.routes, Dispatcher.NoColon it.route := by
  obtain ⟨r, j, c⟩ := e
  cases r <;> cases j <;> cases c <;> decide

structure Modules where
  resolver : Resolver := {}
  jobQueue : JobQueue := {}
  cache : Cache := {}

/-- What goes back to a sender. -/
def Post.ofSent (s : Sent) : Post where
  handle := s.handle
  delivery :=
    match s.answer with
    | .reply m => .replied (some (.object m))
    | .reject reason => .rejected reason

section Exec

variable [JsonText] [Jsoncpp]

def cacheRequest (h : CacheHandler) (msg : IncomingMessage) (now : ℤ) : Cache.Request :=
  match h with
  | .store => .call (.store msg now)
  | .retrieve => .call (.retrieve msg now)
  | .remove => .call (.remove msg)
  | .status => .status msg

/-- What a module does with a request to one of its own routes. -/
def Modules.own (m : Modules) (env : Env) (msg : IncomingMessage) :
    Handler → Option (Modules × List Post)
  | .resolver h =>
    let o := m.resolver.handle ⟨h, msg⟩
    if o.ending = .undefined then none
    else some ({ m with resolver := o.state }, o.sent.map .ofSent)
  | .jobQueue h =>
    let o := m.jobQueue.handleRequest ⟨h, env, msg⟩
    if o.Finished then some ({ m with jobQueue := o.state }, o.sent.map .ofSent) else none
  | .cache h =>
    let o := m.cache.serve (cacheRequest h msg env.now)
    if o.ending = .undefined then none
    else some ({ m with cache := o.state }, o.sent.map .ofSent)

/-- An answer that an exception may prevent. -/
def postOf (handle : ℕ) : Except WriteError Message → List Post
  | .ok m => [⟨handle, .replied (some m.root)⟩]
  | .error _ => []

/-- `Module::is_alive` -/
def isAlive (msg : Message) : Except WriteError Message := do
  (← (← msg.clear).setStatus .ok).reply

/-- `Module::list_routes` -/
def listRoutes (e : Enabled) (ident : String) (msg : Message) : Except WriteError Message := do
  let msg ← msg.clear
  match (builtinModules e).find? (·.ident = ident), msg.root with
  | some m, .object _ | some m, .null => return .ofMembers ((← m.routesDocument).setStatusCode .ok)
  | _, _ => .error .notObject

/-- What the modules do with a request. -/
def exec (e : Enabled) (r : Request) (msg : Message) :
    ModuleHandler Handler → Modules → Option (Modules × List Post)
  | .isAlive, m => some (m, postOf r.handle (isAlive msg))
  | .listRoutes, m => some (m, postOf r.handle (listRoutes e r.objectName msg))
  | .own h, m =>
    -- `check_access` has found a key in the document
    if hm : msg.root.isObject = true then m.own r.env ⟨msg, r.handle, hm⟩ h else none

/-- **The server with its built-in modules**; the job queue has the queues of its configuration. -/
def builtins (e : Enabled) (jobQueue : JobQueue) : Program Handler Modules where
  modules := builtinModules e
  init := { jobQueue }
  exec := exec e
  noColon := noColon_builtinModules e

end Exec

/-! ## Requests that are admitted -/

/-- The access modifier of the routes that a handler is bound to. -/
def amOf : ModuleHandler Handler → AccessModifier
  | .listRoutes | .isAlive => .any
  | .own (.jobQueue .manage) => .admin
  | .own _ => .apiPrivate

theorem amOf_own (h : Handler) : amOf (.own h) ≠ .any ∧ amOf (.own h) ≠ .public_ := by
  cases h with
  | resolver h | cache h => exact ⟨AccessModifier.noConfusion, AccessModifier.noConfusion⟩
  | jobQueue h => cases h <;> exact ⟨AccessModifier.noConfusion, AccessModifier.noConfusion⟩

/-- The object and the message that a handler answers to. -/
def addressOf : Handler → String × String
  | .resolver .bind => ("Resolver", "node/bind")
  | .resolver .resolve => ("Resolver", "node/resolve")
  | .resolver .unbind => ("Resolver", "node/unbind")
  | .resolver .bindService => ("Resolver", "service/bind")
  | .resolver .resolveService => ("Resolver", "service/resolve")
  | .resolver .unbindService => ("Resolver", "service/unbind")
  | .jobQueue .submit => ("JobQueue", "job/submit")
  | .jobQueue .getWork => ("JobQueue", "job/work/get")
  | .jobQueue .setProgress => ("JobQueue", "job/progress/set")
  | .jobQueue .setResult => ("JobQueue", "job/result/set")
  | .jobQueue .getResult => ("JobQueue", "job/result/get")
  | .jobQueue .manage => ("JobQueue", "manage")
  | .jobQueue .status => ("JobQueue", "status")
  | .cache .store => ("Cache", "store")
  | .cache .retrieve => ("Cache", "retrieve")
  | .cache .remove => ("Cache", "remove")
  | .cache .status => ("Cache", "status")

def ownHandler? : ModuleHandler Handler → Option Handler
  | .own h => some h
  | .listRoutes | .isAlive => none

/-- The module that a handler is of. -/
def moduleOf : Handler → Module Handler
  | .resolver _ => resolverModule
  | .jobQueue _ => jobQueueModule
  | .cache _ => cacheModule

/-- The module of the handler is enabled. -/
def Enabled.has (e : Enabled) : Handler → Bool
  | .resolver _ => e.resolver
  | .jobQueue _ => e.jobQueue
  | .cache _ => e.cache

theorem mem_builtinModules {e : Enabled} {m : Module Handler} : m ∈ builtinModules e ↔
    (e.resolver = true ∧ m = resolverModule) ∨ (e.jobQueue = true ∧ m = jobQueueModule) ∨
      (e.cache = true ∧ m = cacheModule) := by
  rw [builtinModules, List.mem_append, List.mem_append]
  cases e.resolver <;> cases e.jobQueue <;> cases e.cache <;> simp [or_assoc]

/-- The modules have different names. -/
theorem eq_of_ident_eq {m m' : Module Handler}
    (hm : m = resolverModule ∨ m = jobQueueModule ∨ m = cacheModule)
    (hm' : m' = resolverModule ∨ m' = jobQueueModule ∨ m' = cacheModule)
    (h : m.ident = m'.ident) : m = m' := by
  rcases hm with rfl | rfl | rfl <;> rcases hm' with rfl | rfl | rfl <;>
    first | rfl | exact absurd h (by decide)

theorem eq_of_mem_builtinModules {e : Enabled} {m : Module Handler} (hm : m ∈ builtinModules e) :
    m = resolverModule ∨ m = jobQueueModule ∨ m = cacheModule :=
  (mem_builtinModules.mp hm).imp And.right (Or.imp And.right And.right)

theorem moduleOf_eq (h : Handler) :
    moduleOf h = resolverModule ∨ moduleOf h = jobQueueModule ∨ moduleOf h = cacheModule := by
  cases h <;> simp [moduleOf]

theorem moduleOf_mem_iff {e : Enabled} (h : Handler) :
    moduleOf h ∈ builtinModules e ↔ e.has h = true := by
  have hrj : resolverModule ≠ jobQueueModule := fun he =>
    absurd (congrArg Module.ident he) (by decide)
  have hrc : resolverModule ≠ cacheModule := fun he => absurd (congrArg Module.ident he) (by decide)
  have hjc : jobQueueModule ≠ cacheModule := fun he => absurd (congrArg Module.ident he) (by decide)
  rw [mem_builtinModules]
  cases h with
  | resolver h => simp [moduleOf, Enabled.has, hrj, hrc]
  | jobQueue h => simp [moduleOf, Enabled.has, hrj.symm, hjc]
  | cache h => simp [moduleOf, Enabled.has, hrc.symm, hjc.symm]

/-- The routes of the modules publish nothing, and have the access modifiers and addresses above. -/
theorem route_spec {e : Enabled} {m : Module Handler} (hm : m ∈ builtinModules e)
    {it : ModuleRoute Handler} (hit : it ∈ m.routes) {h : ModuleHandler Handler}
    (hh : moduleHandler? it.handler = some h) : it.am = amOf h ∧ it.processingType ≠ .publish ∧
      ∀ own, h = .own own → m = moduleOf own ∧ addressOf own = (m.ident, it.route) := by
  have hall : ∀ m ∈ [resolverModule, jobQueueModule, cacheModule], ∀ it ∈ m.routes,
      ∀ h ∈ moduleHandler? it.handler, it.am = amOf h ∧ it.processingType ≠ .publish ∧
        ∀ own ∈ ownHandler? h,
          m.ident = (moduleOf own).ident ∧ addressOf own = (m.ident, it.route) := by decide
  have hm' : m ∈ [resolverModule, jobQueueModule, cacheModule] := by
    simpa using eq_of_mem_builtinModules hm
  obtain ⟨ham, htype, hown⟩ := hall m hm' it hit h hh
  refine ⟨ham, htype, ?_⟩
  rintro own rfl
  obtain ⟨hident, haddr⟩ := hown own rfl
  exact ⟨eq_of_ident_eq (eq_of_mem_builtinModules hm) (moduleOf_eq own) hident, haddr⟩

/-- Every handler has a route at its address, and no other route is there. -/
theorem exists_route (h : Handler) : ∃ it ∈ (moduleOf h).routes,
    addressOf h = ((moduleOf h).ident, it.route) ∧
      ∀ it' ∈ (moduleOf h).routes, it'.route = it.route →
        moduleHandler? it'.handler = some (.own h) := by
  cases h with
  | resolver h => cases h <;> decide
  | jobQueue h => cases h <;> decide
  | cache h => cases h <;> decide

section Requests

variable [JsonText] [Jsoncpp] {e : Enabled} {jobQueue : JobQueue} {options : Options} {r : Request}

omit [JsonText] [Jsoncpp] in
/-- What the dispatcher has for a request is a route of an enabled module, or its own. -/
theorem mem_routes_of_lookup {full : String} {route : ModuleRoute Handler}
    (h : (serving options (builtinModules e)).routing.lookup full = some route)
    {handler : ModuleHandler Handler} (hh : moduleHandler? route.handler = some handler) :
    ∃ m ∈ builtinModules e, route ∈ m.routes ∧ Dispatcher.fullRoute m.ident route.route = full := by
  rw [serving, Dispatcher.lookup_registerAll_new] at h
  obtain ⟨it, hit, rfl⟩ := Option.map_eq_some_iff.mp h
  rcases List.mem_cons.mp (List.mem_of_find?_eq_some hit) with rfl | hmem
  · cases hh
  · obtain ⟨call, hcall, hreg⟩ := List.mem_flatMap.mp hmem
    obtain ⟨m, hm, rfl⟩ := List.mem_map.mp hcall
    obtain ⟨it, hitm, rfl⟩ := List.mem_map.mp hreg
    exact ⟨m, hm, hitm, Dispatcher.fullRoute_of_firstOf hit⟩

omit [JsonText] [Jsoncpp] in
/-- What the dispatcher has for a route of an enabled module. -/
theorem lookup_route (options : Options) {m : Module Handler} (hm : m ∈ builtinModules e)
    {it : ModuleRoute Handler} (hit : it ∈ m.routes) : ∃ route ∈ m.routes, route.route = it.route ∧
      (serving options (builtinModules e)).routing.lookup (Dispatcher.fullRoute m.ident it.route) =
        some route := by
  obtain ⟨first, hfirst, hlookup⟩ := lookup_serving options hm hit
  have hfull := Dispatcher.fullRoute_of_firstOf hfirst
  have hno := (noColon_builtinModules e) m hm
  obtain ⟨hident, hroute⟩ := Dispatcher.fullRoute_inj_of_noColon hno.1 (hno.2 it hit) hfull
  refine ⟨first.2, ?_, hroute, hlookup⟩
  rcases List.mem_cons.mp (List.mem_of_find?_eq_some hfirst) with rfl | hmem
  · rcases eq_of_mem_builtinModules hm with rfl | rfl | rfl <;> exact absurd hident (by decide)
  · obtain ⟨call, hcall, hreg⟩ := List.mem_flatMap.mp hmem
    obtain ⟨m', hm', rfl⟩ := List.mem_map.mp hcall
    obtain ⟨it', hit', rfl⟩ := List.mem_map.mp hreg
    rw [← eq_of_ident_eq (eq_of_mem_builtinModules hm') (eq_of_mem_builtinModules hm) hident]
    exact hit'

/-- **The requests that a handler of a module gets**: those to its address with a key for it. -/
theorem admitted_own_iff {h : Handler} {root : Value} :
    (builtins e jobQueue).admitted options r = some (.own h, root) ↔
      e.has h = true ∧ (r.objectName, r.messageName) = addressOf h ∧
        r.payload.root? = some root ∧
        Auth.MayAccess options.developmentMode (Auth.apiKeyOf ⟨root⟩) (amOf (.own h)) := by
  have hauth : ∀ am, am ≠ .public_ →
      (((Auth.new options.developmentMode).checkAccess ⟨root⟩ am).1.authorized = true ↔
        Auth.MayAccess options.developmentMode (Auth.apiKeyOf ⟨root⟩) am) := fun am ham =>
    (Auth.authorized_iff (Auth.Kept.new _) ⟨root⟩ am).trans
      (or_iff_left fun hpublic => ham hpublic.2.1)
  have ham : amOf (.own h) ≠ .public_ := (amOf_own h).2
  refine ⟨fun ha => ?_, ?_⟩
  · rw [Program.admitted] at ha
    split_ifs at ha
    split at ha
    · next route root' hroute hroot =>
      split_ifs at ha with hv
      obtain ⟨h', hh', he⟩ := Option.map_eq_some_iff.mp ha
      cases he
      obtain ⟨m, hm, hit, hfull⟩ := mem_routes_of_lookup hroute hh'
      obtain ⟨hroutam, -, hown⟩ := route_spec hm hit hh'
      obtain ⟨hmodule, haddr⟩ := hown h rfl
      obtain ⟨hnom, hnor⟩ := (builtins e jobQueue).noColon m hm
      obtain ⟨hobj, hmsg⟩ := Dispatcher.fullRoute_inj_of_noColon hnom (hnor route hit) hfull.symm
      refine ⟨(moduleOf_mem_iff h).mp ?_, by rw [haddr, hobj, hmsg], hroot, ?_⟩
      · exact hmodule ▸ hm
      · rw [← hauth _ ham, ← hroutam]
        exact hv.1
    · cases ha
  · rintro ⟨hhas, haddr, hroot, hmay⟩
    have hm := (moduleOf_mem_iff h).mpr hhas
    obtain ⟨it, hit, haddr', hhandler⟩ := exists_route h
    rw [haddr', Prod.mk.injEq] at haddr
    obtain ⟨hobj, hmsg⟩ := haddr
    obtain ⟨route, hmem, hname, hlookup⟩ := lookup_route options hm hit
    have hh := hhandler route hmem hname
    obtain ⟨hroutam, htype, -⟩ := route_spec hm hmem hh
    have hping : r.objectName ≠ pingObject := by
      rw [hobj]
      rcases moduleOf_eq h with he | he | he <;> rw [he] <;> decide
    have hlookup' : (serving options (builtins e jobQueue).modules).routing.lookup
        (Dispatcher.fullRoute r.objectName r.messageName) = some route := by
      rw [hobj, hmsg]
      exact hlookup
    rw [Program.admitted, if_neg hping]
    simp only [hlookup', hroot]
    rw [if_pos ⟨by rw [hroutam, hauth _ ham]; exact hmay, htype⟩, hh]
    rfl

omit [JsonText] in
/-- A document that a key is found in is an object. -/
theorem isObject_of_mayAccess {dev : Bool} {root : Value} {am : AccessModifier} (ham : am ≠ .any)
    (h : Auth.MayAccess dev (Auth.apiKeyOf ⟨root⟩) am) : root.isObject = true := by
  by_contra hroot
  have hkey : Auth.apiKeyOf ⟨root⟩ = "" := by
    have hsplit : Util.split "@api_key" [] "." = ["@api_key"] := by decide
    have hmember : root.member? "@api_key" = none := by
      cases root <;> first | rfl | exact absurd rfl hroot
    rw [Auth.apiKeyOf, Message.getString, Message.find, hsplit]
    split_ifs
    · rfl
    · rw [Message.findFrom, hmember]
      rfl
  rw [hkey] at h
  rcases h with h | ⟨type, htype, -⟩
  · exact ham h
  · rw [Auth.configured_empty] at htype
    cases htype

/-- **After any run**, a handler of a module is run for the messages to its address with a key that
opens its route. -/
theorem ran_iff_of_run {rs : List Request} {n : Node Handler Modules}
    {log : List (Request × List Post)}
    (hrun : (Node.new (builtins e jobQueue) options).run (builtins e jobQueue) rs = some (n, log))
    (hping : r.objectName ≠ pingObject) (h : Handler) :
    (n.dispatcher.dispatch r.incoming).ran = some (.module (.own h)) ↔
      ∃ root, e.has h = true ∧ (r.objectName, r.messageName) = addressOf h ∧
        r.payload.root? = some root ∧
        Auth.MayAccess options.developmentMode (Auth.apiKeyOf ⟨root⟩) (amOf (.own h)) := by
  have hn := Node.serving_of_run rs Node.serving_new hrun
  have hran := (ran_dispatch (builtins e jobQueue) options hn hping).2 (.own h)
  constructor
  · intro hr
    obtain ⟨root, hroot⟩ := Dispatcher.exists_root_of_ran hr
    exact ⟨root, admitted_own_iff.mp ((hran root).mp ⟨hr, hroot⟩)⟩
  · rintro ⟨root, hconds⟩
    exact ((hran root).mpr (admitted_own_iff.mpr hconds)).1

/-- **What is sent without access to a handler of a module makes no difference**: two runs with the
same admitted requests leave the modules in the same state and get the same answers from them. -/
theorem admitted_only {rs rs' : List Request}
    (h : rs.filter ((builtins e jobQueue).isAdmitted options) =
      rs'.filter ((builtins e jobQueue).isAdmitted options)) :
    ((Node.new (builtins e jobQueue) options).run (builtins e jobQueue) rs).map
        (Node.view (builtins e jobQueue) options) =
      ((Node.new (builtins e jobQueue) options).run (builtins e jobQueue) rs').map
        (Node.view (builtins e jobQueue) options) :=
  Node.view_eq_of_admitted h

/-- Outside development mode there are no keys. -/
theorem not_admitted_own (hdev : options.developmentMode = false) (h : Handler) (root : Value) :
    (builtins e jobQueue).admitted options r ≠ some (.own h, root) := by
  intro ha
  obtain ⟨-, -, -, hany | ⟨type, htype, -⟩⟩ := admitted_own_iff.mp ha
  · exact (amOf_own h).1 hany
  · rw [hdev, Auth.configured_false] at htype
    cases htype

/-- The keys that open the routes of administrators. -/
def adminKeys : List String := ["_development_key_", "_development_key_admin_"]

omit [JsonText] [Jsoncpp] in
theorem mayAccess_admin_iff {dev : Bool} {apiKey : String} :
    Auth.MayAccess dev apiKey .admin ↔ dev = true ∧ apiKey ∈ adminKeys := by
  cases dev with
  | false => simp [Auth.MayAccess]
  | true =>
    rw [Auth.MayAccess, Auth.configured_true]
    simp only [adminKeys, List.mem_cons, List.not_mem_nil, or_false]
    split_ifs with h₁ h₂ h₃ h₄ <;> simp_all

/-- The operations on queues that a message is good for: those that it asks `manage` for with a key
of an administrator. -/
def managed (e : Enabled) (options : Options) (r : Request) : List JobQueue.Operation :=
  match r.payload.root? with
  | some root =>
    if hm : root.isObject = true then
      if e.jobQueue = true ∧ (r.objectName, r.messageName) = ("JobQueue", "manage") ∧
          options.developmentMode = true ∧ Auth.apiKeyOf ⟨root⟩ ∈ adminKeys then
        JobQueue.operations ⟨⟨root⟩, r.handle, hm⟩
      else []
    else []
  | none => []

theorem managed_of_admitted {root : Value} (hm : root.isObject = true)
    (ha : (builtins e jobQueue).admitted options r = some (.own (.jobQueue .manage), root)) :
    managed e options r = JobQueue.operations ⟨⟨root⟩, r.handle, hm⟩ := by
  obtain ⟨hhas, haddr, hroot, hmay⟩ := admitted_own_iff.mp ha
  obtain ⟨hdev, hkey⟩ := mayAccess_admin_iff.mp hmay
  simp only [managed, hroot]
  rw [dif_pos hm, if_pos ⟨hhas, haddr, hdev, hkey⟩]

theorem managed_of_not_admitted (jobQueue : JobQueue)
    (ha : ∀ root, (builtins e jobQueue).admitted options r ≠
      some (.own (.jobQueue .manage), root)) : managed e options r = [] := by
  cases hroot : r.payload.root? with
  | none => simp only [managed, hroot]
  | some root =>
    simp only [managed, hroot]
    split_ifs with hm h
    · obtain ⟨hhas, haddr, hdev, hkey⟩ := h
      have hmay := mayAccess_admin_iff.mpr ⟨hdev, hkey⟩
      exact absurd ((admitted_own_iff (h := .jobQueue .manage)).mpr ⟨hhas, haddr, hroot, hmay⟩)
        (ha root)
    · rfl
    · rfl

/-- What a request makes of the queues. -/
theorem queueConfig_exec {h : ModuleHandler Handler} {root : Value} {m m' : Modules}
    {sent : List Post} (ha : (builtins e jobQueue).admitted options r = some (h, root))
    (he : exec e r ⟨root⟩ h m = some (m', sent)) :
    m'.jobQueue.queueConfig =
      JobQueue.configureAll (managed e options r) m.jobQueue.queueConfig := by
  have hskip : h ≠ .own (.jobQueue .manage) → managed e options r = [] := fun hne =>
    managed_of_not_admitted jobQueue fun root' ha' => hne (by
      rw [ha] at ha'
      cases ha'
      rfl)
  cases h with
  | isAlive | listRoutes =>
    cases he
    rw [hskip (by simp)]
    rfl
  | own h =>
    obtain ⟨-, -, -, hmay⟩ := admitted_own_iff.mp ha
    have hroot := isObject_of_mayAccess (amOf_own h).1 hmay
    rw [exec, dif_pos hroot] at he
    cases h with
    | resolver h =>
      rw [hskip (by simp)]
      simp only [Modules.own] at he
      split_ifs at he
      cases he
      rfl
    | cache h =>
      rw [hskip (by simp)]
      simp only [Modules.own] at he
      split_ifs at he
      cases he
      rfl
    | jobQueue h =>
      simp only [Modules.own] at he
      split_ifs at he
      cases he
      rw [JobQueue.queueConfig_handleRequest]
      by_cases hmanage : h = .manage
      · subst hmanage
        rw [if_pos rfl, managed_of_admitted hroot ha]
      · rw [if_neg hmanage, hskip (by simpa using hmanage)]
        rfl

/-- **The queues of the server after any run**: which there are, how large, and open or closed, is
what the messages of administrators have made of it, in their order. -/
theorem queueConfig_of_run {rs : List Request} {n : Node Handler Modules}
    {log : List (Request × List Post)}
    (hrun : (Node.new (builtins e jobQueue) options).run (builtins e jobQueue) rs = some (n, log)) :
    n.modules.jobQueue.queueConfig =
      JobQueue.configureAll (rs.flatMap (managed e options)) jobQueue.queueConfig := by
  have hfold := Node.fold_of_run (fun m : Modules => m.jobQueue.queueConfig)
    (fun config r => JobQueue.configureAll (managed e options r) config)
    (fun r ha config => by
      rw [managed_of_not_admitted jobQueue fun root ha' => by rw [ha] at ha'; cases ha']
      rfl)
    (fun r h root m m' sent ha he => queueConfig_exec ha he) rs Node.serving_new hrun
  rw [hfold, JobQueue.configureAll, List.foldl_flatMap]
  rfl

end Requests

section Sample

attribute [local instance] Jsoncpp.integral

/-- A writer and a reader that know no text. -/
@[reducible] def noText : JsonText where
  write _ := "null\n"
  read _ := none

attribute [local instance] noText

def allEnabled : Enabled := ⟨true, true, true⟩

def developmentServer : Options := ⟨"node", true, 0⟩

/-- A message with a key. -/
def requestWith (objectName messageName apiKey : String) (members : Members) : Request where
  objectName := objectName
  messageName := messageName
  payload := .json (.object (("@api_key", .string apiKey) :: members))
  handle := 1
  env := ⟨⟨"uuid", JobQueue.uuid_ne⟩, 1⟩

/-- A request for the queue `q`, with the given key. -/
def createWith (apiKey : String) : Request :=
  requestWith "JobQueue" "manage" apiKey
    [("queue", .string "q"), ("create", .object [("size", .int 7)])]

/-- A request to unbind a node. -/
def unbindWith (apiKey : String) : Request :=
  requestWith "Resolver" "node/unbind" apiKey [("nodename", .string "n")]

/-- Requests with a private key and with the key of an administrator. -/
def bothKeys : List Request :=
  [createWith "_development_key_private_", createWith "_development_key_admin_"]

abbrev sampleServer : Node Handler Modules := Node.new (builtins allEnabled {}) developmentServer

theorem isSome_run_bothKeys :
    (sampleServer.run (builtins allEnabled {}) bothKeys).isSome = true := by decide +kernel

theorem ran_unbind_bothKeys : ∃ n log,
    sampleServer.run (builtins allEnabled {}) bothKeys = some (n, log) ∧
      (n.dispatcher.dispatch (unbindWith "_development_key_private_").incoming).ran =
        some (.module (.own (.resolver .unbind))) := by
  obtain ⟨⟨n, log⟩, hrun⟩ := Option.isSome_iff_exists.mp isSome_run_bothKeys
  have hmay : Auth.MayAccess true "_development_key_private_" .apiPrivate :=
    Or.inr ⟨.keyPrivate, by decide, by decide⟩
  have hroot : (unbindWith "_development_key_private_").payload.root? = some (.object
    [("@api_key", .string "_development_key_private_"), ("nodename", .string "n")]) := rfl
  exact ⟨n, log, hrun, (ran_iff_of_run hrun (by decide) (.resolver .unbind)).mpr
    ⟨_, rfl, rfl, hroot, hmay⟩⟩

theorem queueConfig_bothKeys : ∃ n log,
    sampleServer.run (builtins allEnabled {}) bothKeys = some (n, log) ∧
      n.modules.jobQueue.queueConfig "q" = some (7, false) := by
  obtain ⟨⟨n, log⟩, hrun⟩ := Option.isSome_iff_exists.mp isSome_run_bothKeys
  refine ⟨n, log, hrun, ?_⟩
  rw [queueConfig_of_run hrun]
  decide +kernel

/-- The request with the private key makes no difference. -/
theorem admitted_only_bothKeys :
    (sampleServer.run (builtins allEnabled {}) bothKeys).map
        (Node.view (builtins allEnabled {}) developmentServer) =
      (sampleServer.run (builtins allEnabled {}) [createWith "_development_key_admin_"]).map
        (Node.view (builtins allEnabled {}) developmentServer) := by
  refine admitted_only ?_
  have hno : (builtins allEnabled {}).isAdmitted developmentServer
      (createWith "_development_key_private_") = false := by decide +kernel
  rw [bothKeys, List.filter_cons_of_neg (by simp [hno])]

end Sample

end NixSrv.Server
