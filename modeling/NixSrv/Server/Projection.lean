import NixSrv.Resolver.Registry
import NixSrv.Server.Builtins

/-!
# The modules behind the dispatcher

Each built-in module of a server runs as it does alone, on the messages that are admitted to it, and
what it answers is what the server sends.

* `resolverCall`, `jobQueueCall`, `cacheCall`: the request that a module gets of a message;
* `RanAlone`, **`modules_of_run`**: the modules after any run of the server;
* `Reads`: what a client reads in what the server sends;
* **`retrieve_of_run`**: what a client retrieves from the cache of the server after any run;
* **`resolve_of_run`**: the address that a client finds for a node.
-/

namespace NixSrv.Server

open Json Transition

/-! ## What the modules get -/

section Calls

variable [JsonText] [Jsoncpp] (e : Enabled) (options : Options) (r : Request)

/-- The handler of a module that a message is admitted to, and its request. -/
def ownCall : Option (Handler × IncomingMessage) :=
  match (builtins e {}).admitted options r with
  | some (.own h, root) =>
    if hm : root.isObject = true then some (h, ⟨⟨root⟩, r.handle, hm⟩) else none
  | _ => none

def resolverCall : Option Resolver.Request :=
  match ownCall e options r with
  | some (.resolver h, msg) => some ⟨h, msg⟩
  | _ => none

def jobQueueCall : Option JobQueue.Call :=
  match ownCall e options r with
  | some (.jobQueue h, msg) => some (.request ⟨h, r.env, msg⟩)
  | _ => none

def cacheCall : Option Cache.Request :=
  match ownCall e options r with
  | some (.cache h, msg) => some (cacheRequest h msg r.env.now)
  | _ => none

/-! ## One message -/

variable {e options r} {jobQueue : JobQueue}

/-- **The messages that a handler of a module gets**, and what it gets of them. -/
theorem ownCall_iff {h : Handler} {msg : IncomingMessage} : ownCall e options r = some (h, msg) ↔
    e.has h = true ∧ (r.objectName, r.messageName) = addressOf h ∧
      r.payload.root? = some msg.root ∧ msg.handle = r.handle ∧
      Auth.MayAccess options.developmentMode (Auth.apiKeyOf msg.toMessage) (amOf (.own h)) := by
  constructor
  · intro hown
    unfold ownCall at hown
    split at hown
    · next h' root ha =>
      split_ifs at hown
      cases hown
      obtain ⟨hhas, haddr, hroot, hmay⟩ := admitted_own_iff.mp ha
      exact ⟨hhas, haddr, hroot, rfl, hmay⟩
    · cases hown
  · obtain ⟨⟨root⟩, handle, hm⟩ := msg
    rintro ⟨hhas, haddr, hroot, rfl, hmay⟩
    have ha : (builtins e {}).admitted options r = some (.own h, root) :=
      admitted_own_iff.mpr ⟨hhas, haddr, hroot, hmay⟩
    simp only [ownCall, ha]
    rw [dif_pos hm]

theorem ownCall_of_not_admitted (ha : (builtins e jobQueue).admitted options r = none) :
    ownCall e options r = none := by
  have h : (builtins e {}).admitted options r = none := ha
  rw [ownCall, h]

/-- A message that is admitted to a module is a request to one of its own handlers, or the module
stays as it is. -/
theorem exec_cases {h : ModuleHandler Handler} {root : Value} {m m' : Modules} {sent : List Post}
    (ha : (builtins e jobQueue).admitted options r = some (h, root))
    (he : exec e r ⟨root⟩ h m = some (m', sent)) :
    (ownCall e options r = none ∧ m' = m) ∨
      ∃ h' msg, ownCall e options r = some (h', msg) ∧ m.own r.env msg h' = some (m', sent) := by
  have ha' : (builtins e {}).admitted options r = some (h, root) := ha
  cases h with
  | listRoutes | isAlive =>
    cases he
    exact Or.inl ⟨by rw [ownCall, ha'], rfl⟩
  | own h =>
    rw [exec] at he
    split_ifs at he with hm
    refine Or.inr ⟨h, ⟨⟨root⟩, r.handle, hm⟩, ?_, he⟩
    simp only [ownCall, ha']
    rw [dif_pos hm]

/-- The answers of the resolver in a step of a run, and so on. -/
abbrev resolverAnswer (mv : Resolver.Move) : List Post :=
  (mv.pre.handle mv.event).sent.map .ofSent

abbrev jobQueueAnswer (mv : JobQueue.Move) : List Post := (JobQueue.sentIn mv).map .ofSent

abbrev cacheAnswer (mv : Cache.ServedMove) : List Post :=
  (mv.pre.serve mv.event).sent.map .ofSent

/-- What a request to a module does to it, and that it leaves the others alone. -/
theorem own_spec {m m' : Modules} {env : Env} {msg : IncomingMessage} {h : Handler}
    {sent : List Post} (he : m.own env msg h = some (m', sent)) :
    match h with
    | .resolver h => (Resolver.system.step m.resolver ⟨h, msg⟩ m'.resolver ∧
        sent = resolverAnswer ⟨m.resolver, ⟨h, msg⟩, m'.resolver⟩) ∧
        m'.jobQueue = m.jobQueue ∧ m'.cache = m.cache
    | .jobQueue h => (JobQueue.system.step m.jobQueue (.request ⟨h, env, msg⟩) m'.jobQueue ∧
        sent = jobQueueAnswer ⟨m.jobQueue, .request ⟨h, env, msg⟩, m'.jobQueue⟩) ∧
        m'.resolver = m.resolver ∧ m'.cache = m.cache
    | .cache h => (Cache.serving.step m.cache (cacheRequest h msg env.now) m'.cache ∧
        sent = cacheAnswer ⟨m.cache, cacheRequest h msg env.now, m'.cache⟩) ∧
        m'.resolver = m.resolver ∧ m'.jobQueue = m.jobQueue := by
  cases h with
  | resolver h =>
    simp only [Modules.own] at he
    split_ifs at he with hending
    cases he
    exact ⟨⟨Resolver.step_iff.mpr ⟨hending, rfl⟩, rfl⟩, rfl, rfl⟩
  | jobQueue h =>
    simp only [Modules.own] at he
    split_ifs at he with hending
    cases he
    exact ⟨⟨JobQueue.step_iff.mpr ⟨hending, rfl⟩, rfl⟩, rfl, rfl⟩
  | cache h =>
    simp only [Modules.own] at he
    split_ifs at he with hending
    cases he
    exact ⟨⟨Cache.serving_step_iff.mpr ⟨hending, rfl⟩, rfl⟩, rfl, rfl⟩

theorem steps_resolver : Node.Steps (builtins e jobQueue) options Resolver.system (·.resolver)
    (resolverCall e options) resolverAnswer where
  skip r ha := by rw [resolverCall, ownCall_of_not_admitted ha]
  exec r h root m m' sent ha he := by
    rcases exec_cases ha he with ⟨hno, rfl⟩ | ⟨h', msg, hown, he⟩
    · rw [resolverCall, hno]
    · simp only [resolverCall, hown]
      cases h' with
      | resolver h' => exact (own_spec he).1
      | jobQueue h' | cache h' => exact (own_spec he).2.1

theorem steps_jobQueue : Node.Steps (builtins e jobQueue) options JobQueue.system (·.jobQueue)
    (jobQueueCall e options) jobQueueAnswer where
  skip r ha := by rw [jobQueueCall, ownCall_of_not_admitted ha]
  exec r h root m m' sent ha he := by
    rcases exec_cases ha he with ⟨hno, rfl⟩ | ⟨h', msg, hown, he⟩
    · rw [jobQueueCall, hno]
    · simp only [jobQueueCall, hown]
      cases h' with
      | jobQueue h' => exact (own_spec he).1
      | resolver h' => exact (own_spec he).2.1
      | cache h' => exact (own_spec he).2.2

theorem steps_cache : Node.Steps (builtins e jobQueue) options Cache.serving (·.cache)
    (cacheCall e options) cacheAnswer where
  skip r ha := by rw [cacheCall, ownCall_of_not_admitted ha]
  exec r h root m m' sent ha he := by
    rcases exec_cases ha he with ⟨hno, rfl⟩ | ⟨h', msg, hown, he⟩
    · rw [cacheCall, hno]
    · simp only [cacheCall, hown]
      cases h' with
      | cache h' => exact (own_spec he).1
      | resolver h' | jobQueue h' => exact (own_spec he).2.2

end Calls

/-! ## Runs -/

/-- A module has run alone after `hist`, on the given requests, with the given answers, up to `s`.
-/
def RanAlone {S ε : Type} (T : System S ε) (answer : Transition.Move S ε → List Post)
    (hist : List (Transition.Move S ε)) (requests : List ε) (answers : List (List Post)) (s : S) :
    Prop :=
  ∃ tr, Run T (hist ++ tr) s ∧ tr.map Move.event = requests ∧ tr.map answer = answers

/-- What was sent for the messages that `call` finds a request in. -/
def answersTo {ε : Type} (call : Request → Option ε) (log : List (Request × List Post)) :
    List (List Post) :=
  log.filterMap fun x => (call x.1).map fun _ => x.2

section Runs

variable [JsonText] [Jsoncpp] {e : Enabled} {options : Options} {jobQueue : JobQueue}
  {rs : List Request} {n : Node Handler Modules} {log : List (Request × List Post)}

/-- **The modules of the server after any run**: each has run alone on the messages admitted to it,
and the server has sent its answers. -/
theorem modules_of_run
    (hrun : (Node.new (builtins e jobQueue) options).run (builtins e jobQueue) rs = some (n, log))
    {hist : List JobQueue.Move} (hjq : Run JobQueue.system hist jobQueue) :
    RanAlone Resolver.system resolverAnswer [] (rs.filterMap (resolverCall e options))
        (answersTo (resolverCall e options) log) n.modules.resolver ∧
      RanAlone JobQueue.system jobQueueAnswer hist (rs.filterMap (jobQueueCall e options))
        (answersTo (jobQueueCall e options) log) n.modules.jobQueue ∧
      RanAlone Cache.serving cacheAnswer [] (rs.filterMap (cacheCall e options))
        (answersTo (cacheCall e options) log) n.modules.cache :=
  ⟨Node.part_of_run steps_resolver rs Node.serving_new (.nil rfl) hrun,
    Node.part_of_run steps_jobQueue rs Node.serving_new hjq hrun,
    Node.part_of_run steps_cache rs Node.serving_new (.nil rfl) hrun⟩

/-! ## What clients read -/

omit [JsonText] [Jsoncpp] in
theorem ofSent_injective : Function.Injective Post.ofSent := by
  rintro ⟨handle, answer⟩ ⟨handle', answer'⟩ h
  have hh : handle = handle' := congrArg Post.handle h
  have hd := congrArg Post.delivery h
  cases answer <;> cases answer' <;> simp_all [Post.ofSent]

/-- The one thing sent is an answer `ok` with `w` under the key. -/
def Reads (sent : List Post) (handle : ℕ) (k : String) (w : Value) : Prop :=
  ∃ s : Sent, sent = [.ofSent s] ∧ s.handle = handle ∧ s.valueUnder k = some w

omit [JsonText] [Jsoncpp] in
theorem reads_iff {σ : Type*} {o : Handled σ} {msg : IncomingMessage} {k : String} {w : Value} :
    Reads (o.sent.map .ofSent) msg.handle k w ↔ Obtains o msg k w := by
  constructor
  · rintro ⟨s, hs, hh, hw⟩
    exact ⟨s, List.map_injective_iff.mpr ofSent_injective hs, hh, hw⟩
  · rintro ⟨s, hs, hh, hw⟩
    exact ⟨s, by rw [hs]; rfl, hh, hw⟩

variable {n' : Node Handler Modules} {r : Request} {sent : List Post} {msg : IncomingMessage}

/-- The last request to store or to remove the key made the entry, and no request to retrieve has
found it expired since. -/
def Stored (calls : List Cache.Request) (k : String) (entry : CacheEntry) : Prop :=
  Cell.Stands (fun c : Cache.Request => c.Puts k) (fun c : Cache.Request => c.Ends k) calls entry

omit [JsonText] in
/-- What is stored is not empty. -/
theorem Stored.content_ne {calls : List Cache.Request} {k : String} {entry : CacheEntry}
    (h : Stored calls k entry) : entry.content ≠ none := by
  obtain ⟨-, c, -, -, hp, -⟩ := h
  cases c with
  | status msg => exact hp.elim
  | call call =>
    cases call with
    | store msg now =>
      obtain ⟨-, -, rfl⟩ := hp
      exact Option.some_ne_none _
    | retrieve msg now | remove msg => exact hp.elim

omit [JsonText] in
/-- The answer to a request to retrieve, by the entries that are stored. -/
theorem obtains_retrieve {c : Cache} {calls : List Cache.Request}
    (hc : ∀ k entry, c.cache.lookup k = some entry ↔ Stored calls k entry) {now : ℤ}
    (hk : Cache.keyOf msg ≠ "") (w : Value) :
    Obtains (c.retrieve msg now) msg (Cache.keyOf msg) w ↔
      ∃ entry v, Stored calls (Cache.keyOf msg) entry ∧ entry.expired now = false ∧
        entry.content = some v ∧ readUnder (Cache.keyOf msg) v = some w := by
  by_cases hf : ∃ entry, Stored calls (Cache.keyOf msg) entry ∧ entry.expired now = false
  · obtain ⟨entry, hs, hx⟩ := hf
    obtain ⟨v, hv⟩ := Option.ne_none_iff_exists'.mp hs.content_ne
    have hl := (hc _ _).mpr hs
    obtain ⟨c', hret⟩ := Cache.retrieve_of_fresh hk hl hx hv
    rw [hret, obtains_replyUnder]
    constructor
    · exact fun h => ⟨entry, v, hs, hx, hv, h⟩
    · rintro ⟨entry', v', hs', -, hv', h⟩
      obtain rfl : entry = entry' := Option.some.inj (hl.symm.trans ((hc _ _).mpr hs'))
      obtain rfl : v = v' := Option.some.inj (hv.symm.trans hv')
      exact h
  · have hno : ∀ entry, c.cache.lookup (Cache.keyOf msg) = some entry →
        entry.expired now = true := by
      intro entry hl
      by_contra hx
      exact hf ⟨entry, (hc _ _).mp hl, Bool.eq_false_of_not_eq_true hx⟩
    refine iff_of_false ((Cache.retrieve_of_not_fresh hno).not_obtains (by decide) _ w) ?_
    rintro ⟨entry, v, hs, hx, -⟩
    exact hf ⟨entry, hs, hx⟩

theorem handle_of_cacheCall {now : ℤ}
    (hcall : cacheCall e options r = some (.call (.retrieve msg now))) : msg.handle = r.handle := by
  unfold cacheCall at hcall
  split at hcall
  · next h msg' hown =>
    have hmsg : msg' = msg := by cases h <;> cases hcall; rfl
    exact hmsg ▸ (ownCall_iff.mp hown).2.2.2.1
  · cases hcall

theorem handle_of_resolverCall {h : Resolver.Handler}
    (hcall : resolverCall e options r = some ⟨h, msg⟩) : msg.handle = r.handle := by
  unfold resolverCall at hcall
  split at hcall
  · next h' msg' hown =>
    cases hcall
    exact (ownCall_iff.mp hown).2.2.2.1
  · cases hcall

/-- **What a client retrieves from the cache of the server after any run**: what the messages
admitted to the cache have stored under the key, unless it has expired, as far as it can be read
there. -/
theorem retrieve_of_run
    (hrun : (Node.new (builtins e jobQueue) options).run (builtins e jobQueue) rs = some (n, log))
    (hstep : n.step (builtins e jobQueue) r = some (n', sent)) {now : ℤ}
    (hcall : cacheCall e options r = some (.call (.retrieve msg now)))
    (hk : Cache.keyOf msg ≠ "") (w : Value) :
    Reads sent r.handle (Cache.keyOf msg) w ↔
      ∃ entry v, Stored (rs.filterMap (cacheCall e options)) (Cache.keyOf msg) entry ∧
        entry.expired now = false ∧ entry.content = some v ∧
        readUnder (Cache.keyOf msg) v = some w := by
  have hn := Node.serving_of_run rs Node.serving_new hrun
  have hpart := Node.part_of_step steps_cache hn hstep
  rw [hcall] at hpart
  obtain ⟨-, rfl⟩ := hpart
  obtain ⟨tr, hr, hevents, -⟩ := Node.part_of_run steps_cache rs Node.serving_new
    (.nil rfl : Run Cache.serving [] (Node.new (builtins e jobQueue) options).modules.cache) hrun
  rw [← handle_of_cacheCall hcall]
  refine (reads_iff (o := n.modules.cache.retrieve msg now)).trans (obtains_retrieve ?_ hk w)
  intro k entry
  rw [Cache.lookup_iff_stands hr, ← hevents, Stored, Cell.stands_map]
  rfl

/-- What a request to the resolver does to the address of a node. -/
def addressWrite (node : String) (req : Resolver.Request) : Cell.Write String :=
  if Resolver.nodeOf req.msg = node then
    match req.handler with
    | .bind =>
      let address := req.msg.getString "address" ""
      if node = "" ∨ address = "" then .keep else .put address
    | .unbind => .drop
    | _ => .keep
  else .keep

omit [JsonText] in
theorem nodeWrite_eq (node : String) (mv : Resolver.Move) :
    Resolver.nodeWrite node mv = addressWrite node mv.event := by
  obtain ⟨r, ⟨handler, msg⟩, r'⟩ := mv
  by_cases hn : Resolver.nodeOf msg = node
  · subst hn
    cases handler with
    | bind =>
      simp only [Resolver.nodeWrite, addressWrite, Resolver.accepts_bind, and_true, if_true,
        ite_not]
    | unbind =>
      simp only [Resolver.nodeWrite, addressWrite, Resolver.accepts_unbind, and_true, if_true]
    | resolve | bindService | resolveService | unbindService =>
      simp [Resolver.nodeWrite, addressWrite]
  · simp [Resolver.nodeWrite, addressWrite, hn]

/-- **The address that a client finds for a node after any run of the server**: the one that the
messages admitted to the resolver have bound last, as far as it can be read there. -/
theorem resolve_of_run
    (hrun : (Node.new (builtins e jobQueue) options).run (builtins e jobQueue) rs = some (n, log))
    (hstep : n.step (builtins e jobQueue) r = some (n', sent))
    (hcall : resolverCall e options r = some ⟨.resolve, msg⟩) (w : Value) :
    Reads sent r.handle (Resolver.nodeOf msg) w ↔
      ∃ a, Cell.content (addressWrite (Resolver.nodeOf msg))
          (rs.filterMap (resolverCall e options)) = some a ∧
        readUnder (Resolver.nodeOf msg) (.string a) = some w := by
  have hn := Node.serving_of_run rs Node.serving_new hrun
  have hpart := Node.part_of_step steps_resolver hn hstep
  rw [hcall] at hpart
  obtain ⟨-, rfl⟩ := hpart
  obtain ⟨tr, hr, hevents, -⟩ := Node.part_of_run steps_resolver rs Node.serving_new
    (.nil rfl : Run Resolver.system [] (Node.new (builtins e jobQueue) options).modules.resolver)
    hrun
  have hbound : n.modules.resolver.binding (Resolver.nodeOf msg) =
      Cell.content (addressWrite (Resolver.nodeOf msg))
        (rs.filterMap (resolverCall e options)) := by
    rw [← Resolver.boundTo_of_run hr, ← hevents, Cell.content_map, Resolver.boundTo,
      List.nil_append]
    exact congrArg (Cell.content · tr) (funext fun mv => nodeWrite_eq _ mv)
  rw [← handle_of_resolverCall hcall, ← hbound]
  refine (reads_iff (o := n.modules.resolver.resolve msg)).trans ?_
  cases hb : n.modules.resolver.binding (Resolver.nodeOf msg) with
  | none =>
    refine iff_of_false ((Resolver.resolve_of_not_binding hb).not_obtains (by decide) _ w) ?_
    rintro ⟨a, ha, -⟩
    cases ha
  | some a =>
    obtain ⟨r', hret⟩ := Resolver.resolve_of_binding hb
    rw [hret, obtains_replyUnder]
    simp

end Runs

section Sample

attribute [local instance] Jsoncpp.integral

attribute [local instance] noText

/-- The document of a request with a private key. -/
def privateMessage (members : Members) : IncomingMessage where
  root := .object (("@api_key", .string "_development_key_private_") :: members)
  handle := 1
  isObject := rfl

theorem ownCall_private {h : Handler} (hhas : allEnabled.has h = true)
    (ham : amOf (.own h) = .apiPrivate) {objectName messageName : String}
    (haddr : (objectName, messageName) = addressOf h) (members : Members) :
    ownCall allEnabled developmentServer
        (requestWith objectName messageName "_development_key_private_" members) =
      some (h, privateMessage members) := by
  refine ownCall_iff.mpr ⟨hhas, haddr, rfl, rfl, ?_⟩
  rw [ham]
  exact Or.inr ⟨.keyPrivate, rfl, by decide⟩

/-- A value is stored under a key. -/
def storing : Request :=
  requestWith "Cache" "store" "_development_key_private_"
    [("key", .string "k"), ("value", .string "v")]

def retrieving : Request :=
  requestWith "Cache" "retrieve" "_development_key_private_" [("key", .string "k")]

/-- A node is bound. -/
def binding : Request :=
  requestWith "Resolver" "node/bind" "_development_key_private_"
    [("nodename", .string "n"), ("address", .string "a")]

def resolving : Request :=
  requestWith "Resolver" "node/resolve" "_development_key_private_" [("nodename", .string "n")]

theorem exists_answer (r r' : Request) (h : ((sampleServer.run (builtins allEnabled {}) [r]).bind
    fun x => x.1.step (builtins allEnabled {}) r').isSome = true) : ∃ n log n' sent,
      sampleServer.run (builtins allEnabled {}) [r] = some (n, log) ∧
        n.step (builtins allEnabled {}) r' = some (n', sent) := by
  obtain ⟨⟨n', sent⟩, h⟩ := Option.isSome_iff_exists.mp h
  obtain ⟨⟨n, log⟩, hrun, hstep⟩ := Option.bind_eq_some_iff.mp h
  exact ⟨n, log, n', sent, hrun, hstep⟩

theorem modules_storing : ∃ n log,
    sampleServer.run (builtins allEnabled {}) [storing] = some (n, log) ∧
      RanAlone Cache.serving cacheAnswer []
        ([storing].filterMap (cacheCall allEnabled developmentServer))
        (answersTo (cacheCall allEnabled developmentServer) log) n.modules.cache := by
  obtain ⟨n, log, -, -, hrun, -⟩ :=
    exists_answer storing retrieving (by decide +kernel)
  exact ⟨n, log, hrun, (modules_of_run hrun (.nil rfl)).2.2⟩

theorem retrieve_storing : ∃ n log n' sent,
    sampleServer.run (builtins allEnabled {}) [storing] = some (n, log) ∧
      n.step (builtins allEnabled {}) retrieving = some (n', sent) ∧
      Reads sent 1 "k" (.string "v") := by
  obtain ⟨n, log, n', sent, hrun, hstep⟩ :=
    exists_answer storing retrieving (by decide +kernel)
  have hput : cacheCall allEnabled developmentServer storing = some (.call (.store
      (privateMessage [("key", .string "k"), ("value", .string "v")]) 1)) := by
    rw [cacheCall, storing, ownCall_private (h := .cache .store) rfl rfl rfl]
    rfl
  have hget : cacheCall allEnabled developmentServer retrieving = some (.call (.retrieve
      (privateMessage [("key", .string "k")]) 1)) := by
    rw [cacheCall, retrieving, ownCall_private (h := .cache .retrieve) rfl rfl rfl]
    rfl
  refine ⟨n, log, n', sent, hrun, hstep,
    (retrieve_of_run hrun hstep hget (by decide) _).mpr ⟨⟨1, 300, some (.string "v")⟩, .string "v",
      ?_, by decide, rfl, rfl⟩⟩
  rw [List.filterMap_cons_some hput]
  exact ⟨[], _, [], rfl, ⟨by decide, by decide, rfl⟩, by simp⟩

theorem resolve_binding : ∃ n log n' sent,
    sampleServer.run (builtins allEnabled {}) [binding] = some (n, log) ∧
      n.step (builtins allEnabled {}) resolving = some (n', sent) ∧
      Reads sent 1 "n" (.string "a") := by
  obtain ⟨n, log, n', sent, hrun, hstep⟩ :=
    exists_answer binding resolving (by decide +kernel)
  have hput : resolverCall allEnabled developmentServer binding = some ⟨.bind,
      privateMessage [("nodename", .string "n"), ("address", .string "a")]⟩ := by
    rw [resolverCall, binding, ownCall_private (h := .resolver .bind) rfl rfl rfl]
  have hget : resolverCall allEnabled developmentServer resolving = some ⟨.resolve,
      privateMessage [("nodename", .string "n")]⟩ := by
    rw [resolverCall, resolving, ownCall_private (h := .resolver .resolve) rfl rfl rfl]
  refine ⟨n, log, n', sent, hrun, hstep,
    (resolve_of_run hrun hstep hget _).mpr ⟨"a", ?_, rfl⟩⟩
  rw [List.filterMap_cons_some hput]
  decide

end Sample

end NixSrv.Server
