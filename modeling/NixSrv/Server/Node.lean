import NixSrv.Job
import NixSrv.Lib.Transition
import NixSrv.Server.ListRoutes

/-!
# A server with its modules

`nix::Server` with the dispatcher as its object and modules behind it, where messages are handled
one at a time. What the modules do with a request is a parameter.

* `Request`, `Post`, `Program`: messages to the server, what it sends, and modules with plain names;
* `Node`, `Node.step`, `Node.run`: the server, one message, and runs;
* `Program.admitted`: the requests that the modules get, by their content alone;
* `Node.Serving`, **`step_of_admitted`**, **`step_of_not_admitted`**: what one message does;
* **`purge`**: the modules and their answers in a run are those of the admitted requests alone;
* `step_cases`, `serving_of_run`, `fold_of_run`, `exists_run`: rules for runs;
* `Steps`, **`part_of_run`**: parts of the modules run as they do alone.
-/

namespace NixSrv.Server

open Json Transition

/-- A message from the network, with what its handler takes from the clock and the generator of
uuids. -/
structure Request where
  objectName : String
  messageName : String
  payload : Payload
  handle : ℕ
  env : Env

/-- What becomes of the message with the given handle. -/
structure Post where
  handle : ℕ
  delivery : Delivery

/-- Modules, in the order of their registration, and what they do with a request: `exec` gives their
state and what they send, or nothing when a handler does not end. -/
structure Program (H M : Type) where
  modules : List (Module H)
  init : M
  exec : Request → Message → ModuleHandler H → M → Option (M × List Post)
  noColon : ∀ m ∈ modules, Dispatcher.NoColon m.ident ∧ ∀ it ∈ m.routes, Dispatcher.NoColon it.route

/-- The object that answers to itself, without the dispatcher. -/
def pingObject : String := "ping"

def Request.incoming (r : Request) : Incoming where
  objectName := r.objectName
  messageName := r.messageName
  payload := r.payload
  now := r.env.now

variable {H M : Type}

structure Node (H M : Type) where
  dispatcher : Dispatcher (ModuleHandler H)
  modules : M

namespace Node

variable (p : Program H M) (options : Options)

/-- The server when it starts to listen. -/
def new : Node H M where
  dispatcher := serving options p.modules
  modules := p.init

variable [Jsoncpp]

/-- One message: the server afterwards, the handler that ran and what was sent. There is no step
when a handler does not end. -/
def step (n : Node H M) (r : Request) : Option (Node H M × List Post) :=
  if r.objectName = pingObject then some (n, [⟨r.handle, .replied none⟩])
  else
    let o := n.dispatcher.dispatch r.incoming
    match o.ran, r.payload.root? with
    | some (.module h), some root =>
      (p.exec r ⟨root⟩ h n.modules).map fun (modules, sent) => (⟨o.state, modules⟩, sent)
    | _, _ =>
      if o.ending = .undefined then none
      else some ({ n with dispatcher := o.state }, o.sent.map (⟨r.handle, ·⟩))

/-- Messages one after another: the server afterwards, and what was sent in each step. -/
def run : Node H M → List Request → Option (Node H M × List (Request × List Post))
  | n, [] => some (n, [])
  | n, r :: rs =>
    (n.step p r).bind fun (n, sent) => (run n rs).map fun (n, log) => (n, (r, sent) :: log)

end Node

section Requests

variable (p : Program H M) (options : Options)

/-- The handler of a module that a route is bound to. -/
def moduleHandler? {H : Type} : Target H → Option H
  | .serverStatus => none
  | .module h => some h

variable [Jsoncpp]

/-- The handler of a module that a request is for, with its document. The verdict on its key is that
of the keys of the constructor. -/
def Program.admitted (r : Request) : Option (ModuleHandler H × Value) :=
  if r.objectName = pingObject then none
  else match (serving options p.modules).routing.lookup
      (Dispatcher.fullRoute r.objectName r.messageName), r.payload.root? with
  | some route, some root =>
    if ((Auth.new options.developmentMode).checkAccess ⟨root⟩ route.am).1.authorized ∧
        route.processingType ≠ .publish then
      (moduleHandler? route.handler).map (·, root)
    else none
  | _, _ => none

def Program.isAdmitted (r : Request) : Bool := (p.admitted options r).isSome

/-! ## The tables of the dispatcher over a run -/

/-- The dispatcher has the routes and the objects that were registered, and its keys are those of
its constructor. -/
structure Node.Serving (d : Dispatcher (ModuleHandler H)) : Prop where
  routing : d.routing = (serving options p.modules).routing
  objects : ∀ m, m ∈ d.statsByModule ↔ m ∈ (serving options p.modules).statsByModule
  kept : Auth.Kept options.developmentMode d.auth

omit [Jsoncpp] in
theorem registered_serving : (serving options p.modules).Registered := by
  have hadd : ∀ (ms : List (Module H)) (d : Dispatcher (ModuleHandler H)), d.Registered →
      (∀ m ∈ ms, Dispatcher.NoColon m.ident ∧ ∀ it ∈ m.routes, Dispatcher.NoColon it.route) →
      (d.registerAll (ms.map Module.registration)).Registered := by
    intro ms
    induction ms with
    | nil => exact fun _ hd _ => hd
    | cons m ms ih =>
      intro d hd h
      obtain ⟨⟨hm, hr⟩, hms⟩ := List.forall_mem_cons.mp h
      exact ih _ (hd.addRoutes hm hr) hms
  refine hadd p.modules _ ?_ p.noColon
  refine Dispatcher.Registered.addRoute (fun full h => by cases h)
    (by decide : Dispatcher.NoColon Dispatcher.builtinStatusObjectName) ?_
  exact (by decide : Dispatcher.NoColon "status")

theorem kept_checkAccess {dev : Bool} {auth : Auth} (h : Auth.Kept dev auth) (msg : Message)
    (am : AccessModifier) : Auth.Kept dev (auth.checkAccess msg am).2 := by
  rcases Auth.checkAccess_table auth msg am with he | ⟨hd, he⟩
  · rwa [he]
  · rw [he]
    exact h.index (h.mode ▸ hd) _

/-- The verdict on a message does not depend on the messages before it. -/
theorem authorized_eq {dev : Bool} {auth : Auth} (h : Auth.Kept dev auth) (msg : Message)
    (am : AccessModifier) : (auth.checkAccess msg am).1.authorized =
      ((Auth.new dev).checkAccess msg am).1.authorized := by
  rw [Bool.eq_iff_iff, Auth.authorized_iff h, Auth.authorized_iff (Auth.Kept.new dev)]

/-- The dispatch of a message keeps the tables. -/
theorem Node.Serving.dispatch {d : Dispatcher (ModuleHandler H)} (hd : Serving p options d)
    (r : Incoming) : Serving p options (d.dispatch r).state := by
  obtain ⟨hrouting, hobjects⟩ := d.dispatch_frame r
  refine ⟨hrouting.trans hd.routing, fun m => (hobjects m).trans (hd.objects m), ?_⟩
  cases hroute : d.routing.lookup (Dispatcher.fullRoute r.objectName r.messageName) with
  | none =>
    rw [Dispatcher.dispatch_of_none hroute]
    exact hd.kept
  | some route =>
    by_cases hm : r.objectName ∈ d.statsByModule
    · rw [Dispatcher.dispatch_of_mem hroute hm]
      have h := Dispatcher.dispatch_cases (d.countRequest.countModuleRequest r.objectName) route r
      generalize Dispatcher.dispatchTo _ route r = o at h ⊢
      cases h with
      | unparsed => exact hd.kept
      | refused root | refusalThrows root | published root => exact kept_checkAccess hd.kept _ _
      | handled root =>
        have hkept := kept_checkAccess hd.kept ⟨root⟩ route.am
        rcases Dispatcher.runHandler_state (Dispatcher.checked _ route root) r ⟨root⟩
          route.handler with hs | hs
        · rw [hs]
          exact hkept
        · rw [hs]
          exact hkept
    · rw [Dispatcher.dispatch_of_notMem hroute hm]
      exact hd.kept

/-- The dispatcher runs a handler of a module when the request is admitted, and that one. -/
theorem ran_dispatch {d : Dispatcher (ModuleHandler H)} (hd : Node.Serving p options d)
    {r : Request} (hping : r.objectName ≠ pingObject) :
    (d.dispatch r.incoming).ending ≠ .undefined ∧
      ∀ h root, ((d.dispatch r.incoming).ran = some (.module h) ∧ r.payload.root? = some root) ↔
        p.admitted options r = some (h, root) := by
  have hobj : ∀ route, (serving options p.modules).routing.lookup
      (Dispatcher.fullRoute r.objectName r.messageName) = some route →
        r.objectName ∈ d.statsByModule := fun route hroute =>
    (hd.objects _).mpr ((registered_serving p options).mem_statsByModule (Map.mem_of_lookup hroute))
  rw [Program.admitted, if_neg hping]
  cases hroute : (serving options p.modules).routing.lookup
      (Dispatcher.fullRoute r.objectName r.messageName) with
  | none =>
    have hroute' := hroute
    rw [← hd.routing] at hroute'
    rw [Dispatcher.dispatch_of_none (r := r.incoming) hroute']
    exact ⟨by simp, by simp⟩
  | some route =>
    have hroute' := hroute
    rw [← hd.routing] at hroute'
    rw [Dispatcher.dispatch_of_mem (r := r.incoming) hroute' (hobj route hroute)]
    refine ⟨Dispatcher.dispatchTo_ending _ _ _, ?_⟩
    have h := Dispatcher.dispatch_cases (d.countRequest.countModuleRequest r.incoming.objectName)
      route r.incoming
    have hverdict : ∀ root : Value, (Dispatcher.access
        (d.countRequest.countModuleRequest r.incoming.objectName) route root).1.authorized =
        ((Auth.new options.developmentMode).checkAccess ⟨root⟩ route.am).1.authorized :=
      fun root => authorized_eq hd.kept ⟨root⟩ route.am
    generalize Dispatcher.dispatchTo _ route r.incoming = o at h ⊢
    cases h with
    | unparsed hp =>
      change r.payload.root? = none at hp
      simp [hp]
    | refused root hp hv hw | refusalThrows root hp hv hw =>
      change r.payload.root? = some root at hp
      rw [hverdict] at hv
      simp [hp, hv]
    | published root hp hv ht =>
      change r.payload.root? = some root at hp
      simp [hp, ht]
    | handled root hp hv ht =>
      change r.payload.root? = some root at hp
      rw [hverdict] at hv
      cases htarget : route.handler with
      | serverStatus =>
        have hran : ∀ d : Dispatcher (ModuleHandler H),
            (d.serverStatus ⟨root⟩ r.env.now).ran = some .serverStatus := by
          intro d
          unfold Dispatcher.serverStatus
          split <;> rfl
        simp [Dispatcher.runHandler, hran, hp, hv, ht, Request.incoming, htarget, moduleHandler?]
      | module h' => simp [Dispatcher.runHandler, hp, hv, ht, htarget, moduleHandler?]

/-! ## Messages and runs -/

namespace Node

variable {p options} {n : Node H M} {r : Request}

omit [Jsoncpp] in
theorem serving_new : Serving p options (new p options).dispatcher :=
  ⟨rfl, fun _ => Iff.rfl, by
    have h : (serving options p.modules).auth = Auth.new options.developmentMode := by
      have hreg : ∀ (regs : List (String × ModuleRoute H)) (d : Dispatcher (ModuleHandler H)),
          (d.register regs).auth = d.auth := by
        intro regs
        induction regs with
        | nil => exact fun _ => rfl
        | cons it regs ih => exact fun d => ih (d.addRoute it.1 it.2)
      rw [Server.serving, Dispatcher.registerAll_new, hreg]
    change Auth.Kept _ (serving options p.modules).auth
    rw [h]
    exact Auth.Kept.new _⟩

/-- **An admitted request is handled by its module**, whatever the server has done before. -/
theorem step_of_admitted (hn : Serving p options n.dispatcher) {h : ModuleHandler H} {root : Value}
    (ha : p.admitted options r = some (h, root)) :
    ∃ d, Serving p options d ∧
      n.step p r =
        (p.exec r ⟨root⟩ h n.modules).map fun (modules, sent) => (⟨d, modules⟩, sent) := by
  have hping : r.objectName ≠ pingObject := by
    intro he
    rw [Program.admitted, if_pos he] at ha
    cases ha
  obtain ⟨hran, hroot⟩ := ((ran_dispatch p options hn hping).2 h root).mpr ha
  refine ⟨_, hn.dispatch p options r.incoming, ?_⟩
  rw [step, if_neg hping]
  simp only [hran, hroot]

/-- **A request that is not admitted is done with**, and the modules do not notice. -/
theorem step_of_not_admitted (hn : Serving p options n.dispatcher)
    (ha : p.admitted options r = none) :
    ∃ d sent, Serving p options d ∧ n.step p r = some (⟨d, n.modules⟩, sent) := by
  by_cases hping : r.objectName = pingObject
  · exact ⟨n.dispatcher, _, hn, by rw [step, if_pos hping]⟩
  obtain ⟨hending, hran⟩ := ran_dispatch p options hn hping
  refine ⟨_, (n.dispatcher.dispatch r.incoming).sent.map (⟨r.handle, ·⟩),
    hn.dispatch p options r.incoming, ?_⟩
  rw [step, if_neg hping]
  dsimp only
  split
  · next h root htarget hroot =>
    rw [(hran h root).mp ⟨htarget, hroot⟩] at ha
    cases ha
  · rw [if_neg hending]

/-- What is seen of a run behind the dispatcher: the modules, and what was sent in the steps that a
module took part in. -/
def view (p : Program H M) (options : Options) (x : Node H M × List (Request × List Post)) :
    M × List (Request × List Post) :=
  (x.1.modules, x.2.filter fun e => p.isAdmitted options e.1)

theorem view_cons_of_admitted {x : Node H M × List (Request × List Post)} {sent : List Post}
    (ha : p.isAdmitted options r = true) :
    view p options (x.1, (r, sent) :: x.2) =
      ((view p options x).1, (r, sent) :: (view p options x).2) := by
  simp only [view, List.filter_cons, ha, if_true]

theorem view_cons_of_not_admitted {x : Node H M × List (Request × List Post)} {sent : List Post}
    (ha : ¬p.isAdmitted options r = true) :
    view p options (x.1, (r, sent) :: x.2) = view p options x := by
  simp only [view, List.filter_cons, ha, Bool.false_eq_true, if_false]

/-- **The modules and what they answer in a run are those of the admitted requests alone**: the
other messages, and how many there are, make no difference. -/
theorem purge (rs : List Request) : ∀ {n m : Node H M}, Serving p options n.dispatcher →
    Serving p options m.dispatcher → n.modules = m.modules →
    (n.run p rs).map (view p options) =
      (m.run p (rs.filter (p.isAdmitted options))).map (view p options) := by
  induction rs with
  | nil =>
    intro n m _ _ hmod
    change some (view p options (n, [])) = some (view p options (m, []))
    rw [view, view, hmod]
  | cons r rs ih =>
    intro n m hn hm hmod
    cases ha : p.admitted options r with
    | none =>
      have hno : ¬p.isAdmitted options r = true := by simp [Program.isAdmitted, ha]
      obtain ⟨d, sent, hd, hstep⟩ := step_of_not_admitted hn ha
      rw [List.filter_cons_of_neg hno, run, hstep, Option.bind_some, Option.map_map,
        ← ih (n := ⟨d, n.modules⟩) hd hm hmod]
      exact congrArg (Option.map · _) (funext fun x => view_cons_of_not_admitted hno)
    | some hr =>
      obtain ⟨h, root⟩ := hr
      have hyes : p.isAdmitted options r = true := by simp [Program.isAdmitted, ha]
      obtain ⟨d, hd, hstep⟩ := step_of_admitted hn ha
      obtain ⟨d', hd', hstep'⟩ := step_of_admitted hm ha
      rw [List.filter_cons_of_pos hyes, run, run, hstep, hstep', ← hmod]
      cases p.exec r ⟨root⟩ h n.modules with
      | none => rfl
      | some res =>
        obtain ⟨modules, sent⟩ := res
        have hrest := congrArg (Option.map fun v : M × List (Request × List Post) =>
          (v.1, (r, sent) :: v.2)) (ih (n := ⟨d, modules⟩) (m := ⟨d', modules⟩) hd hd' rfl)
        simp only [Option.map_map] at hrest
        simp only [Option.map_some, Option.bind_some, Option.map_map]
        have hview : (view p options ∘ fun x : Node H M × List (Request × List Post) =>
            (x.1, (r, sent) :: x.2)) =
            ((fun v => (v.1, (r, sent) :: v.2)) ∘ view p options) :=
          funext fun x => view_cons_of_admitted hyes
        rw [hview]
        exact hrest

/-- What a step does. -/
theorem step_cases {n' : Node H M} {sent : List Post} (hn : Serving p options n.dispatcher)
    (h : n.step p r = some (n', sent)) : Serving p options n'.dispatcher ∧
      ((p.admitted options r = none ∧ n'.modules = n.modules) ∨
        ∃ handler root, p.admitted options r = some (handler, root) ∧
          p.exec r ⟨root⟩ handler n.modules = some (n'.modules, sent)) := by
  cases ha : p.admitted options r with
  | none =>
    obtain ⟨d, sent', hd, hstep⟩ := step_of_not_admitted hn ha
    cases h.symm.trans hstep
    exact ⟨hd, Or.inl ⟨rfl, rfl⟩⟩
  | some hr =>
    obtain ⟨handler, root⟩ := hr
    obtain ⟨d, hd, hstep⟩ := step_of_admitted hn ha
    obtain ⟨res, hexec, hres⟩ := Option.map_eq_some_iff.mp (hstep.symm.trans h)
    cases hres
    exact ⟨hd, Or.inr ⟨handler, root, rfl, hexec⟩⟩

/-- The first step of a run, and the rest. -/
theorem run_cons {rs : List Request} {n' : Node H M} {log : List (Request × List Post)}
    (h : n.run p (r :: rs) = some (n', log)) : ∃ n₁ sent log₁, n.step p r = some (n₁, sent) ∧
      n₁.run p rs = some (n', log₁) ∧ log = (r, sent) :: log₁ := by
  obtain ⟨⟨n₁, sent⟩, hstep, hrest⟩ := Option.bind_eq_some_iff.mp h
  obtain ⟨⟨n₂, log₁⟩, hrun, he⟩ := Option.map_eq_some_iff.mp hrest
  cases he
  exact ⟨n₁, sent, log₁, hstep, hrun, rfl⟩

/-- The tables of the dispatcher after a run. -/
theorem serving_of_run (rs : List Request) : ∀ {n n' : Node H M} {log : List (Request × List Post)},
    Serving p options n.dispatcher → n.run p rs = some (n', log) →
    Serving p options n'.dispatcher := by
  induction rs with
  | nil =>
    intro n n' log hn h
    cases h
    exact hn
  | cons r rs ih =>
    intro n n' log hn h
    obtain ⟨n₁, sent, log₁, hstep, hrun, rfl⟩ := run_cons h
    exact ih (step_cases hn hstep).1 hrun

/-- What the modules hold after a run, by what an admitted request makes of it. -/
theorem fold_of_run {S : Type} (get : M → S) (apply : S → Request → S)
    (hskip : ∀ r, p.admitted options r = none → ∀ s, apply s r = s)
    (hexec : ∀ r h root m m' sent, p.admitted options r = some (h, root) →
      p.exec r ⟨root⟩ h m = some (m', sent) → get m' = apply (get m) r)
    (rs : List Request) : ∀ {n n' : Node H M} {log : List (Request × List Post)},
    Serving p options n.dispatcher → n.run p rs = some (n', log) →
    get n'.modules = rs.foldl apply (get n.modules) := by
  induction rs with
  | nil =>
    intro n n' log _ h
    cases h
    rfl
  | cons r rs ih =>
    intro n n' log hn h
    obtain ⟨n₁, sent, log₁, hstep, hrun, rfl⟩ := run_cons h
    obtain ⟨hn₁, hcase⟩ := step_cases hn hstep
    rw [List.foldl_cons, ih hn₁ hrun]
    rcases hcase with ⟨ha, hmod⟩ | ⟨h, root, ha, he⟩
    · rw [hskip r ha, hmod]
    · rw [hexec r h root _ _ _ ha he]

/-- A part `get` of the modules makes a step of `T` for each request that `call` finds for it, with
`answer` as what is sent, and none for the others. -/
structure Steps {S ε : Type} (p : Program H M) (options : Options) (T : System S ε) (get : M → S)
    (call : Request → Option ε) (answer : Transition.Move S ε → List Post) : Prop where
  skip : ∀ r, p.admitted options r = none → call r = none
  exec : ∀ r h root m m' sent, p.admitted options r = some (h, root) →
    p.exec r ⟨root⟩ h m = some (m', sent) →
    match call r with
    | none => get m' = get m
    | some c => T.step (get m) c (get m') ∧ sent = answer ⟨get m, c, get m'⟩

section Parts

variable {S ε : Type} {T : System S ε} {get : M → S} {call : Request → Option ε}
  {answer : Transition.Move S ε → List Post}

/-- What a message does to a part of the modules. -/
theorem part_of_step (hsteps : Steps p options T get call answer)
    (hn : Serving p options n.dispatcher) {n' : Node H M} {sent : List Post}
    (h : n.step p r = some (n', sent)) :
    match call r with
    | none => get n'.modules = get n.modules
    | some c => T.step (get n.modules) c (get n'.modules) ∧
        sent = answer ⟨get n.modules, c, get n'.modules⟩ := by
  rcases (step_cases hn h).2 with ⟨ha, hmod⟩ | ⟨handler, root, ha, he⟩
  · rw [hsteps.skip r ha, hmod]
  · exact hsteps.exec r handler root _ _ _ ha he

/-- **A part of the modules runs as it does alone**, on the requests for it. -/
theorem part_of_run (hsteps : Steps p options T get call answer) (rs : List Request) :
    ∀ {n n' : Node H M} {log : List (Request × List Post)} {hist : List (Transition.Move S ε)},
      Serving p options n.dispatcher → Run T hist (get n.modules) → n.run p rs = some (n', log) →
      ∃ tr, Run T (hist ++ tr) (get n'.modules) ∧ tr.map Move.event = rs.filterMap call ∧
        tr.map answer = log.filterMap fun e => (call e.1).map fun _ => e.2 := by
  induction rs with
  | nil =>
    intro n n' log hist _ hr h
    cases h
    exact ⟨[], by rwa [List.append_nil], rfl, rfl⟩
  | cons r rs ih =>
    intro n n' log hist hn hr h
    obtain ⟨n₁, sent, log₁, hstep, hrun, rfl⟩ := run_cons h
    have hn₁ := (step_cases hn hstep).1
    have hpart := part_of_step hsteps hn hstep
    cases hc : call r with
    | none =>
      rw [hc] at hpart
      rw [← hpart] at hr
      rw [List.filterMap_cons_none hc, List.filterMap_cons_none (by rw [hc]; rfl)]
      exact ih hn₁ hr hrun
    | some c =>
      rw [hc] at hpart
      obtain ⟨hs, rfl⟩ := hpart
      obtain ⟨tr, htr, hevents, hanswers⟩ := ih hn₁ (hr.snoc hs) hrun
      refine ⟨⟨_, c, _⟩ :: tr, by rwa [List.append_cons], ?_, ?_⟩
      · rw [List.filterMap_cons_some hc, List.map_cons, hevents]
      · rw [List.filterMap_cons_some (by rw [hc]; rfl), List.map_cons, hanswers]

end Parts

/-- The server handles every message as long as the modules end. -/
theorem exists_run {I : M → Prop}
    (hexec : ∀ r h root m, p.admitted options r = some (h, root) → I m →
      ∃ m' sent, p.exec r ⟨root⟩ h m = some (m', sent) ∧ I m')
    (rs : List Request) : ∀ n : Node H M, Serving p options n.dispatcher → I n.modules →
      ∃ n' log, n.run p rs = some (n', log) ∧ I n'.modules := by
  induction rs with
  | nil => exact fun n _ hI => ⟨n, [], rfl, hI⟩
  | cons r rs ih =>
    intro n hn hI
    cases ha : p.admitted options r with
    | none =>
      obtain ⟨d, sent, hd, hstep⟩ := step_of_not_admitted hn ha
      obtain ⟨n', log, hrun, hI'⟩ := ih ⟨d, n.modules⟩ hd hI
      refine ⟨n', (r, sent) :: log, ?_, hI'⟩
      simp only [run, hstep, Option.bind_some, hrun, Option.map_some]
    | some hr =>
      obtain ⟨h, root⟩ := hr
      obtain ⟨d, hd, hstep⟩ := step_of_admitted hn ha
      obtain ⟨m', sent, he, hI'⟩ := hexec r h root n.modules ha hI
      obtain ⟨n', log, hrun, hI''⟩ := ih ⟨d, m'⟩ hd hI'
      refine ⟨n', (r, sent) :: log, ?_, hI''⟩
      simp only [run, hstep, he, Option.map_some, Option.bind_some, hrun]

/-- Two runs with the same admitted requests cannot be told apart behind the dispatcher. -/
theorem view_eq_of_admitted {rs rs' : List Request}
    (h : (rs.filter (p.isAdmitted options)) =
      rs'.filter (p.isAdmitted options)) :
    ((new p options).run p rs).map (view p options) =
      ((new p options).run p rs').map (view p options) := by
  rw [purge rs serving_new serving_new rfl, h, ← purge rs' serving_new serving_new rfl]

end Node

end Requests

end NixSrv.Server
