import NixSrv.Server.Accounting

/-!
# Routes that are found and requests that are refused

* `register`, `registrations`, `lookup_register`: the table of routes after any registrations;
* `ExactRoute`, `FirstIsOwn`, **`exactRoute_iff`**: when a message finds a route of its own object;
* `OrderlyRefusal`, **`orderlyRefusal_iff`**: when a request without access is refused in order.
-/

namespace NixSrv.Server.Dispatcher

open Json

variable {H : Type*}

/-! ## Registrations -/

/-- Calls of `add_route`. -/
def register (d : Dispatcher H) (regs : List (String × Route H)) : Dispatcher H :=
  regs.foldl (fun d it => d.addRoute it.1 it.2) d

/-- Calls of `add_routes`. -/
def registerAll (d : Dispatcher H) (calls : List (String × List (Route H))) : Dispatcher H :=
  calls.foldl (fun d call => d.addRoutes call.1 call.2) d

/-- The calls of `add_route` of the constructor and of calls of `add_routes`. -/
def registrations (calls : List (String × List (Route H))) : List (String × Route H) :=
  (builtinStatusObjectName, serverStatusRoute H) ::
    calls.flatMap fun call => call.2.map (call.1, ·)

/-- The first registration of a full route. -/
def firstOf (regs : List (String × Route H)) (full : String) : Option (String × Route H) :=
  regs.find? fun it => fullRoute it.1 it.2.route = full

/-- A message finds a route exactly when its object has one of its name, and then finds such a
route, whose requests its object has counters for. -/
structure ExactRoute (d : Dispatcher H) (regs : List (String × Route H))
    (objectName messageName : String) : Prop where
  found_iff : (∃ route, d.routing.lookup (fullRoute objectName messageName) = some route) ↔
    ∃ route, (objectName, route) ∈ regs ∧ route.route = messageName
  own : ∀ route, d.routing.lookup (fullRoute objectName messageName) = some route →
    (objectName, route) ∈ regs ∧ route.route = messageName
  counters : ∀ route, d.routing.lookup (fullRoute objectName messageName) = some route →
    objectName ∈ d.statsByModule

/-- The first registration of the full route of a message is one of its own object. -/
def FirstIsOwn (regs : List (String × Route H)) (objectName messageName : String) : Prop :=
  ∀ it ∈ firstOf regs (fullRoute objectName messageName), it.1 = objectName

instance (regs : List (String × Route H)) (objectName messageName : String) :
    Decidable (FirstIsOwn regs objectName messageName) := by
  unfold FirstIsOwn; infer_instance

theorem addRoutes_eq_register (d : Dispatcher H) (module : String) (routes : List (Route H)) :
    d.addRoutes module routes = d.register (routes.map (module, ·)) := by
  rw [register, List.foldl_map]
  rfl

theorem registerAll_eq_register (d : Dispatcher H) (calls : List (String × List (Route H))) :
    d.registerAll calls = d.register (calls.flatMap fun call => call.2.map (call.1, ·)) := by
  induction calls generalizing d with
  | nil => rfl
  | cons call calls ih =>
    rw [registerAll, List.foldl_cons, ← registerAll, ih, addRoutes_eq_register, List.flatMap_cons,
      register, register, register, List.foldl_append]

theorem firstOf_cons (it : String × Route H) (regs : List (String × Route H)) (full : String) :
    firstOf (it :: regs) full =
      if fullRoute it.1 it.2.route = full then some it else firstOf regs full := by
  rw [firstOf, List.find?_cons]
  split_ifs with h <;> simp [h, firstOf]

/-- **The route found is the first one registered.** -/
theorem lookup_register (d : Dispatcher H) (regs : List (String × Route H)) (full : String) :
    (d.register regs).routing.lookup full =
      (d.routing.lookup full).or ((firstOf regs full).map (·.2)) := by
  induction regs generalizing d with
  | nil => exact (Option.or_none).symm
  | cons it regs ih =>
    rw [register, List.foldl_cons, ← register, ih, firstOf_cons, addRoute, Map.lookup_emplace]
    by_cases h : full = fullRoute it.1 it.2.route
    · subst h
      cases d.routing.lookup (fullRoute it.1 it.2.route) <;> simp
    · simp [h, Ne.symm h]

theorem mem_statsByModule_register (d : Dispatcher H) (regs : List (String × Route H))
    (module : String) : module ∈ (d.register regs).statsByModule ↔
      module ∈ d.statsByModule ∨ ∃ it ∈ regs, it.1 = module := by
  induction regs generalizing d with
  | nil => simp [register]
  | cons it regs ih =>
    rw [register, List.foldl_cons, ← register, ih, mem_statsByModule_addRoute]
    simp only [List.mem_cons, exists_eq_or_imp, eq_comm (a := module)]
    tauto

/-- The tables after the constructor and calls of `add_routes`. -/
theorem registerAll_new (options : Options) (calls : List (String × List (Route H))) :
    (registerAll (new H options) calls) = register
      { auth := .new options.developmentMode, options } (registrations calls) := by
  rw [registerAll_eq_register, registrations, register, register, List.foldl_cons]
  rfl

/-- Names on both sides of the colons that agree on one side agree on the other. -/
theorem fullRoute_left_inj {module module' route : String} :
    fullRoute module route = fullRoute module' route ↔ module = module' := by
  refine ⟨fun h => String.toList_injective ?_, fun h => by rw [h]⟩
  have hl := congrArg String.toList h
  rw [toList_fullRoute, toList_fullRoute] at hl
  exact List.append_cancel_right hl

theorem fullRoute_right_inj {module route route' : String} :
    fullRoute module route = fullRoute module route' ↔ route = route' := by
  refine ⟨fun h => String.toList_injective ?_, fun h => by rw [h]⟩
  have hl := congrArg String.toList h
  rw [toList_fullRoute, toList_fullRoute] at hl
  simpa using hl

/-- The route found for a full route. -/
theorem lookup_registerAll_new (options : Options) (calls : List (String × List (Route H)))
    (full : String) : (registerAll (new H options) calls).routing.lookup full =
      (firstOf (registrations calls) full).map (·.2) := by
  rw [registerAll_new, lookup_register]
  exact Option.none_or

theorem fullRoute_of_firstOf {regs : List (String × Route H)} {full : String}
    {it : String × Route H} (h : firstOf regs full = some it) :
    fullRoute it.1 it.2.route = full := by
  simpa using List.find?_some h

/-- When a message finds the routes of its own object only, the first one registered is of that
object. -/
theorem firstIsOwn_of_exactRoute {options : Options} {calls : List (String × List (Route H))}
    {objectName messageName : String}
    (h : ExactRoute (registerAll (new H options) calls) (registrations calls) objectName
      messageName) : FirstIsOwn (registrations calls) objectName messageName := by
  intro it hit
  have hfull := fullRoute_of_firstOf hit
  obtain ⟨-, hroute⟩ := h.own it.2
    (by rw [lookup_registerAll_new, Option.mem_def.mp hit, Option.map_some])
  rw [hroute] at hfull
  exact fullRoute_left_inj.mp hfull

/-- **A message finds exactly the routes of its own object when the first registration of its full
route is one of that object.** -/
theorem exactRoute_iff (options : Options) (calls : List (String × List (Route H)))
    (objectName messageName : String) :
    ExactRoute (registerAll (new H options) calls) (registrations calls) objectName messageName ↔
      FirstIsOwn (registrations calls) objectName messageName := by
  refine ⟨firstIsOwn_of_exactRoute, fun h => ?_⟩
  have hown : ∀ route, (registerAll (new H options) calls).routing.lookup
      (fullRoute objectName messageName) = some route →
        (objectName, route) ∈ registrations calls ∧ route.route = messageName := by
    intro route hroute
    rw [lookup_registerAll_new] at hroute
    obtain ⟨it, hit, rfl⟩ := Option.map_eq_some_iff.mp hroute
    have hname := h it hit
    have hfull := fullRoute_of_firstOf hit
    rw [hname] at hfull
    refine ⟨?_, fullRoute_right_inj.mp hfull⟩
    rw [← hname]
    exact List.mem_of_find?_eq_some hit
  refine ⟨⟨fun ⟨route, hroute⟩ => ⟨route, hown route hroute⟩, ?_⟩, hown, ?_⟩
  · rintro ⟨route, hmem, rfl⟩
    rw [lookup_registerAll_new]
    have hsome : (firstOf (registrations calls) (fullRoute objectName route.route)).isSome = true :=
      List.find?_isSome.mpr ⟨_, hmem, by simp⟩
    obtain ⟨it, hit⟩ := Option.isSome_iff_exists.mp hsome
    exact ⟨it.2, by rw [hit, Option.map_some]⟩
  · intro route hroute
    rw [registerAll_new]
    exact (mem_statsByModule_register _ _ _).mpr (Or.inr ⟨_, (hown route hroute).1, rfl⟩)

/-! ## Refusals -/

section Refusals

variable [Jsoncpp]

/-- No handler runs, the one answer has the status `auth_unauthorized`, the refusal is counted for
all objects and for its own one, and the dispatch returns. -/
structure OrderlyRefusal (d : Dispatcher H) (r : Incoming) : Prop where
  ran : (d.dispatch r).ran = none
  returned : (d.dispatch r).ending = .returned
  answered : ∃ root, (d.dispatch r).sent = [.replied (some root)] ∧
    (Response.new (.replied (some root))).getStatusCode = StatusCode.authUnauthorized.toInt
  counted : (d.dispatch r).state.stats.authErrors = d.stats.authErrors + 1
  countedByModule : ∃ stats stats', d.statsByModule.lookup r.objectName = some stats ∧
    (d.dispatch r).state.statsByModule.lookup r.objectName = some stats' ∧
    stats'.authErrors = stats.authErrors + 1

/-- **A request without access to the route it finds is refused in order exactly when its object has
counters and the root of its document takes members.** -/
theorem orderlyRefusal_iff {d : Dispatcher H} {r : Incoming} {route : Route H} {root : Value}
    (hroute : d.routing.lookup (fullRoute r.objectName r.messageName) = some route)
    (hp : r.payload.root? = some root)
    (hv : (d.auth.checkAccess ⟨root⟩ route.am).1.authorized = false) :
    OrderlyRefusal d r ↔ r.objectName ∈ d.statsByModule ∧ Message.Writable ⟨root⟩ := by
  by_cases hm : r.objectName ∈ d.statsByModule
  swap
  · refine iff_of_false (fun h => ?_) fun h => hm h.1
    have hret := h.returned
    rw [dispatch_of_notMem hroute hm] at hret
    cases hret
  have h := dispatch_cases (d.countRequest.countModuleRequest r.objectName) route r
  have he := dispatch_of_mem hroute hm
  generalize hd : dispatchTo _ route r = o at h he
  rw [and_iff_right hm]
  cases h with
  | unparsed hp' => rw [hp] at hp'; cases hp'
  | published root' hp' hv' | handled root' hp' hv' =>
    rw [hp] at hp'
    cases hp'
    have hno : true = false := hv'.symm.trans hv
    cases hno
  | refusalThrows root' hp' hv' hw =>
    rw [hp] at hp'
    cases hp'
    refine iff_of_false (fun h => ?_) hw
    have hret := h.returned
    rw [he] at hret
    cases hret
  | refused root' hp' hv' hw =>
    rw [hp] at hp'
    cases hp'
    refine iff_of_true ?_ hw
    obtain ⟨stats, hl⟩ := Map.exists_lookup hm
    have hlook : (d.dispatch r).state.statsByModule.lookup r.objectName = some { stats with
        requests := stats.requests + 1, authErrors := stats.authErrors + 1 } := by
      rw [he]
      change AList.lookup _ (Map.modify _ _ (Map.modify _ _ d.statsByModule)) = _
      rw [Map.lookup_modify, if_pos rfl, Map.lookup_modify, if_pos rfl, hl]
      rfl
    refine ⟨by rw [he], by rw [he], ⟨_, by rw [he], ?_⟩, by rw [he]; rfl, stats, _, hl, hlook, rfl⟩
    exact (decodes_of_lookup (lookup_setStatus [] .authUnauthorized _)).code

end Refusals

section Sample

attribute [local instance] Jsoncpp.integral

/-- A module registers the given route under the given ident. -/
def registering (module route : String) : Dispatcher Unit :=
  registerAll (new Unit developmentServer) [(module, [privateRoute route])]

/-- A request with the given document. -/
def requestTo (objectName messageName : String) (document : Value) : Incoming :=
  { objectName, messageName, payload := .json document }

theorem orderlyRefusal_null :
    OrderlyRefusal (registering "Cache" "store") (requestTo "Cache" "store" .null) := by
  have hroute : (registering "Cache" "store").routing.lookup (fullRoute "Cache" "store") =
      some (privateRoute "store") := by decide
  exact (orderlyRefusal_iff hroute rfl (by decide)).mpr ⟨by decide, Or.inl rfl⟩

/-- An exception leaves the refusal of a request whose document is an array. -/
theorem not_orderlyRefusal_array :
    (requestTo "Cache" "store" (.array [])).payload.root? = some (.array []) ∧
      ((registering "Cache" "store").auth.checkAccess ⟨.array []⟩ .apiPrivate).1.authorized =
        false ∧
      ((registering "Cache" "store").dispatch (requestTo "Cache" "store" (.array []))).ending =
        .thrown ∧
      ¬ OrderlyRefusal (registering "Cache" "store") (requestTo "Cache" "store" (.array [])) := by
  have hthrown : ((registering "Cache" "store").dispatch
      (requestTo "Cache" "store" (.array []))).ending = .thrown := by decide
  refine ⟨rfl, by decide, hthrown, fun h => ?_⟩
  have hret := h.returned
  rw [hthrown] at hret
  cases hret

/-- A message to an object that is not registered finds a route of another one, and a null pointer
is dereferenced. -/
theorem not_exactRoute_colons :
    ((registering "A" "x::y").dispatch (requestTo "A::x" "y" .null)).ending = .undefined ∧
      ¬ ExactRoute (registering "A" "x::y") (registrations [("A", [privateRoute "x::y"])])
        "A::x" "y" := by
  refine ⟨by decide, fun h => ?_⟩
  exact absurd (firstIsOwn_of_exactRoute h) (by decide)

end Sample

end NixSrv.Server.Dispatcher
