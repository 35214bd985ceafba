import NixSrv.Records
import NixSrv.Server.Routing

/-!
# The routes a module reports

* `Module`, `Module.routes`, `listRoutes`: `nix::Module` with the two routes of its base class;
* `serving`: the dispatcher after modules have been registered;
* `Advertised`: a module reports the routes that the dispatcher uses;
* `Consistent`, **`advertised_iff`**: when it does.
-/

namespace NixSrv

open Json Message Util

def strProcessingType : ProcessingType → String
  | .void => "VOID"
  | .sync => "SYNC"
  | .async => "ASYNC"
  | .future => "FUTURE"
  | .publish => "PUBLISH"

def strAccessModifier : AccessModifier → String
  | .any => "ANY"
  | .public_ => "PUBLIC"
  | .apiPrivate => "API_PRIVATE"
  | .admin => "ADMIN"

theorem strProcessingType_injective {v v' : ProcessingType}
    (h : strProcessingType v = strProcessingType v') : v = v' := by
  cases v <;> cases v' <;> first | rfl | exact absurd h (by decide)

theorem strAccessModifier_injective {v v' : AccessModifier}
    (h : strAccessModifier v = strAccessModifier v') : v = v' := by
  cases v <;> cases v' <;> first | rfl | exact absurd h (by decide)

namespace Server

/-- What the routes of a module are bound to; `H` are the handlers of its own. -/
inductive ModuleHandler (H : Type*) where
  | listRoutes
  | isAlive
  | own (handler : H)
  deriving DecidableEq

/-- The routes of a module. -/
abbrev ModuleRoute (H : Type*) := Route (ModuleHandler H)

/-- A module, with the routes that its class adds to those of the base class. -/
structure Module (H : Type*) where
  ident : String
  version : ℤ := 0
  ownRoutes : List (ModuleRoute H) := []

namespace Module

variable {H : Type*} (m : Module H)

/-- `routes_`, where the constructor of the base class comes first. -/
def routes : List (ModuleRoute H) :=
  [{ route := "list_routes"
     handler := .module .listRoutes
     am := .any
     processingType := .sync
     description := "Display all routes handled by '" ++ m.ident ++ "' module" },
    { route := "ping", handler := .module .isAlive, am := .any, processingType := .sync }] ++
    m.ownRoutes

/-- The document `list_routes` fills in. -/
def routesDocument : Except WriteError Members := do
  let out ← Members.set [] "module.ident" (.string m.ident)
  let out ← out.set "module.version" (.int m.version)
  m.routes.foldlM (fun out it => do
    let prefix_ := "routing." ++ it.route
    let out ← Members.set out (prefix_ ++ ".access_modifier") (.string (strAccessModifier it.am))
    let out ← out.set (prefix_ ++ ".processing_type")
      (.string (strProcessingType it.processingType))
    out.set (prefix_ ++ ".description") (.string it.description)) out

def listRoutes (msg : IncomingMessage) : Handled (Module H) := replyWritten m msg m.routesDocument

/-- The call of `add_routes` that registers the module. -/
def registration : String × List (ModuleRoute H) := (m.ident, m.routes)

end Module

/-- The dispatcher after modules have been registered, in the given order. -/
def serving {H : Type*} (options : Options) (modules : List (Module H)) :
    Dispatcher (ModuleHandler H) :=
  .registerAll (.new _ options) (modules.map Module.registration)

variable {H : Type*}

/-- The reply to `list_routes` has for each route name of the module the access modifier and the
processing type of the route that the dispatcher uses. -/
structure Advertised (d : Dispatcher (ModuleHandler H)) (m : Module H) (msg : IncomingMessage) :
    Prop where
  returned : (m.listRoutes msg).ending = .returned
  reply : ∃ out, (m.listRoutes msg).sent = [⟨msg.handle, .reply out⟩] ∧
    ∀ name ∈ m.routes.map Route.route, ∃ route,
      d.routing.lookup (Dispatcher.fullRoute m.ident name) = some route ∧
      (ofMembers out).find ("routing." ++ name ++ ".access_modifier") =
        some (.string (strAccessModifier route.am)) ∧
      (ofMembers out).find ("routing." ++ name ++ ".processing_type") =
        some (.string (strProcessingType route.processingType))

/-- The fields of a route in the report. -/
def reportedFields : List String := ["access_modifier", "processing_type", "description"]

/-- No route has a name that leads through a field of another one, and for each route the last one
whose name has the same segments is like the first registration of its full route. -/
structure Consistent (regs : List (String × ModuleRoute H)) (m : Module H) : Prop where
  apart : NamesApart reportedFields (m.routes.map Route.route)
  same : ∀ it ∈ m.routes, ∀ last ∈ lastNamed Route.route m.routes (segments it.route),
    ∀ first ∈ Dispatcher.firstOf regs (Dispatcher.fullRoute m.ident it.route),
      last.am = first.2.am ∧ last.processingType = first.2.processingType

/-! ## The assignments -/

/-- The fields of a route with their values. -/
def routeValues : List (String × (ModuleRoute H → Value)) :=
  [("access_modifier", fun it => .string (strAccessModifier it.am)),
    ("processing_type", fun it => .string (strProcessingType it.processingType)),
    ("description", fun it => .string it.description)]

/-- The assignments for the module itself. -/
def moduleWrites (m : Module H) : List (String × Value) :=
  [("module.ident", .string m.ident), ("module.version", .int m.version)]

/-- The assignments of `list_routes`. -/
def listWrites (m : Module H) : List (String × Value) :=
  moduleWrites m ++ m.routes.flatMap (recordWrites "routing" Route.route routeValues)

/-- The assignments for a route. -/
theorem writes_routeValues (it : ModuleRoute H) (out : Members) :
    writes (recordWrites "routing" Route.route routeValues it) out = (do
      let prefix_ := "routing." ++ it.route
      let out ← Members.set out (prefix_ ++ ".access_modifier") (.string (strAccessModifier it.am))
      let out ← out.set (prefix_ ++ ".processing_type")
        (.string (strProcessingType it.processingType))
      out.set (prefix_ ++ ".description") (.string it.description)) := by
  simp only [recordWrites, routeValues, List.map_cons, List.map_nil, recordKey_eq]
  rw [writes_cons]
  refine congrArg (Except.bind _) (funext fun out₁ => ?_)
  rw [writes_cons]
  refine congrArg (Except.bind _) (funext fun out₂ => ?_)
  exact writes_singleton _ _

/-- **The report is made by its assignments.** -/
theorem writes_listWrites (m : Module H) : writes (listWrites m) [] = m.routesDocument := by
  have hloop := foldlM_writes (recordWrites "routing" Route.route routeValues) m.routes
  simp only [writes_routeValues] at hloop
  rw [listWrites, moduleWrites, List.cons_append, List.cons_append, List.nil_append, writes_cons,
    Module.routesDocument]
  refine congrArg (Except.bind _) (funext fun out₁ => ?_)
  rw [writes_cons]
  exact congrArg (Except.bind _) (funext fun out₂ => (hloop out₂).symm)

theorem segments_routing : segments "routing" = ["routing"] := by decide

theorem segments_reportedFields : ∀ f ∈ reportedFields, segments f = [f] := by decide

theorem segments_routeValues :
    ∀ f ∈ routeValues (H := H), segments f.1 = [f.1] := fun _ hf =>
  segments_reportedFields _ (List.mem_map_of_mem (f := Prod.fst) hf)

theorem nodup_routeValues : ((routeValues (H := H)).map Prod.fst).Nodup :=
  (by decide : reportedFields.Nodup)

theorem segments_of_mem_moduleWrites {m : Module H} {w : String × Value}
    (hw : w ∈ moduleWrites m) : ∃ f, segments w.1 = ["module", f] := by
  simp only [moduleWrites, List.mem_cons, List.not_mem_nil, or_false] at hw
  rcases hw with rfl | rfl
  · exact ⟨"ident", (by decide : segments "module.ident" = ["module", "ident"])⟩
  · exact ⟨"version", (by decide : segments "module.version" = ["module", "version"])⟩

theorem outsideTable_of_mem_moduleWrites {m : Module H} {w : String × Value}
    (hw : w ∈ moduleWrites m) : OutsideTable "routing" w := by
  obtain ⟨f, hf⟩ := segments_of_mem_moduleWrites hw
  rw [OutsideTable, hf]
  exact ⟨List.cons_ne_nil _ _, by simp⟩

theorem mem_listWrites {m : Module H} {w : String × Value} : w ∈ listWrites m ↔
    w ∈ moduleWrites m ∨
      ∃ it ∈ m.routes, w ∈ recordWrites "routing" Route.route routeValues it := by
  rw [listWrites, List.mem_append, List.mem_flatMap]

theorem leaves_listWrites (m : Module H) : Leaves (listWrites m) := by
  intro w hw
  rcases mem_listWrites.mp hw with hw | ⟨it, -, hw⟩
  · refine ⟨(outsideTable_of_mem_moduleWrites hw).1, ?_⟩
    simp only [moduleWrites, List.mem_cons, List.not_mem_nil, or_false] at hw
    rcases hw with rfl | rfl <;> rfl
  · obtain ⟨f, hf, rfl⟩ := mem_recordWrites.mp hw
    refine ⟨?_, ?_⟩
    · rw [segments_recordKey segments_routing (segments_routeValues f hf)]
      exact List.cons_ne_nil _ _
    · simp only [routeValues, List.mem_cons, List.not_mem_nil, or_false] at hf
      rcases hf with rfl | rfl | rfl <;> rfl

/-- Where the names are apart, the assignments do not lead through one another. -/
theorem noneThrough_listWrites {m : Module H}
    (h : NamesApart reportedFields (m.routes.map Route.route)) : NoneThrough (listWrites m) := by
  have hheads : NoneThrough (moduleWrites m) :=
    noneThrough_of_length (n := 2) fun w hw => by
      obtain ⟨f, hf⟩ := segments_of_mem_moduleWrites hw
      rw [hf]
      rfl
  exact noneThrough_of_namesApart segments_routing segments_reportedFields hheads
    (fun w => outsideTable_of_mem_moduleWrites)
    (fun w hw => (mem_listWrites.mp hw).imp_right fun ⟨it, hit, hw⟩ =>
      inTable_of_mem_recordWrites hw hit) h

/-! ## Reading the report -/

/-- The keys of the code are those of a table of records. -/
theorem recordKey_routing (name : String) :
    recordKey "routing" name "access_modifier" = "routing." ++ name ++ ".access_modifier" ∧
      recordKey "routing" name "processing_type" = "routing." ++ name ++ ".processing_type" :=
  ⟨recordKey_eq _ _ _, recordKey_eq _ _ _⟩

/-- What is read of a report that was sent is what was written. -/
theorem find_report {f : String} (hf : f ∈ reportedFields) (out : Members) (name : String) :
    (ofMembers (out.setStatusCode .ok)).find (recordKey "routing" name f) =
      findFrom (segments (recordKey "routing" name f)) (.object out) :=
  find_setStatusCode (segments_recordKey segments_routing (segments_reportedFields f hf) name)
    (by decide) out .ok

/-- The value of a field in a report on routes whose names are apart. -/
theorem findFrom_of_namesApart {m : Module H} {out : Members}
    (h : NamesApart reportedFields (m.routes.map Route.route))
    (hout : writes (listWrites m) [] = .ok out) {it last : ModuleRoute H} (hit : it ∈ m.routes)
    (hlast : lastNamed Route.route m.routes (segments it.route) = some last)
    {f : String × (ModuleRoute H → Value)} (hf : f ∈ routeValues) :
    findFrom (segments (recordKey "routing" it.route f.1)) (.object out) = some (f.2 last) := by
  obtain ⟨out', hout', hv, -⟩ := find_of_writes (leaves_listWrites m) (noneThrough_listWrites h)
  cases hout.symm.trans hout'
  have hmem : (recordKey "routing" it.route f.1, f.2 it) ∈ listWrites m :=
    mem_listWrites.mpr (Or.inr ⟨it, hit, mem_recordWrites.mpr ⟨f, hf, rfl⟩⟩)
  rw [hv _ hmem, listWrites, lastWritten_records segments_routing segments_routeValues
    nodup_routeValues (fun w => outsideTable_of_mem_moduleWrites) hf, hlast, Option.map_some]

/-- The dispatcher uses the first registration of a route. -/
theorem lookup_serving (options : Options) {modules : List (Module H)} {m : Module H}
    (hm : m ∈ modules) {it : ModuleRoute H} (hit : it ∈ m.routes) :
    ∃ first, Dispatcher.firstOf (Dispatcher.registrations (modules.map Module.registration))
        (Dispatcher.fullRoute m.ident it.route) = some first ∧
      (serving options modules).routing.lookup (Dispatcher.fullRoute m.ident it.route) =
        some first.2 := by
  have hmem : (m.ident, it) ∈
      Dispatcher.registrations (modules.map Module.registration) :=
    List.mem_cons_of_mem _ (List.mem_flatMap.mpr
      ⟨m.registration, List.mem_map_of_mem hm, List.mem_map_of_mem hit⟩)
  have hsome : (Dispatcher.firstOf (Dispatcher.registrations (modules.map Module.registration))
      (Dispatcher.fullRoute m.ident it.route)).isSome = true :=
    List.find?_isSome.mpr ⟨_, hmem, by simp⟩
  obtain ⟨first, hfirst⟩ := Option.isSome_iff_exists.mp hsome
  exact ⟨first, hfirst, by rw [serving, Dispatcher.lookup_registerAll_new, hfirst, Option.map_some]⟩

/-! ## When the report holds the routes in use -/

section Modules

variable {options : Options} {modules : List (Module H)} {m : Module H} (hm : m ∈ modules)
  {msg : IncomingMessage}

theorem accessModifier_mem : (("access_modifier", fun it => .string (strAccessModifier it.am)) :
    String × (ModuleRoute H → Value)) ∈ routeValues := List.mem_cons_self

theorem processingType_mem :
    (("processing_type", fun it => .string (strProcessingType it.processingType)) :
      String × (ModuleRoute H → Value)) ∈ routeValues := List.mem_cons_of_mem _ List.mem_cons_self

include hm

/-- A module with consistent routes reports those in use. -/
theorem advertised_of_consistent
    (h : Consistent (Dispatcher.registrations (modules.map Module.registration)) m) :
    Advertised (serving options modules) m msg := by
  obtain ⟨out, hout, -⟩ := find_of_writes (leaves_listWrites m) (noneThrough_listWrites h.apart)
  have hrun : m.listRoutes msg = { state := m, sent := [msg.reply out] } := by
    rw [Module.listRoutes, ← writes_listWrites, hout]
    rfl
  refine ⟨by rw [hrun], out.setStatusCode .ok, by rw [hrun]; rfl, fun name hname => ?_⟩
  obtain ⟨it, hit, rfl⟩ := List.mem_map.mp hname
  obtain ⟨first, hfirst, hlookup⟩ := lookup_serving options hm hit
  obtain ⟨last, -, hlast⟩ := exists_lastNamed Route.route hit
  obtain ⟨ham, hpt⟩ := h.same it hit last hlast first hfirst
  have ham' := findFrom_of_namesApart h.apart hout hit hlast accessModifier_mem
  have hpt' := findFrom_of_namesApart h.apart hout hit hlast processingType_mem
  refine ⟨first.2, hlookup, ?_, ?_⟩
  · rw [← ham, ← (recordKey_routing it.route).1, find_report (by decide)]
    exact ham'
  · rw [← hpt, ← (recordKey_routing it.route).2, find_report (by decide)]
    exact hpt'

/-- A module that reports the routes in use has consistent routes. -/
theorem consistent_of_advertised (h : Advertised (serving options modules) m msg) :
    Consistent (Dispatcher.registrations (modules.map Module.registration)) m := by
  obtain ⟨-, m', hsent, hread⟩ := h
  obtain ⟨out, hdoc, rfl⟩ := exists_of_sent_replyWritten hsent
  have hout : writes (listWrites m) [] = .ok out := (writes_listWrites m).trans hdoc
  have hfields : ∀ it ∈ m.routes, ∃ route : ModuleRoute H,
      (serving options modules).routing.lookup (Dispatcher.fullRoute m.ident it.route) =
        some route ∧
      findFrom (segments (recordKey "routing" it.route "access_modifier")) (.object out) =
        some (.string (strAccessModifier route.am)) ∧
      findFrom (segments (recordKey "routing" it.route "processing_type")) (.object out) =
        some (.string (strProcessingType route.processingType)) := by
    intro it hit
    obtain ⟨route, hroute, ham, hpt⟩ := hread it.route (List.mem_map_of_mem hit)
    rw [← (recordKey_routing it.route).1, find_report (by decide)] at ham
    rw [← (recordKey_routing it.route).2, find_report (by decide)] at hpt
    exact ⟨route, hroute, ham, hpt⟩
  have hapart : NamesApart reportedFields (m.routes.map Route.route) := by
    refine namesApart_of_read segments_routing segments_reportedFields (leaves_listWrites m) hout
      (fun name hname f hf => ?_) (fun name hname => ?_)
    · obtain ⟨it, hit, rfl⟩ := List.mem_map.mp hname
      obtain ⟨fv, hfv, rfl⟩ :=
        List.mem_map.mp (show f ∈ (routeValues (H := H)).map Prod.fst from hf)
      exact ⟨fv.2 it, mem_listWrites.mpr (Or.inr ⟨it, hit, mem_recordWrites.mpr ⟨fv, hfv, rfl⟩⟩)⟩
    · obtain ⟨it, hit, rfl⟩ := List.mem_map.mp hname
      obtain ⟨route, -, ham, -⟩ := hfields it hit
      exact ⟨"access_modifier", by decide, by rw [ham]; exact Option.some_ne_none _⟩
  refine ⟨hapart, fun it hit last hlast first hfirst => ?_⟩
  obtain ⟨route, hroute, ham, hpt⟩ := hfields it hit
  obtain ⟨first', hfirst', hlookup⟩ := lookup_serving options hm hit
  cases hfirst.symm.trans hfirst'
  cases hroute.symm.trans hlookup
  have ham' := findFrom_of_namesApart hapart hout hit hlast accessModifier_mem
  have hpt' := findFrom_of_namesApart hapart hout hit hlast processingType_mem
  have ham'' := Value.string.inj (Option.some.inj (ham'.symm.trans ham))
  have hpt'' := Value.string.inj (Option.some.inj (hpt'.symm.trans hpt))
  exact ⟨strAccessModifier_injective ham'', strProcessingType_injective hpt''⟩

/-- **A module reports for each of its route names what the dispatcher uses exactly when its routes
are consistent.** -/
theorem advertised_iff : Advertised (serving options modules) m msg ↔
    Consistent (Dispatcher.registrations (modules.map Module.registration)) m :=
  ⟨consistent_of_advertised hm, advertised_of_consistent hm⟩

end Modules

section Sample

attribute [local instance] Jsoncpp.integral

/-- A module with a route of its own. -/
def moduleWith (ident route : String) : Module Unit where
  ident := ident
  ownRoutes := [{ route, handler := .module (.own ()) }]

/-- A request for the routes. -/
def routesRequest : IncomingMessage := ⟨⟨.object []⟩, 1, rfl⟩

theorem advertised_twoModules :
    Advertised (serving ⟨"node", true, 0⟩ [moduleWith "A" "x/y", moduleWith "B" "x.y"])
      (moduleWith "B" "x.y") routesRequest :=
  (advertised_iff (List.mem_cons_of_mem _ List.mem_cons_self)).mpr
    ⟨by unfold NamesApart; decide, by decide⟩

/-- A module has a route `ping` of its own, and reports that it is for holders of a private key. The
dispatcher uses the one of the base class, which is for all. -/
theorem not_advertised_ownPing :
    (((serving ⟨"node", true, 0⟩ [moduleWith "A" "ping"]).routing.lookup "A::ping").map
        Route.am = some .any) ∧
      ((moduleWith "A" "ping").listRoutes routesRequest).sent.map (fun s =>
        (s.valueUnder "routing.ping.access_modifier").bind Value.asString?) =
          [some "API_PRIVATE"] ∧
      ∀ options msg, ¬ Advertised (serving options [moduleWith "A" "ping"]) (moduleWith "A" "ping")
        msg := by
  refine ⟨by decide, by decide +kernel, fun options msg h => ?_⟩
  have hc := consistent_of_advertised List.mem_cons_self h
  exact absurd (hc.same (m := moduleWith "A" "ping")) (by decide)

end Sample

end Server

end NixSrv
