import NixSrv.Resolver.Registry

/-!
# The resolver's monitor

`Resolver::monitor` beside the handlers. A step is a section under the mutex, of a request or of the
monitor, or a ping, with the code up to the next section or ping.

* `Place`, `Monitor`, `Event`, `Monitor.next`, **`Monitor.system`**: states, steps and runs;
* `Monitor.Step`, **`Monitor.step_of_next`**: what a step can be;
* `nodeFails_nodePinged`, `serviceFails_servicePinged`: the counters after a ping.
-/

namespace NixSrv.Resolver

open Json Transition

/-- Where the monitor is. -/
inductive Place where
  /-- In the loop over the copy of the nodes, with what is left of the copy. -/
  | nodes (left : List (String × String))
  /-- Before the section that unbinds a node. -/
  | unbindNode (node : String) (left : List (String × String))
  /-- In the loops over the copy of the services, with the services and their members that are left.
  With none left, between two rounds. -/
  | services (left : List (String × String))
  /-- Before the section that takes a member out of a service. -/
  | eraseService (service address : String) (left : List (String × String))
  deriving DecidableEq

/-- What is left of the copy of the nodes. -/
def Place.nodesLeft : Place → List (String × String)
  | nodes left | unbindNode _ left => left
  | _ => []

inductive Event where
  | request (req : Request)
  /-- The nodes are copied. The loop visits them in the given order. -/
  | copyNodes (nodes : List (String × String))
  | pingNode (replied : Bool)
  | unbindNode
  | copyServices (services : List (String × OrderedSet String))
  | pingService (replied : Bool)
  | eraseService

/-- The step is the monitor's. -/
def Event.ofMonitor : Event → Bool
  | request _ => false
  | _ => true

structure Monitor where
  module : Resolver := {}
  place : Place := .services []
  softFailsNodes : Map String ℕ := ∅
  softFailsServices : Map (String × String) ℕ := ∅

namespace Monitor

/-- The value of `soft_fails_nodes[node]`. -/
def nodeFails (m : Monitor) (node : String) : ℕ := (m.softFailsNodes.lookup node).getD 0

/-- The value of `soft_fails_services[service][address]`. -/
def serviceFails (m : Monitor) (service address : String) : ℕ :=
  (m.softFailsServices.lookup (service, address)).getD 0

/-- The entries of a map, in some order. -/
def entriesOf {α : Type*} (m : Map String α) : List (String × α) :=
  m.entries.map fun e => (e.1, e.2)

section Steps

variable [Jsoncpp] (maxFailures : ℤ)

/-- The code after the ping of a node. -/
def nodePinged (m : Monitor) (node : String) (left : List (String × String)) (replied : Bool) :
    Monitor :=
  if replied then
    { m with softFailsNodes := m.softFailsNodes.insert node 0, place := .nodes left }
  else
    let totalFailures := m.nodeFails node + 1
    { m with
      softFailsNodes := m.softFailsNodes.insert node totalFailures
      place := if maxFailures ≤ totalFailures then .unbindNode node left else .nodes left }

/-- The code after the ping of a service. -/
def servicePinged (m : Monitor) (service address : String) (left : List (String × String))
    (replied : Bool) : Monitor :=
  if replied then
    { m with
      softFailsServices := m.softFailsServices.insert (service, address) 0
      place := .services left }
  else
    let totalFailures := m.serviceFails service address + 1
    { m with
      softFailsServices := m.softFailsServices.insert (service, address) totalFailures
      place := if maxFailures ≤ totalFailures then .eraseService service address left
        else .services left }

/-- The statement `services_[service].erase(address)`. -/
def eraseMember (r : Resolver) (service address : String) : Resolver :=
  { r with services := r.services.insert service ((r.membersOf service).erase address) }

/-- The services and members the two loops visit, one after another. -/
def visits (services : List (String × OrderedSet String)) : List (String × String) :=
  services.flatMap fun s => s.2.toList.map fun address => (s.1, address)

def next (m : Monitor) (e : Event) : Option Monitor :=
  match e, m.place with
  | .request req, _ => (Resolver.next m.module req).map fun r => { m with module := r }
  | .copyNodes nodes, .services [] =>
    if nodes.Perm (entriesOf m.module.nodes) then some { m with place := .nodes nodes } else none
  | .pingNode replied, .nodes ((node, _) :: left) =>
    some (m.nodePinged maxFailures node left replied)
  | .unbindNode, .unbindNode node left =>
    some { m with module := m.module.unbindNode node, place := .nodes left }
  | .copyServices services, .nodes [] =>
    if services.Perm (entriesOf m.module.services) then
      some { m with place := .services (visits services) }
    else none
  | .pingService replied, .services ((service, address) :: left) =>
    some (m.servicePinged maxFailures service address left replied)
  | .eraseService, .eraseService service address left =>
    some { m with module := eraseMember m.module service address, place := .services left }
  | _, _ => none

/-- **The resolver and its monitor as a transition system**, for every number of failures after
which the monitor removes. -/
def system : Transition.System Monitor Event := .ofNext {} (next maxFailures)

/-- A step of a run. -/
abbrev Move := Transition.Move Monitor Event

/-- What a step can be. -/
inductive Step (m : Monitor) : Event → Monitor → Prop
  | request (req : Request) (r : Resolver) : Resolver.system.step m.module req r →
      Step m (.request req) { m with module := r }
  | copyNodes (nodes : List (String × String)) : m.place = .services [] →
      nodes.Perm (entriesOf m.module.nodes) →
      Step m (.copyNodes nodes) { m with place := .nodes nodes }
  | pingNode (node address : String) (left : List (String × String)) (replied : Bool) :
      m.place = .nodes ((node, address) :: left) →
      Step m (.pingNode replied) (m.nodePinged maxFailures node left replied)
  | unbindNode (node : String) (left : List (String × String)) : m.place = .unbindNode node left →
      Step m .unbindNode { m with module := m.module.unbindNode node, place := .nodes left }
  | copyServices (services : List (String × OrderedSet String)) : m.place = .nodes [] →
      services.Perm (entriesOf m.module.services) →
      Step m (.copyServices services) { m with place := .services (visits services) }
  | pingService (service address : String) (left : List (String × String)) (replied : Bool) :
      m.place = .services ((service, address) :: left) →
      Step m (.pingService replied) (m.servicePinged maxFailures service address left replied)
  | eraseService (service address : String) (left : List (String × String)) :
      m.place = .eraseService service address left →
      Step m .eraseService
        { m with module := eraseMember m.module service address, place := .services left }

variable {maxFailures}

/-- **The inversion of a step.** -/
theorem step_of_next {m m' : Monitor} {e : Event} (h : next maxFailures m e = some m') :
    Step maxFailures m e m' := by
  unfold next at h
  split at h
  · obtain ⟨r, hr, rfl⟩ := Option.map_eq_some_iff.mp h
    exact .request _ r hr
  · rename_i nodes hp
    split_ifs at h with hperm
    cases h
    exact .copyNodes nodes hp hperm
  · rename_i hp
    cases h
    exact .pingNode _ _ _ _ hp
  · rename_i hp
    cases h
    exact .unbindNode _ _ hp
  · rename_i services hp
    split_ifs at h with hperm
    cases h
    exact .copyServices services hp hperm
  · rename_i hp
    cases h
    exact .pingService _ _ _ _ hp
  · rename_i hp
    cases h
    exact .eraseService _ _ _ hp
  · cases h

omit [Jsoncpp]

variable (m : Monitor) (node service address : String) (left : List (String × String))
  (replied : Bool)

/-! ## After a ping -/

@[simp] theorem module_nodePinged :
    (m.nodePinged maxFailures node left replied).module = m.module := by
  unfold nodePinged
  split_ifs <;> rfl

@[simp] theorem softFailsServices_nodePinged :
    (m.nodePinged maxFailures node left replied).softFailsServices = m.softFailsServices := by
  unfold nodePinged
  split_ifs <;> rfl

theorem nodeFails_nodePinged (other : String) :
    (m.nodePinged maxFailures node left replied).nodeFails other =
      if other = node then (if replied then 0 else m.nodeFails node + 1)
      else m.nodeFails other := by
  unfold nodePinged nodeFails
  split_ifs <;> simp [Map.lookup_insert, *]

@[simp] theorem module_servicePinged :
    (m.servicePinged maxFailures service address left replied).module = m.module := by
  unfold servicePinged
  split_ifs <;> rfl

@[simp] theorem softFailsNodes_servicePinged :
    (m.servicePinged maxFailures service address left replied).softFailsNodes =
      m.softFailsNodes := by
  unfold servicePinged
  split_ifs <;> rfl

theorem serviceFails_servicePinged (service' address' : String) :
    (m.servicePinged maxFailures service address left replied).serviceFails service' address' =
      if service' = service ∧ address' = address then
        (if replied then 0 else m.serviceFails service address + 1)
      else m.serviceFails service' address' := by
  unfold servicePinged serviceFails
  split_ifs <;> simp_all [Map.lookup_insert]

end Steps

section Sample

attribute [local instance] Jsoncpp.integral

/-- The run of the given events, and the state after it. -/
abbrev runOf (maxFailures : ℤ) (events : List Event) : List Move × Monitor :=
  traceOf (next maxFailures) {} events

end Sample

end Monitor

end NixSrv.Resolver
