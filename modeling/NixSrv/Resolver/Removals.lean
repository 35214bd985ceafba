import NixSrv.Lib.Watchdog
import NixSrv.Resolver.Monitor

/-!
# What the monitor removes

Both checks of the monitor are watchdogs, with the names of the nodes and the members of the
services as keys.

* `nodeLabel`, `nodeWatch`, `simulates_nodes`: the check of the nodes;
* `serviceLabel`, `serviceWatch`, `simulates_services`: the check of the services;
* **`node_removals`**: how often a run has unbound a node since a ping of it was last answered;
* **`service_removals`**: how often it has taken a member out of a service.
-/

namespace NixSrv.Resolver

open Json Transition

/-- The node the monitor is about to unbind. -/
def Place.unbinding : Place → Option String
  | unbindNode node _ => some node
  | _ => none

/-- The services and members the monitor has still to ping in this round. -/
def Place.servicesLeft : Place → List (String × String)
  | services left | eraseService _ _ left => left
  | _ => []

/-- The service and the member the monitor is about to take out of it. -/
def Place.erasing : Place → Option (String × String)
  | eraseService service address _ => some (service, address)
  | _ => none

namespace Monitor

/-! ## The check of the nodes -/

/-- What a step is to the check of the nodes. -/
def nodeLabel (m : Move) : Watchdog.Label String :=
  match m.event, m.pre.place with
  | .copyNodes nodes, _ => .round (nodes.map Prod.fst)
  | .pingNode replied, .nodes ((node, _) :: _) => .probe node replied
  | .unbindNode, .unbindNode node _ => .act node
  | _, _ => .other

/-- The check of the nodes, as a watchdog. -/
def nodeWatch (m : Monitor) : Watchdog.State String where
  left := m.place.nodesLeft.map Prod.fst
  acting := m.place.unbinding
  fails := m.nodeFails

/-- What a step is to the check of the services. -/
def serviceLabel (m : Move) : Watchdog.Label (String × String) :=
  match m.event, m.pre.place with
  | .copyServices services, _ => .round (visits services)
  | .pingService replied, .services (target :: _) => .probe target replied
  | .eraseService, .eraseService service address _ => .act (service, address)
  | _, _ => .other

/-- The check of the services, as a watchdog. -/
def serviceWatch (m : Monitor) : Watchdog.State (String × String) where
  left := m.place.servicesLeft
  acting := m.place.erasing
  fails target := m.serviceFails target.1 target.2

/-! ## Copies of the maps -/

theorem map_fst_entriesOf {α : Type*} (m : Map String α) :
    (entriesOf m).map Prod.fst = m.keys := by
  rw [entriesOf, List.map_map]
  rfl

/-- A copy of a map has each key once. -/
theorem nodup_copy {α : Type*} {m : Map String α} {copy : List (String × α)}
    (h : copy.Perm (entriesOf m)) : (copy.map Prod.fst).Nodup := by
  rw [(h.map Prod.fst).nodup_iff, map_fst_entriesOf]
  exact m.keys_nodup

/-- The loops visit each member of a service once. -/
theorem nodup_visits {services : List (String × OrderedSet String)}
    (h : (services.map Prod.fst).Nodup) : (visits services).Nodup := by
  refine List.nodup_flatMap.mpr ⟨fun s _ => ?_, (List.pairwise_map.mp h).imp fun hne => ?_⟩
  · exact s.2.nodup.map fun _ _ h => (Prod.mk.inj h).2
  · intro target hs ht
    obtain ⟨_, _, rfl⟩ := List.mem_map.mp hs
    obtain ⟨_, _, he⟩ := List.mem_map.mp ht
    exact hne (congrArg Prod.fst he).symm

/-! ## One ping -/

section Pings

variable (maxFailures : ℤ) (m : Monitor)

theorem nodeWatch_nodePinged (node : String) (left : List (String × String)) (replied : Bool) :
    nodeWatch (m.nodePinged maxFailures node left replied) =
      { left := left.map Prod.fst
        acting := if replied = false ∧ maxFailures.toNat ≤ m.nodeFails node + 1 then some node
          else none
        fails := Function.update m.nodeFails node
          (if replied then 0 else m.nodeFails node + 1) } := by
  have hf : (m.nodePinged maxFailures node left replied).nodeFails =
      Function.update m.nodeFails node (if replied then 0 else m.nodeFails node + 1) := by
    funext other
    rw [nodeFails_nodePinged, Function.update_apply]
  rw [nodeWatch, hf, nodePinged]
  cases replied with
  | true => rfl
  | false =>
    simp only [Bool.false_eq_true, if_false, true_and, Int.toNat_le]
    split_ifs <;> rfl

theorem serviceWatch_servicePinged (target : String × String) (left : List (String × String))
    (replied : Bool) :
    serviceWatch (m.servicePinged maxFailures target.1 target.2 left replied) =
      { left := left
        acting := if replied = false ∧
            maxFailures.toNat ≤ m.serviceFails target.1 target.2 + 1 then some target else none
        fails := Function.update (serviceWatch m).fails target
          (if replied then 0 else m.serviceFails target.1 target.2 + 1) } := by
  have hf : (fun other : String × String =>
      (m.servicePinged maxFailures target.1 target.2 left replied).serviceFails other.1 other.2) =
      Function.update (serviceWatch m).fails target
        (if replied then 0 else m.serviceFails target.1 target.2 + 1) := by
    funext other
    rw [serviceFails_servicePinged, Function.update_apply]
    exact if_congr Prod.ext_iff.symm rfl rfl
  rw [serviceWatch, hf, servicePinged]
  cases replied with
  | true => rfl
  | false =>
    simp only [Bool.false_eq_true, if_false, true_and, Int.toNat_le]
    split_ifs <;> rfl

end Pings

section Idle

variable {m m' : Monitor}

/-- A step of the other check. -/
theorem nodeWatch_eq (hl : m'.place.nodesLeft = m.place.nodesLeft)
    (hu : m'.place.unbinding = m.place.unbinding) (hf : m'.softFailsNodes = m.softFailsNodes) :
    nodeWatch m' = nodeWatch m := by
  unfold nodeWatch nodeFails
  rw [hl, hu, hf]

theorem serviceWatch_eq (hl : m'.place.servicesLeft = m.place.servicesLeft)
    (he : m'.place.erasing = m.place.erasing)
    (hf : m'.softFailsServices = m.softFailsServices) : serviceWatch m' = serviceWatch m := by
  unfold serviceWatch serviceFails
  rw [hl, he, hf]

end Idle

/-! ## The checks as watchdogs -/

section Runs

variable [Jsoncpp] {maxFailures : ℤ}

/-- **The check of the nodes is a watchdog over their names.** -/
theorem simulates_nodes : Simulates (system maxFailures)
    (Watchdog.system String maxFailures.toNat) nodeWatch nodeLabel where
  init := by
    rintro _ rfl
    rfl
  step m e m' hs := by
    change Watchdog.Step maxFailures.toNat (nodeWatch m) (nodeLabel ⟨m, e, m'⟩) (nodeWatch m')
    cases step_of_next hs with
    | request => exact .other
    | copyNodes nodes hp hperm =>
      have h : nodeWatch m = { fails := m.nodeFails } := by rw [nodeWatch, hp]; rfl
      rw [h]
      exact .round _ rfl rfl (nodup_copy hperm)
    | pingNode node address left replied hp =>
      have h1 : (nodeWatch m).left = node :: left.map Prod.fst := by rw [nodeWatch, hp]; rfl
      have h2 : (nodeWatch m).acting = none := by rw [nodeWatch, hp]; rfl
      rw [nodeWatch_nodePinged, nodeLabel]
      simp only [hp]
      exact .probe h1 h2 replied
    | unbindNode node left hp =>
      have h : nodeWatch m = ⟨left.map Prod.fst, some node, m.nodeFails⟩ := by
        rw [nodeWatch, hp]
        rfl
      rw [nodeLabel, h]
      simp only [hp]
      exact .act node rfl
    | copyServices services hp hperm =>
      exact .idle (nodeWatch_eq (by rw [hp]; rfl) (by rw [hp]; rfl) rfl)
    | pingService service address left replied hp =>
      refine .idle (nodeWatch_eq ?_ ?_ (softFailsNodes_servicePinged ..))
      all_goals
        rw [hp]
        simp only [servicePinged]
        split_ifs <;> rfl
    | eraseService service address left hp =>
      exact .idle (nodeWatch_eq (by rw [hp]; rfl) (by rw [hp]; rfl) rfl)

/-- **The check of the services is a watchdog over their members.** -/
theorem simulates_services : Simulates (system maxFailures)
    (Watchdog.system (String × String) maxFailures.toNat) serviceWatch serviceLabel where
  init := by
    rintro _ rfl
    rfl
  step m e m' hs := by
    change Watchdog.Step maxFailures.toNat (serviceWatch m) (serviceLabel ⟨m, e, m'⟩)
      (serviceWatch m')
    cases step_of_next hs with
    | request => exact .other
    | copyServices services hp hperm =>
      have h : serviceWatch m = { fails := (serviceWatch m).fails } := by rw [serviceWatch, hp]; rfl
      rw [h]
      exact .round _ rfl rfl (nodup_visits (nodup_copy hperm))
    | pingService service address left replied hp =>
      have h1 : (serviceWatch m).left = (service, address) :: left := by rw [serviceWatch, hp]; rfl
      have h2 : (serviceWatch m).acting = none := by rw [serviceWatch, hp]; rfl
      rw [serviceWatch_servicePinged maxFailures m (service, address), serviceLabel]
      simp only [hp]
      exact .probe h1 h2 replied
    | eraseService service address left hp =>
      have h : serviceWatch m = ⟨left, some (service, address), (serviceWatch m).fails⟩ := by
        rw [serviceWatch, hp]
        rfl
      rw [serviceLabel, h]
      simp only [hp]
      exact .act (service, address) rfl
    | copyNodes nodes hp hperm =>
      exact .idle (serviceWatch_eq (by rw [hp]; rfl) (by rw [hp]; rfl) rfl)
    | pingNode node address left replied hp =>
      refine .idle (serviceWatch_eq ?_ ?_ (softFailsServices_nodePinged ..))
      all_goals
        rw [hp]
        simp only [nodePinged]
        split_ifs <;> rfl
    | unbindNode node left hp =>
      exact .idle (serviceWatch_eq (by rw [hp]; rfl) (by rw [hp]; rfl) rfl)

/-! ## Removals -/

/-- The rounds with a node since a ping of it was last answered. -/
def nodeRounds (node : String) (tr : List Move) : ℕ := Watchdog.rounds node (tr.map nodeLabel)

/-- The times the monitor has unbound a node since a ping of it was last answered. -/
def nodeRemovals (node : String) (tr : List Move) : ℕ := Watchdog.acts node (tr.map nodeLabel)

/-- The rounds with a member of a service since a ping of the service at it was last answered. -/
def serviceRounds (target : String × String) (tr : List Move) : ℕ :=
  Watchdog.rounds target (tr.map serviceLabel)

/-- The times the monitor has taken a member out of a service since a ping of the service at it was
last answered. -/
def serviceRemovals (target : String × String) (tr : List Move) : ℕ :=
  Watchdog.acts target (tr.map serviceLabel)

variable {tr : List Move} {m m' : Monitor} {e : Event}

/-- An unbound node has no address and is in no service. -/
theorem unbound_of_act (hs : (system maxFailures).step m e m') {node : String}
    (h : nodeLabel ⟨m, e, m'⟩ = .act node) :
    node ∉ m'.module.nodes ∧ ∀ service, node ∉ m'.module.membersOf service := by
  cases step_of_next hs with
  | unbindNode node' left hp =>
    simp only [nodeLabel, hp, Watchdog.Label.act.injEq] at h
    subst h
    exact ⟨fun hm => (AList.mem_erase.mp hm).1 rfl,
      fun service hm => ((mem_membersOf_unbindNode _).mp hm).1 rfl⟩
  | pingNode node' address left replied hp =>
    simp only [nodeLabel, hp] at h
    cases h
  | request | copyNodes | copyServices | pingService | eraseService => cases h

theorem erased_of_act (hs : (system maxFailures).step m e m') {service address : String}
    (h : serviceLabel ⟨m, e, m'⟩ = .act (service, address)) :
    address ∉ m'.module.membersOf service := by
  cases step_of_next hs with
  | eraseService service' address' left hp =>
    simp only [serviceLabel, hp, Watchdog.Label.act.injEq, Prod.mk.injEq] at h
    obtain ⟨rfl, rfl⟩ := h
    rw [eraseMember, membersOf_insert, if_pos rfl]
    exact fun hm => (OrderedSet.mem_erase.mp hm).1 rfl
  | pingService service' address' left replied hp =>
    simp only [serviceLabel, hp] at h
    cases h
  | request | copyNodes | copyServices | pingNode | unbindNode => cases h

/-- **How often the monitor has unbound a node**, whatever the requests: once for each round with
the node from the threshold on, since a ping of it was last answered. -/
theorem node_removals (hr : Run (system maxFailures) tr m) (node : String) :
    nodeRemovals node tr + (if m.place.unbinding = some node then 1 else 0) =
        nodeRounds node tr - (if node ∈ m.place.nodesLeft.map Prod.fst then 1 else 0) + 1 -
          max 1 maxFailures.toNat ∧
      ∀ mv ∈ tr, nodeLabel mv = .act node →
        node ∉ mv.post.module.nodes ∧ ∀ service, node ∉ mv.post.module.membersOf service := by
  refine ⟨?_, hr.move_mem fun _ _ _ _ _ hs h => unbound_of_act hs h⟩
  have hw := simulates_nodes.run hr
  have h1 := Watchdog.acts_of_run hw node
  have h2 := Watchdog.rounds_of_run hw node
  rw [Watchdog.labels_via] at h1 h2
  have h3 : nodeRounds node tr - (if node ∈ m.place.nodesLeft.map Prod.fst then 1 else 0) =
      m.nodeFails node := Nat.sub_eq_of_eq_add h2
  rw [h3]
  exact h1

/-- **How often the monitor has taken a member out of a service.** -/
theorem service_removals (hr : Run (system maxFailures) tr m) (service address : String) :
    serviceRemovals (service, address) tr +
        (if m.place.erasing = some (service, address) then 1 else 0) =
        serviceRounds (service, address) tr -
          (if (service, address) ∈ m.place.servicesLeft then 1 else 0) + 1 -
            max 1 maxFailures.toNat ∧
      ∀ mv ∈ tr, serviceLabel mv = .act (service, address) →
        address ∉ mv.post.module.membersOf service := by
  refine ⟨?_, hr.move_mem fun _ _ _ _ _ hs h => erased_of_act hs h⟩
  have hw := simulates_services.run hr
  have h1 := Watchdog.acts_of_run hw (service, address)
  have h2 := Watchdog.rounds_of_run hw (service, address)
  rw [Watchdog.labels_via] at h1 h2
  have h3 : serviceRounds (service, address) tr -
      (if (service, address) ∈ m.place.servicesLeft then 1 else 0) =
      m.serviceFails service address := Nat.sub_eq_of_eq_add (h2.trans (by congr))
  rw [h3]
  exact h1

end Runs

section Sample

attribute [local instance] Jsoncpp.integral

/-- A node is unbound after two rounds, bound again, and unbound after the next round. -/
def unboundAgain : List Event :=
  [.request (bindOf "n"), .copyNodes [("n", "a")], .pingNode false, .copyServices [],
    .copyNodes [("n", "a")], .pingNode false, .unbindNode, .copyServices [],
    .request (bindOf "n"), .copyNodes [("n", "a")], .pingNode false, .unbindNode]

theorem node_removals_unboundAgain : nodeRemovals "n" (runOf 2 unboundAgain).1 + 0 = 2 ∧
    ∀ mv ∈ (runOf 2 unboundAgain).1, nodeLabel mv = .act "n" →
      "n" ∉ mv.post.module.nodes ∧ ∀ service, "n" ∉ mv.post.module.membersOf service :=
  node_removals (run_traceOf (by decide)) "n"

/-- A service with one member is pinged in two rounds. -/
def erased : List Event :=
  [.request (bindOf "n"),
    .request (requestOf .bindService [("service", .string "s"), ("nodename", .string "n")]),
    .copyNodes [("n", "a")], .pingNode true, .copyServices [("s", OrderedSet.insert "n" ∅)],
    .pingService false, .copyNodes [("n", "a")], .pingNode true,
    .copyServices [("s", OrderedSet.insert "n" ∅)], .pingService false, .eraseService]

theorem service_removals_erased : serviceRemovals ("s", "n") (runOf 2 erased).1 + 0 = 1 ∧
    ∀ mv ∈ (runOf 2 erased).1, serviceLabel mv = .act ("s", "n") →
      "n" ∉ mv.post.module.membersOf "s" :=
  service_removals (run_traceOf (by decide)) "s" "n"

end Sample

end Monitor

end NixSrv.Resolver
