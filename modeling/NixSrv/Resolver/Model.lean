import Mathlib.Data.String.Basic
import NixSrv.Lib.Map
import NixSrv.Lib.OrderedSet
import NixSrv.Lib.Transition
import NixSrv.ReadBack

/-!
# The resolver module

`nix::module::Resolver` with its handlers run one at a time and the monitor disabled.

* `bind`, `resolve`, `unbind`, `bindService`, `resolveService`, `unbindService`: the handlers;
* `Request`, `handle`, **`system`**: runs;
* `addressOf`, `membersOf`: what a look-up of a node or a service finds;
* `addressOf_handle`, `membersOf_handle`: what each handler changes of that.
-/

namespace NixSrv

open Json

structure Resolver where
  nodes : Map String String := ∅
  services : Map String (OrderedSet String) := ∅

namespace Resolver

variable (r : Resolver)

/-- The value of `nodes_[node]`. -/
def addressOf (node : String) : String := (r.nodes.lookup node).getD ""

/-- The value of `services_[service]`. -/
def membersOf (service : String) : OrderedSet String := (r.services.lookup service).getD ∅

def unbindNode (nodename : String) : Resolver where
  nodes := r.nodes.erase nodename
  services := Map.mapVal (·.erase nodename) r.services

/-- The loop of `resolve_service`: the addresses found, and the entries that `operator[]` makes. -/
def resolveMembers (members : List String) : OrderedSet String × Map String String :=
  members.foldl (fun acc it =>
    (acc.1.insert ((acc.2.lookup it).getD ""), Map.emplace it "" acc.2)) (∅, r.nodes)

section Handlers

variable [Jsoncpp]

/-- The node a request names. -/
abbrev nodeOf (msg : IncomingMessage) : String := msg.getString "nodename" ""

abbrev serviceOf (msg : IncomingMessage) : String := msg.getString "service" ""

def bind (msg : IncomingMessage) : Handled Resolver :=
  let node := nodeOf msg
  let address := msg.getString "address" ""
  if node = "" ∨ address = "" then
    { state := r
      sent := [msg.fail .dataInvalidContent "Resolver cannot bind. Invalid content."] }
  else { state := { r with nodes := r.nodes.insert node address }, sent := [msg.replyEmpty] }

def resolve (msg : IncomingMessage) : Handled Resolver :=
  let node := nodeOf msg
  let address := r.addressOf node
  let r := { r with nodes := Map.emplace node "" r.nodes }
  if address = "" then { state := r, sent := [msg.fail .fail "Unknown node."] }
  else replyUnder r msg node (.string address)

def unbind (msg : IncomingMessage) : Handled Resolver where
  state := r.unbindNode (nodeOf msg)
  sent := [msg.replyEmpty]

def bindService (msg : IncomingMessage) : Handled Resolver :=
  let service := serviceOf msg
  let nodename := nodeOf msg
  if service = "" ∨ nodename = "" ∨ nodename ∉ r.nodes then
    { state := r
      sent := [msg.fail .dataInvalidContent
        "Cannot bind a service. Invalid content or unknown node."] }
  else
    { state := { r with
        services := r.services.insert service ((r.membersOf service).insert nodename) }
      sent := [msg.replyEmpty] }

/-- What `set_array` and the calls of `append` write. -/
def addressesDocument (addresses : List String) : Members :=
  [("addresses", .array (addresses.map .string))]

def resolveService (msg : IncomingMessage) : Handled Resolver :=
  let service := serviceOf msg
  let members := r.membersOf service
  let services := Map.emplace service ∅ r.services
  let (resolvedNodes, nodes) := r.resolveMembers members.toList
  let r : Resolver := { nodes, services }
  if resolvedNodes = ∅ then { state := r, sent := [msg.fail .fail "Unknown service."] }
  else
    { state := r
      sent := [msg.reply (addressesDocument (resolvedNodes.toList.filter (· ≠ "")))] }

def unbindService (msg : IncomingMessage) : Handled Resolver :=
  let service := serviceOf msg
  let nodename := nodeOf msg
  if service = "" ∨ nodename = "" then { state := r, sent := [msg.fail .dataInvalidContent] }
  else
    { state := { r with
        services := r.services.insert service ((r.membersOf service).erase nodename) }
      sent := [msg.replyEmpty] }

/-- The routes of the module. -/
inductive Handler where
  | bind
  | resolve
  | unbind
  | bindService
  | resolveService
  | unbindService
  deriving DecidableEq, Repr

structure Request where
  handler : Handler
  msg : IncomingMessage

def handle (req : Request) : Handled Resolver :=
  match req.handler with
  | .bind => r.bind req.msg
  | .resolve => r.resolve req.msg
  | .unbind => r.unbind req.msg
  | .bindService => r.bindService req.msg
  | .resolveService => r.resolveService req.msg
  | .unbindService => r.unbindService req.msg

def next (r : Resolver) (req : Request) : Option Resolver :=
  if (r.handle req).ending ≠ .undefined then some (r.handle req).state else none

/-- **The module as a transition system**: handlers executed one at a time from the empty maps. -/
def system : Transition.System Resolver Request := .ofNext {} next

/-- A step of a run. -/
abbrev Move := Transition.Move Resolver Request

theorem step_iff {r r' : Resolver} {req : Request} : system.step r req r' ↔
    (r.handle req).ending ≠ .undefined ∧ r' = (r.handle req).state := by
  change next r req = some r' ↔ _
  unfold next
  split_ifs with h
  · simp [h, eq_comm]
  · simp [h]

/-- The sender of the request is told `ok`. -/
def accepts (req : Request) : Bool := (r.handle req).sent.any (·.isOk)

end Handlers

/-! ## Look-ups -/

/-- An entry that `operator[]` makes for an unknown node changes no look-up. -/
theorem getD_emplace (m : Map String String) (k node : String) :
    ((Map.emplace k "" m).lookup node).getD "" = (m.lookup node).getD "" := by
  rw [Map.lookup_emplace]
  split_ifs with h
  · rw [h, Option.getD_some]
  · rfl

theorem resolveMembers_fst (members : List String) :
    (r.resolveMembers members).1 = OrderedSet.collect r.addressOf members := by
  have h : ∀ (acc : OrderedSet String) (nodes : Map String String),
      (∀ node, (nodes.lookup node).getD "" = r.addressOf node) →
      (members.foldl (fun acc it => (acc.1.insert ((acc.2.lookup it).getD ""),
        Map.emplace it "" acc.2)) (acc, nodes)).1 =
      members.foldl (fun acc it => acc.insert (r.addressOf it)) acc := by
    induction members with
    | nil => exact fun _ _ _ => rfl
    | cons it members ih =>
      intro acc nodes hn
      rw [List.foldl_cons, List.foldl_cons, ih _ _ fun node => (getD_emplace _ _ _).trans (hn node),
        hn it]
  exact h ∅ r.nodes fun _ => rfl

/-- The loop makes an entry for every member that has none. -/
theorem lookup_resolveMembers (members : List String) (node : String) :
    (r.resolveMembers members).2.lookup node =
      if node ∈ members then some (r.addressOf node) else r.nodes.lookup node := by
  have h : ∀ (acc : OrderedSet String) (nodes : Map String String),
      (members.foldl (fun acc it => (acc.1.insert ((acc.2.lookup it).getD ""),
        Map.emplace it "" acc.2)) (acc, nodes)).2.lookup node =
      if node ∈ members then some ((nodes.lookup node).getD "") else nodes.lookup node := by
    induction members with
    | nil => exact fun _ _ => rfl
    | cons it members ih =>
      intro acc nodes
      rw [List.foldl_cons, ih, getD_emplace, Map.lookup_emplace]
      by_cases he : node = it
      · subst he
        by_cases hm : node ∈ members <;> simp [hm]
      · simp [he]
  exact h ∅ r.nodes

@[simp] theorem addressOf_unbindNode (nodename node : String) :
    (r.unbindNode nodename).addressOf node = if node = nodename then "" else r.addressOf node := by
  unfold addressOf unbindNode
  rw [Map.lookup_erase]
  split_ifs <;> rfl

@[simp] theorem mem_membersOf_unbindNode {nodename node service : String} :
    node ∈ (r.unbindNode nodename).membersOf service ↔
      node ≠ nodename ∧ node ∈ r.membersOf service := by
  unfold membersOf unbindNode
  rw [Map.lookup_mapVal]
  cases r.services.lookup service with
  | none => simp
  | some members => simp

/-! ## What each handler changes -/

section Changes

variable [Jsoncpp] (msg : IncomingMessage) (node service : String)

theorem accepts_bind : r.accepts ⟨.bind, msg⟩ = true ↔
    ¬ (nodeOf msg = "" ∨ msg.getString "address" "" = "") := by
  simp only [accepts, handle, bind]
  split_ifs with h <;> simp [h]

theorem addressOf_bind : (r.bind msg).state.addressOf node =
    if r.accepts ⟨.bind, msg⟩ = true ∧ nodeOf msg = node then msg.getString "address" ""
    else r.addressOf node := by
  simp only [accepts_bind, bind]
  split_ifs with h h' h'
  · exact absurd h h'.1
  · rfl
  · obtain ⟨-, rfl⟩ := h'
    simp [addressOf]
  · have hne : node ≠ nodeOf msg := fun he => h' ⟨h, he.symm⟩
    simp [addressOf, hne]

@[simp] theorem addressOf_resolve : (r.resolve msg).state.addressOf node = r.addressOf node := by
  simp only [resolve]
  split_ifs
  · exact getD_emplace r.nodes _ node
  · rw [state_replyUnder]
    exact getD_emplace r.nodes _ node

/-- Nodes are bound to services and unbound from them without a change to `nodes_`. -/
@[simp] theorem nodes_bindService : (r.bindService msg).state.nodes = r.nodes := by
  simp only [bindService]
  split_ifs <;> rfl

@[simp] theorem nodes_unbindService : (r.unbindService msg).state.nodes = r.nodes := by
  simp only [unbindService]
  split_ifs <;> rfl

@[simp] theorem addressOf_bindService :
    (r.bindService msg).state.addressOf node = r.addressOf node := by
  rw [addressOf, nodes_bindService, addressOf]

@[simp] theorem addressOf_unbindService :
    (r.unbindService msg).state.addressOf node = r.addressOf node := by
  rw [addressOf, nodes_unbindService, addressOf]

/-- The addresses a look-up of a service finds. -/
def foundBy (service : String) : OrderedSet String :=
  OrderedSet.collect r.addressOf (r.membersOf service).toList

/-- Both branches of the look-up of a service leave the same maps. -/
theorem resolveService_eq : r.resolveService msg =
    { state := ⟨(r.resolveMembers (r.membersOf (serviceOf msg)).toList).2,
        Map.emplace (serviceOf msg) ∅ r.services⟩
      sent := [if r.foundBy (serviceOf msg) = ∅ then msg.fail .fail "Unknown service."
        else msg.reply (addressesDocument
          ((r.foundBy (serviceOf msg)).toList.filter (· ≠ "")))] } := by
  simp only [resolveService, resolveMembers_fst]
  change (if r.foundBy (serviceOf msg) = ∅ then _ else _) = _
  by_cases h : r.foundBy (serviceOf msg) = ∅
  · rw [if_pos h, if_pos h]
  · rw [if_neg h, if_neg h]
    rfl

@[simp] theorem addressOf_resolveService :
    (r.resolveService msg).state.addressOf node = r.addressOf node := by
  rw [resolveService_eq, addressOf, lookup_resolveMembers]
  split_ifs <;> rfl

@[simp] theorem membersOf_bind : (r.bind msg).state.membersOf service = r.membersOf service := by
  simp only [bind]
  split_ifs <;> rfl

@[simp] theorem membersOf_resolve :
    (r.resolve msg).state.membersOf service = r.membersOf service := by
  simp only [resolve]
  split_ifs
  · rfl
  · rw [state_replyUnder]
    rfl

@[simp] theorem membersOf_resolveService :
    (r.resolveService msg).state.membersOf service = r.membersOf service := by
  rw [resolveService_eq, membersOf, Map.lookup_emplace]
  split_ifs with he
  · rw [he]; rfl
  · rfl

omit [Jsoncpp] in
/-- What an assignment to `services_[service]` leaves to be found. -/
theorem membersOf_insert (members : OrderedSet String) (s : String) :
    Resolver.membersOf { r with services := r.services.insert s members } service =
      if s = service then members else r.membersOf service := by
  simp only [membersOf, Map.lookup_insert, eq_comm (a := service)]
  split_ifs <;> rfl

theorem accepts_bindService : r.accepts ⟨.bindService, msg⟩ = true ↔
    ¬ (serviceOf msg = "" ∨ nodeOf msg = "" ∨ nodeOf msg ∉ r.nodes) := by
  simp only [accepts, handle, bindService]
  split_ifs with h <;> simp [h]

theorem membersOf_bindService : (r.bindService msg).state.membersOf service =
    if r.accepts ⟨.bindService, msg⟩ = true ∧ serviceOf msg = service then
      (r.membersOf service).insert (nodeOf msg)
    else r.membersOf service := by
  simp only [accepts_bindService, bindService]
  split_ifs with h h' h'
  · exact absurd h h'.1
  · rfl
  · rw [membersOf_insert, if_pos h'.2, h'.2]
  · rw [membersOf_insert, if_neg fun he => h' ⟨h, he⟩]

theorem accepts_unbindService : r.accepts ⟨.unbindService, msg⟩ = true ↔
    ¬ (serviceOf msg = "" ∨ nodeOf msg = "") := by
  simp only [accepts, handle, unbindService]
  split_ifs with h <;> simp [h]

theorem membersOf_unbindService : (r.unbindService msg).state.membersOf service =
    if r.accepts ⟨.unbindService, msg⟩ = true ∧ serviceOf msg = service then
      (r.membersOf service).erase (nodeOf msg)
    else r.membersOf service := by
  simp only [accepts_unbindService, unbindService]
  split_ifs with h h' h'
  · exact absurd h h'.1
  · rfl
  · rw [membersOf_insert, if_pos h'.2, h'.2]
  · rw [membersOf_insert, if_neg fun he => h' ⟨h, he⟩]

theorem accepts_unbind : r.accepts ⟨.unbind, msg⟩ = true := by
  simp [accepts, handle, unbind]

end Changes

end Resolver

end NixSrv
