import NixSrv.Resolver.Registry

/-!
# Referential integrity of the resolver

* `answers`: what a list of later requests is answered;
* `Kept`, **`Kept.handle`**: every entry has an address, and every member an entry;
* `Alike`, **`answers_of_alike`**: states that answer all later requests alike;
* `Integrity`, **`integrity_iff`**: when every step of a run keeps the integrity of the maps.
-/

namespace NixSrv.Resolver

open Json Transition

section Requests

variable [Jsoncpp]

/-- What a list of requests handled one after another is answered, and how the handlers end. -/
def answers (r : Resolver) : List Request → List (List Sent × Ending)
  | [] => []
  | req :: reqs =>
    ((r.handle req).sent, (r.handle req).ending) :: answers (r.handle req).state reqs

/-- What integrity asks of a step. -/
structure Integrity (hist : List Move) (m : Move) : Prop where
  listed : ∀ service node, node ∈ m.post.membersOf service →
    ∃ a, a ≠ "" ∧ m.post.nodes.lookup node = some a
  entries : ∀ node a, m.post.nodes.lookup node = some a → a ≠ ""
  accepted : m.event.handler = .bindService → m.pre.accepts m.event = true →
    boundTo hist (nodeOf m.event.msg) ≠ none
  /-- A look-up changes nothing that later requests can tell. -/
  lookups : m.event.handler = .resolve ∨ m.event.handler = .resolveService →
    ∀ reqs, m.post.answers reqs = m.pre.answers reqs
  listsSome : m.event.handler = .resolveService → ∀ answer ∈ (m.pre.handle m.event).sent,
    answer.isOk = true → ∃ a l, answer.valueUnder "addresses" = some (.array (.string a :: l))

/-- A node that is asked for is bound. -/
def AsksBound (hist : List Move) (m : Move) : Prop :=
  m.event.handler = .resolve → boundTo hist (nodeOf m.event.msg) ≠ none

instance (hist : List Move) (m : Move) : Decidable (AsksBound hist m) := by
  unfold AsksBound; infer_instance

/-! ## The invariant -/

/-- Every entry has an address, and every member of a service an entry. -/
structure Kept (r : Resolver) : Prop where
  entries : ∀ node a, r.nodes.lookup node = some a → a ≠ ""
  listed : ∀ service node, node ∈ r.membersOf service → node ∈ r.nodes

/-- The look-up of a node that is there makes no entry. -/
theorem resolve_of_mem {r : Resolver} {msg : IncomingMessage} (h : nodeOf msg ∈ r.nodes) :
    (r.resolve msg).state = r := by
  have hn : Map.emplace (nodeOf msg) "" r.nodes = r.nodes := if_pos h
  simp only [resolve, hn]
  split_ifs
  · rfl
  · exact state_replyUnder _ _ _ _

omit [Jsoncpp] in
/-- The look-up of a service whose members are there makes no entry for a node. -/
theorem resolveMembers_of_mem {r : Resolver} {members : List String}
    (h : ∀ node ∈ members, node ∈ r.nodes) : (r.resolveMembers members).2 = r.nodes := by
  have hfold : ∀ acc : OrderedSet String, (members.foldl (fun acc it =>
      (acc.1.insert ((acc.2.lookup it).getD ""), Map.emplace it "" acc.2)) (acc, r.nodes)).2 =
        r.nodes := by
    induction members with
    | nil => exact fun _ => rfl
    | cons it members ih =>
      intro acc
      have he : Map.emplace it "" r.nodes = r.nodes := if_pos (h it List.mem_cons_self)
      rw [List.foldl_cons, he]
      exact ih (fun node hm => h node (List.mem_cons_of_mem _ hm)) _
  exact hfold ∅

theorem nodes_resolveService {r : Resolver} (h : Kept r) (msg : IncomingMessage) :
    (r.resolveService msg).state.nodes = r.nodes := by
  rw [resolveService_eq]
  exact resolveMembers_of_mem (h.listed (serviceOf msg))

omit [Jsoncpp] in
/-- The invariant is kept where the nodes are, and only nodes with an entry become members. -/
theorem Kept.of_nodes {r r' : Resolver} (h : Kept r) (hn : r'.nodes = r.nodes)
    (hm : ∀ service node, node ∈ r'.membersOf service →
      node ∈ r.membersOf service ∨ node ∈ r.nodes) : Kept r' := by
  refine ⟨fun node a => ?_, fun service node hnode => ?_⟩
  · rw [hn]
    exact h.entries node a
  · rw [hn]
    exact (hm service node hnode).elim (h.listed service node) id

/-- **A request keeps the invariant, unless it asks for a node that is not there.** -/
theorem Kept.handle {r : Resolver} (h : Kept r) {req : Request}
    (hreq : req.handler = .resolve → nodeOf req.msg ∈ r.nodes) : Kept (r.handle req).state := by
  obtain ⟨handler, msg⟩ := req
  cases handler with
  | bind =>
    simp only [Resolver.handle, bind]
    split_ifs with hno
    · exact h
    · refine ⟨fun node a => ?_, fun service node hm => ?_⟩
      · rw [Map.lookup_insert]
        split_ifs
        · rintro ⟨⟩ ha
          exact hno (Or.inr ha)
        · exact h.entries node a
      · exact (AList.mem_insert _).mpr (Or.inr (h.listed service node hm))
  | resolve =>
    rw [Resolver.handle, resolve_of_mem (hreq rfl)]
    exact h
  | unbind =>
    refine ⟨fun node a => ?_, fun service node => ?_⟩
    · simp only [Resolver.handle, unbind, unbindNode, Map.lookup_erase]
      split_ifs
      · simp
      · exact h.entries node a
    · simp only [Resolver.handle, unbind, mem_membersOf_unbindNode]
      rintro ⟨hne, hm⟩
      exact AList.mem_erase.mpr ⟨hne, h.listed service node hm⟩
  | bindService =>
    refine h.of_nodes (nodes_bindService r msg) fun service node => ?_
    rw [Resolver.handle, membersOf_bindService]
    split_ifs with ha
    · rw [OrderedSet.mem_insert]
      rintro (rfl | hm)
      · have hok := (accepts_bindService r msg).mp ha.1
        tauto
      · exact Or.inl hm
    · exact Or.inl
  | resolveService =>
    refine h.of_nodes (nodes_resolveService h msg) fun service node => ?_
    rw [Resolver.handle, membersOf_resolveService]
    exact Or.inl
  | unbindService =>
    refine h.of_nodes (nodes_unbindService r msg) fun service node => ?_
    rw [Resolver.handle, membersOf_unbindService]
    split_ifs
    · exact fun hm => Or.inl (OrderedSet.mem_erase.mp hm).2
    · exact Or.inl

/-- A node that is bound has an entry, and while the invariant holds every entry is of a bound
node. -/
theorem Kept.mem_nodes_iff {tr : List Move} {r : Resolver} (h : Kept r) (hr : Run system tr r)
    (node : String) : node ∈ r.nodes ↔ boundTo tr node ≠ none := by
  rw [boundTo_of_run hr, Option.ne_none_iff_exists']
  simp only [binding_eq_some, addressOf]
  constructor
  · intro hm
    obtain ⟨a, ha⟩ := Map.exists_lookup hm
    exact ⟨a, h.entries node a ha, by rw [ha]; rfl⟩
  · rintro ⟨a, ha, he⟩
    by_contra hm
    rw [AList.lookup_eq_none.mpr hm] at he
    exact ha he.symm

/-! ## Look-ups change no later answer -/

/-- The nodes are the same, and the members of every service. -/
structure Alike (r r' : Resolver) : Prop where
  nodes : r.nodes = r'.nodes
  members : ∀ service, r.membersOf service = r'.membersOf service

omit [Jsoncpp] in
theorem membersOf_unbindNode (r : Resolver) (nodename service : String) :
    (r.unbindNode nodename).membersOf service = (r.membersOf service).erase nodename := by
  unfold membersOf unbindNode
  rw [Map.lookup_mapVal]
  cases r.services.lookup service <;> rfl

/-- States that are alike are answered alike, and keep the same nodes. -/
theorem Alike.respond {r r' : Resolver} (h : Alike r r') (req : Request) :
    (r.handle req).sent = (r'.handle req).sent ∧ (r.handle req).ending = (r'.handle req).ending ∧
      (r.handle req).state.nodes = (r'.handle req).state.nodes := by
  obtain ⟨handler, msg⟩ := req
  obtain ⟨nodes, services⟩ := r
  obtain ⟨nodes', services'⟩ := r'
  obtain rfl : nodes = nodes' := h.nodes
  cases handler with
  | bind =>
    simp only [Resolver.handle, bind]
    split_ifs <;> exact ⟨rfl, rfl, rfl⟩
  | resolve =>
    by_cases ha : (nodes.lookup (nodeOf msg)).getD "" = ""
    · have hno : ∀ services, resolve ⟨nodes, services⟩ msg =
          ⟨⟨Map.emplace (nodeOf msg) "" nodes, services⟩, [msg.fail .fail "Unknown node."],
            .returned⟩ := fun services => if_pos ha
      simp only [Resolver.handle, hno, and_self]
    · have hret : ∀ services, resolve ⟨nodes, services⟩ msg =
          replyUnder ⟨Map.emplace (nodeOf msg) "" nodes, services⟩ msg (nodeOf msg)
            (.string ((nodes.lookup (nodeOf msg)).getD "")) := fun services => if_neg ha
      simp only [Resolver.handle, hret, state_replyUnder, and_true]
      exact sent_replyUnder _ _ _ _ _
  | unbind => exact ⟨rfl, rfl, rfl⟩
  | bindService =>
    simp only [Resolver.handle, bindService]
    split_ifs <;> exact ⟨rfl, rfl, rfl⟩
  | resolveService =>
    have hm := h.members (serviceOf msg)
    have hfound : foundBy ⟨nodes, services⟩ (serviceOf msg) =
        foundBy ⟨nodes, services'⟩ (serviceOf msg) := by rw [foundBy, hm]; rfl
    have hnodes : ∀ l, resolveMembers ⟨nodes, services⟩ l = resolveMembers ⟨nodes, services'⟩ l :=
      fun _ => rfl
    simp only [Resolver.handle, resolveService_eq, hm, hfound, hnodes, and_self]
  | unbindService =>
    simp only [Resolver.handle, unbindService]
    split_ifs <;> exact ⟨rfl, rfl, rfl⟩

theorem Alike.handle {r r' : Resolver} (h : Alike r r') (req : Request) :
    Alike (r.handle req).state (r'.handle req).state := by
  obtain ⟨hsent, -, hnodes⟩ := h.respond req
  refine ⟨hnodes, fun service => ?_⟩
  have hok : r.accepts req = r'.accepts req := by rw [accepts, accepts, hsent]
  obtain ⟨handler, msg⟩ := req
  cases handler with
  | bind | resolve | resolveService => simp [Resolver.handle, h.members]
  | unbind =>
    simp only [Resolver.handle, unbind, membersOf_unbindNode, h.members]
  | bindService => simp only [Resolver.handle, membersOf_bindService, h.members, hok]
  | unbindService => simp only [Resolver.handle, membersOf_unbindService, h.members, hok]

theorem answers_of_alike {r r' : Resolver} (h : Alike r r') (reqs : List Request) :
    r.answers reqs = r'.answers reqs := by
  induction reqs generalizing r r' with
  | nil => rfl
  | cons req reqs ih =>
    obtain ⟨hs, he, -⟩ := h.respond req
    rw [answers, answers, hs, he, ih (h.handle req)]

/-! ## Runs -/

theorem kept_of_run {tr : List Move} {r : Resolver} (hr : Run system tr r)
    (hask : EachMove AsksBound tr) : Kept r := by
  refine hr.invariant (I := fun _ r => Kept r) ?_ ?_ hask
  · rintro _ rfl
    refine ⟨fun node a h => ?_, fun service node h => ?_⟩
    · cases h
    · exact absurd h (OrderedSet.notMem_empty node)
  · intro tr r req r' hr ih hs hask
    obtain ⟨-, rfl⟩ := step_iff.mp hs
    exact ih.handle fun hreq => (ih.mem_nodes_iff hr _).mpr (hask hreq)

/-- A step with integrity asks for bound nodes only. -/
theorem asksBound_of_integrity {tr : List Move} {r r' : Resolver} {req : Request}
    (hr : Run system tr r) (hs : system.step r req r') (hi : Integrity tr ⟨r, req, r'⟩) :
    AsksBound tr ⟨r, req, r'⟩ := by
  obtain ⟨-, rfl⟩ := step_iff.mp hs
  obtain ⟨handler, msg⟩ := req
  rintro rfl hb
  have ha : r.addressOf (nodeOf msg) = "" := by
    by_contra hne
    rw [boundTo_of_run hr, binding, if_neg hne] at hb
    cases hb
  refine hi.entries (nodeOf msg) "" ?_ rfl
  have hl : (Map.emplace (nodeOf msg) "" r.nodes).lookup (nodeOf msg) = some "" := by
    rw [Map.lookup_emplace, if_pos rfl]
    exact congrArg some ha
  simpa [handle, resolve, ha] using hl

omit [Jsoncpp] in
/-- While the invariant holds, every member of a service has an address. -/
theorem Kept.address_ne {r : Resolver} (h : Kept r) {service node : String}
    (hm : node ∈ r.membersOf service) : r.addressOf node ≠ "" := by
  obtain ⟨a, ha⟩ := Map.exists_lookup (h.listed service node hm)
  rw [addressOf, ha]
  exact h.entries node a ha

/-- While the invariant holds, the list of an answer `ok` is not empty. -/
theorem Kept.lists_some {r : Resolver} (h : Kept r) {msg : IncomingMessage} {answer : Sent}
    (hsent : answer ∈ (r.resolveService msg).sent) (hok : answer.isOk = true) :
    ∃ a l, answer.valueUnder "addresses" = some (.array (.string a :: l)) := by
  obtain ⟨hne, rfl⟩ := sent_resolveService hsent hok
  obtain ⟨a, l, hl⟩ := List.exists_cons_of_ne_nil fun hnil => hne (OrderedSet.toList_injective hnil)
  have ha : a ∈ r.foundBy (serviceOf msg) := by
    rw [← OrderedSet.mem_toList, hl]
    exact List.mem_cons_self
  obtain ⟨node, hm, rfl⟩ := OrderedSet.mem_collect.mp ha
  rw [valueUnder_addresses, hl, List.filter_cons_of_pos (by simpa using h.address_ne hm)]
  exact ⟨_, _, rfl⟩

theorem integrity_of_asksBound {tr : List Move} {r r' : Resolver} {req : Request}
    (hr : Run system tr r) (hk : Kept r) (hs : system.step r req r')
    (hask : AsksBound tr ⟨r, req, r'⟩) : Integrity tr ⟨r, req, r'⟩ := by
  obtain ⟨-, rfl⟩ := step_iff.mp hs
  have hmem : req.handler = .resolve → nodeOf req.msg ∈ r.nodes := fun h =>
    (hk.mem_nodes_iff hr _).mpr (hask h)
  have hk' := hk.handle hmem
  obtain ⟨handler, msg⟩ := req
  refine ⟨fun service node hm => ?_, hk'.entries, ?_, ?_, ?_⟩
  · obtain ⟨a, ha⟩ := Map.exists_lookup (hk'.listed service node hm)
    exact ⟨a, hk'.entries node a ha, ha⟩
  · rintro rfl hok
    have hno := (accepts_bindService r msg).mp hok
    exact (hk.mem_nodes_iff hr _).mp (by tauto)
  · rintro (rfl | rfl) reqs
    · exact congrArg (answers · reqs) (resolve_of_mem (hmem rfl))
    · exact answers_of_alike ⟨nodes_resolveService hk msg, membersOf_resolveService r msg⟩ reqs
  · rintro rfl answer hsent hok
    exact hk.lists_some hsent hok

/-- **Every step of a run keeps the integrity of the maps exactly when every node that is asked for
is bound.** -/
theorem integrity_iff {tr : List Move} {r : Resolver} (hr : Run system tr r) :
    EachMove Integrity tr ↔ EachMove AsksBound tr := by
  refine hr.eachMove_iff fun tr r req r' hr hask hs => ?_
  exact ⟨asksBound_of_integrity hr hs, integrity_of_asksBound hr (kept_of_run hr hask) hs⟩

end Requests

section Sample

attribute [local instance] Jsoncpp.integral

/-- A request that names a service and a node. -/
def serviceRequestOf (handler : Handler) (service node : String) : Request :=
  requestOf handler [("service", .string service), ("nodename", .string node)]

/-- A bound node is asked for, and offers a service. -/
theorem integrity_iff_boundNode : EachMove Integrity (runOf [bindOf "n",
    requestOf .resolve [("nodename", .string "n")], serviceRequestOf .bindService "s" "n",
    serviceRequestOf .resolveService "s" ""]).1 :=
  (integrity_iff (run_traceOf (by decide))).mpr (by decide)

/-- The failed look-up of a node makes an entry, for which a service can then be bound. -/
theorem not_integrity_unknownNode : ∃ tr r, Run system tr r ∧ boundTo tr "x" = none ∧
    "x" ∈ r.membersOf "s" ∧ ¬ EachMove Integrity tr := by
  have hr : Run system (runOf [requestOf .resolve [("nodename", .string "x")],
      serviceRequestOf .bindService "s" "x"]).1 _ := run_traceOf (by decide)
  refine ⟨_, _, hr, by decide, by decide, fun h => ?_⟩
  have hask := hr.eachMove_imp (fun _ _ _ _ hr _ _ hs => asksBound_of_integrity hr hs) h
  exact absurd hask (by decide)

end Sample

end NixSrv.Resolver
