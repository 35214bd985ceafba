import NixSrv.Lib.Cell
import NixSrv.Resolver.Model

/-!
# The resolver as a registry

* `boundTo`, `IsMember`: what the accepted requests so far say about a node and a service;
* **`boundTo_of_run`**, **`mem_membersOf_of_run`**: the maps after every run say the same;
* `RefinesRegistry`, **`refinesRegistry_iff`**: when a request is answered as by a registry.
-/

namespace NixSrv.Resolver

open Json Transition

section Requests

variable [Jsoncpp]

/-- What an accepted request does to the address of a node. -/
def nodeWrite (node : String) (m : Move) : Cell.Write String :=
  if m.pre.accepts m.event = true ∧ nodeOf m.event.msg = node then
    match m.event.handler with
    | .bind => .put (m.event.msg.getString "address" "")
    | .unbind => .drop
    | _ => .keep
  else .keep

/-- The address of the latest accepted bind or unbind of a node, if it is a bind. -/
def boundTo (hist : List Move) (node : String) : Option String :=
  Cell.content (nodeWrite node) hist

/-- What an accepted request does to the membership of a node in a service. -/
def memberWrite (service node : String) (m : Move) : Cell.Write Unit :=
  if m.pre.accepts m.event = true ∧ nodeOf m.event.msg = node then
    match m.event.handler with
    | .bindService => if serviceOf m.event.msg = service then .put () else .keep
    | .unbindService => if serviceOf m.event.msg = service then .drop else .keep
    | .unbind => .drop
    | _ => .keep
  else .keep

/-- The latest accepted request about the membership of a node in a service binds the service. -/
def IsMember (hist : List Move) (service node : String) : Prop :=
  Cell.content (memberWrite service node) hist = some ()

/-- The answer lists the addresses of the bound members of a service, in increasing order. -/
def Lists (hist : List Move) (service : String) (answer : Sent) : Prop :=
  ∃ l : List String, answer.valueUnder "addresses" = some (.array (l.map .string)) ∧
    l.Pairwise (· < ·) ∧
    ∀ a, a ∈ l ↔ ∃ node, IsMember hist service node ∧ boundTo hist node = some a

/-- The maps and the answer to a request agree with the requests so far. -/
structure RefinesRegistry (hist : List Move) (r : Resolver) (req : Request) : Prop where
  finds : req.handler = .resolve → ∀ a,
    Obtains (r.handle req) req.msg (nodeOf req.msg) (.string a) ↔
      boundTo hist (nodeOf req.msg) = some a
  fails : req.handler = .resolve → boundTo hist (nodeOf req.msg) = none →
    Refused (r.handle req) req.msg .fail
  members : ∀ service node, node ∈ r.membersOf service ↔ IsMember hist service node
  lists : req.handler = .resolveService → ∀ answer ∈ (r.handle req).sent, answer.isOk = true →
    Lists hist (serviceOf req.msg) answer

/-- The address of a bound node that is asked for can be read in the answer. -/
def ReadsBack (hist : List Move) (req : Request) : Prop :=
  req.handler = .resolve → ∀ a, boundTo hist (nodeOf req.msg) = some a →
    readUnder (nodeOf req.msg) (.string a) = some (.string a)

/-! ## The maps after a run -/

/-- The address of a node, if it is not empty. -/
def binding (r : Resolver) (node : String) : Option String :=
  if r.addressOf node = "" then none else some (r.addressOf node)

theorem binding_handle (r r' : Resolver) (req : Request) (node : String) :
    (r.handle req).state.binding node = (nodeWrite node ⟨r, req, r'⟩).apply (r.binding node) := by
  obtain ⟨handler, msg⟩ := req
  cases handler with
  | bind =>
    simp only [handle, nodeWrite, binding, addressOf_bind]
    by_cases h : r.accepts ⟨.bind, msg⟩ = true ∧ nodeOf msg = node
    · have ha : msg.getString "address" "" ≠ "" := fun he =>
        (accepts_bind r msg).mp h.1 (Or.inr he)
      simp [h, ha, Cell.Write.apply]
    · simp [h, Cell.Write.apply]
  | unbind =>
    simp only [handle, nodeWrite, binding, unbind, addressOf_unbindNode, accepts_unbind, true_and]
    by_cases h : nodeOf msg = node
    · simp [h, Cell.Write.apply]
    · simp [h, Ne.symm h, Cell.Write.apply]
  | resolve | bindService | resolveService | unbindService =>
    simp [handle, nodeWrite, binding, Cell.Write.apply]

/-- `some ()` for a member. -/
def membership (r : Resolver) (service node : String) : Option Unit :=
  if node ∈ r.membersOf service then some () else none

omit [Jsoncpp] in
/-- A set changed at one node, when the request is accepted and names the service, as a write. -/
theorem membership_of_change {M M' : OrderedSet String} {w : Cell.Write Unit}
    {n node s service : String} {ok : Prop} [Decidable ok]
    (hself : (if n ∈ M' then some () else none) = w.apply none)
    (hother : node ≠ n → (node ∈ M' ↔ node ∈ M)) (hw : w ≠ .keep) :
    (if node ∈ (if ok ∧ s = service then M' else M) then some () else none) =
      (if ok ∧ n = node then (if s = service then w else .keep) else .keep).apply
        (if node ∈ M then some () else none) := by
  by_cases hok : ok
  · by_cases hs : s = service
    · by_cases hn : n = node
      · subst hn
        cases w with
        | keep => exact absurd rfl hw
        | put | drop => simpa [hok, hs, Cell.Write.apply] using hself
      · simp [hok, hs, hn, hother (Ne.symm hn), Cell.Write.apply]
    · simp [hs, Cell.Write.apply]
  · simp [hok, Cell.Write.apply]

theorem membership_handle (r r' : Resolver) (req : Request) (service node : String) :
    (r.handle req).state.membership service node =
      (memberWrite service node ⟨r, req, r'⟩).apply (r.membership service node) := by
  obtain ⟨handler, msg⟩ := req
  cases handler with
  | bindService =>
    simp only [handle, memberWrite, membership, membersOf_bindService]
    exact membership_of_change (by simp [Cell.Write.apply]) (fun hn => by simp [hn]) (by simp)
  | unbindService =>
    simp only [handle, memberWrite, membership, membersOf_unbindService]
    exact membership_of_change (by simp [Cell.Write.apply]) (fun hn => by simp [hn]) (by simp)
  | unbind =>
    simp only [handle, memberWrite, membership, unbind, mem_membersOf_unbindNode, accepts_unbind,
      true_and]
    by_cases h : nodeOf msg = node
    · simp [h, Cell.Write.apply]
    · simp [h, Ne.symm h, Cell.Write.apply]
  | bind | resolve | resolveService =>
    simp [handle, memberWrite, membership, Cell.Write.apply]

/-- **The addresses after a run are those of the accepted requests.** -/
theorem boundTo_of_run {tr : List Move} {r : Resolver} (hr : Run system tr r) (node : String) :
    boundTo tr node = r.binding node := by
  induction hr with
  | nil h => cases h; rfl
  | @snoc tr r r' req _ hs ih =>
    obtain ⟨-, rfl⟩ := step_iff.mp hs
    rw [boundTo, Cell.content_snoc, binding_handle]
    exact congrArg _ ih

theorem membership_of_run {tr : List Move} {r : Resolver} (hr : Run system tr r)
    (service node : String) :
    Cell.content (memberWrite service node) tr = r.membership service node := by
  induction hr with
  | nil h => cases h; rfl
  | @snoc tr r r' req _ hs ih =>
    obtain ⟨-, rfl⟩ := step_iff.mp hs
    rw [Cell.content_snoc, membership_handle, ih]

/-- **The members after a run are those of the accepted requests.** -/
theorem mem_membersOf_of_run {tr : List Move} {r : Resolver} (hr : Run system tr r)
    (service node : String) : node ∈ r.membersOf service ↔ IsMember tr service node := by
  rw [IsMember, membership_of_run hr, membership]
  split_ifs with h <;> simp [h]

omit [Jsoncpp] in
theorem binding_eq_some {r : Resolver} {node a : String} :
    r.binding node = some a ↔ a ≠ "" ∧ r.addressOf node = a := by
  unfold binding
  split_ifs with h
  · simp only [false_iff, not_and]
    rintro ha rfl
    exact ha h
  · simp only [Option.some.injEq]
    refine ⟨?_, fun h => h.2⟩
    rintro rfl
    exact ⟨h, rfl⟩

/-! ## How a request is answered -/

theorem resolve_of_binding {r : Resolver} {msg : IncomingMessage} {a : String}
    (h : r.binding (nodeOf msg) = some a) :
    ∃ r', r.resolve msg = replyUnder r' msg (nodeOf msg) (.string a) := by
  obtain ⟨ha, he⟩ := binding_eq_some.mp h
  simp only [resolve, he, if_neg ha]
  exact ⟨_, rfl⟩

theorem resolve_of_not_binding {r : Resolver} {msg : IncomingMessage}
    (h : r.binding (nodeOf msg) = none) : Refused (r.resolve msg) msg .fail := by
  have he : r.addressOf (nodeOf msg) = "" := by
    by_contra hne
    simp [binding, hne] at h
  simp only [resolve, he, if_true]
  exact refused_fail _ msg .fail "Unknown node."

omit [Jsoncpp] in
/-- The list an answer `ok` to `service/resolve` holds. -/
theorem valueUnder_addresses (msg : IncomingMessage) (l : List String) :
    (msg.reply (addressesDocument l)).valueUnder "addresses" = some (.array (l.map .string)) := by
  rw [valueUnder_reply, Message.find_key (by decide), Members.setStatusCode,
    Members.lookup_put_ne (by decide)]
  rfl

theorem sent_resolveService {r : Resolver} {msg : IncomingMessage} {answer : Sent}
    (h : answer ∈ (r.resolveService msg).sent) (hok : answer.isOk = true) :
    r.foundBy (serviceOf msg) ≠ ∅ ∧ answer = msg.reply (addressesDocument
      ((r.foundBy (serviceOf msg)).toList.filter (· ≠ ""))) := by
  rw [resolveService_eq, List.mem_singleton] at h
  split_ifs at h with hno
  · rw [h, isOk_fail] at hok
    cases hok
  · exact ⟨hno, h⟩

theorem lists_of_run {tr : List Move} {r : Resolver} (hr : Run system tr r) {msg : IncomingMessage}
    {answer : Sent} (h : answer ∈ (r.resolveService msg).sent) (hok : answer.isOk = true) :
    Lists tr (serviceOf msg) answer := by
  rw [(sent_resolveService h hok).2]
  refine ⟨_, valueUnder_addresses msg _, (OrderedSet.sorted_lt _).filter _, fun a => ?_⟩
  simp only [foundBy, List.mem_filter, OrderedSet.mem_toList, OrderedSet.mem_collect,
    decide_eq_true_eq, ← mem_membersOf_of_run hr, boundTo_of_run hr, binding_eq_some]
  constructor
  · rintro ⟨⟨node, hm, he⟩, ha⟩
    exact ⟨node, hm, ha, he⟩
  · rintro ⟨node, hm, ha, he⟩
    exact ⟨⟨node, hm, he⟩, ha⟩

/-- The address that `resolve` should find is read back from its answer. -/
theorem readsBack_of_refinesRegistry {tr : List Move} {r : Resolver} (hr : Run system tr r)
    {req : Request} (h : RefinesRegistry tr r req) : ReadsBack tr req := by
  obtain ⟨handler, msg⟩ := req
  rintro rfl a ha
  obtain ⟨r', hret⟩ := resolve_of_binding ((boundTo_of_run hr _).symm.trans ha)
  have ho := (h.finds rfl a).mpr ha
  rw [handle, hret] at ho
  exact (obtains_replyUnder r' msg _ _ _).mp ho

/-- **After every run a request is answered as by a registry exactly when the address it asks for,
if any, can be read in the answer.** -/
theorem refinesRegistry_iff {tr : List Move} {r : Resolver} (hr : Run system tr r) (req : Request) :
    RefinesRegistry tr r req ↔ ReadsBack tr req := by
  refine ⟨readsBack_of_refinesRegistry hr, ?_⟩
  obtain ⟨handler, msg⟩ := req
  intro hread
  refine ⟨?_, ?_, mem_membersOf_of_run hr, ?_⟩
  · rintro rfl a
    cases hb : boundTo tr (nodeOf msg) with
    | none =>
      have hno := resolve_of_not_binding ((boundTo_of_run hr _).symm.trans hb)
      simp only [reduceCtorEq, iff_false]
      exact hno.not_obtains (by decide) _ _
    | some b =>
      obtain ⟨r', hret⟩ := resolve_of_binding ((boundTo_of_run hr _).symm.trans hb)
      have hback := hread rfl b hb
      rw [handle, hret, obtains_replyUnder, hback]
      simp
  · rintro rfl hb
    exact resolve_of_not_binding ((boundTo_of_run hr _).symm.trans hb)
  · rintro rfl answer h hok
    exact lists_of_run hr h hok

end Requests

section Sample

attribute [local instance] Jsoncpp.integral

/-- A request with the given handler and members. -/
def requestOf (handler : Handler) (members : Members) : Request :=
  ⟨handler, ⟨⟨.object members⟩, 1, Value.isObject_object members⟩⟩

/-- A node is bound to the address `a`. -/
def bindOf (node : String) : Request :=
  requestOf .bind [("nodename", .string node), ("address", .string "a")]

/-- The run of the given requests, and the maps after it. -/
abbrev runOf (reqs : List Request) : List Move × Resolver := traceOf next {} reqs

theorem refinesRegistry_iff_boundNode :
    RefinesRegistry (runOf [bindOf "n"]).1 (runOf [bindOf "n"]).2
      (requestOf .resolve [("nodename", .string "n")]) := by
  refine (refinesRegistry_iff (run_traceOf (by decide)) _).mpr ?_
  intro _ a _
  rfl

/-- The status code takes the place of an address under its name. -/
theorem not_refinesRegistry_statusCode : ∃ tr r, Run system tr r ∧
    boundTo tr "@status_code" = some "a" ∧
    ¬ RefinesRegistry tr r (requestOf .resolve [("nodename", .string "@status_code")]) := by
  have hr : Run system (runOf [bindOf "@status_code"]).1 _ := run_traceOf (by decide)
  have hb : boundTo (runOf [bindOf "@status_code"]).1 "@status_code" = some "a" := by decide
  refine ⟨_, _, hr, hb, fun h => ?_⟩
  have hread := readsBack_of_refinesRegistry hr h rfl "a" hb
  cases hread

end Sample

end NixSrv.Resolver
