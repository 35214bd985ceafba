import NixSrv.Lib.Streak
import NixSrv.Resolver.Monitor

/-!
# The nodes the monitor unbinds

* `pings`: the pings of an address since a node was last bound;
* `UnbindsUnresponsive`: what may be expected of a step that takes a bound node out of the map;
* `CountsAnew`: when the counters and the copy of the nodes fit the current bindings;
* `Counted`, **`counted_of_run`**: the counters count no more than the pings of the current address;
* **`unbinds_unresponsive`**: while `CountsAnew`, only unresponsive nodes are unbound.
-/

namespace NixSrv.Resolver.Monitor

open Json Transition Streak

section Runs

variable [Jsoncpp] (maxFailures : ℤ)

/-- The request is accepted and binds the node. -/
def Binds (r : Resolver) (req : Request) (node : String) : Prop :=
  req.handler = .bind ∧ r.accepts req = true ∧ nodeOf req.msg = node

instance (r : Resolver) (req : Request) (node : String) : Decidable (Binds r req node) :=
  inferInstanceAs (Decidable (_ ∧ _))

/-- What a step is to the pings of an address since the node was last bound. -/
def pings (node address : String) (m : Move) : Kind :=
  match m.event, m.pre.place with
  | .request req, _ => if Binds m.pre.module req node then .reset else .other
  | .pingNode replied, .nodes ((_, target) :: _) =>
    if target = address then (if replied then .reset else .failure) else .other
  | _, _ => .other

/-- A step of the monitor takes a bound node out of the map only when its address has left that many
pings in a row unanswered since the node was bound. -/
def UnbindsUnresponsive (hist : List Move) (m : Move) : Prop :=
  m.event.ofMonitor = true → ∀ node ∈ m.pre.module.nodes.keys, m.pre.module.addressOf node ≠ "" →
    node ∉ m.post.module.nodes →
    maxFailures ≤ streak (pings node (m.pre.module.addressOf node)) hist

instance (hist : List Move) (m : Move) : Decidable (UnbindsUnresponsive maxFailures hist m) := by
  unfold UnbindsUnresponsive; infer_instance

/-- A node is bound when no failure of it is counted and the round holds no other address of it, and
an answered ping leaves no failures counted of another node with the same address. -/
def CountsAnew (_ : List Move) (m : Move) : Prop :=
  match m.event, m.pre.place with
  | .request req, place => Binds m.pre.module req (nodeOf req.msg) →
    m.pre.nodeFails (nodeOf req.msg) = 0 ∧ ∀ p ∈ place.nodesLeft, p.1 = nodeOf req.msg →
      p.2 = req.msg.getString "address" ""
  | .pingNode true, .nodes ((node, address) :: _) => ∀ other ∈ m.pre.module.nodes.keys,
    other ≠ node → m.pre.module.addressOf other = address → m.pre.nodeFails other = 0
  | _, _ => True

instance (hist : List Move) (m : Move) : Decidable (CountsAnew hist m) :=
  match m with
  | ⟨_, .request _, _⟩ => by change Decidable (_ → _ ∧ _); infer_instance
  | ⟨⟨_, .nodes (_ :: _), _, _⟩, .pingNode true, _⟩ => by
    change Decidable (∀ other ∈ _, _ → _ → _ = 0); infer_instance
  | ⟨⟨_, .nodes [], _, _⟩, .pingNode true, _⟩ | ⟨⟨_, .unbindNode _ _, _, _⟩, .pingNode true, _⟩
  | ⟨⟨_, .services _, _, _⟩, .pingNode true, _⟩
  | ⟨⟨_, .eraseService _ _ _, _, _⟩, .pingNode true, _⟩ | ⟨_, .pingNode false, _⟩
  | ⟨_, .copyNodes _, _⟩ | ⟨_, .unbindNode, _⟩ | ⟨_, .copyServices _, _⟩ | ⟨_, .pingService _, _⟩
  | ⟨_, .eraseService, _⟩ => isTrue trivial

/-- The counters count no more than the pings of the current addresses, which are also those of the
copy. -/
structure Counted (hist : List Move) (m : Monitor) : Prop where
  fails : ∀ node a, m.module.binding node = some a → m.nodeFails node ≤ streak (pings node a) hist
  copied : ∀ node a b, m.module.binding node = some a → (node, b) ∈ m.place.nodesLeft → b = a
  reached : ∀ node left, m.place = .unbindNode node left → maxFailures ≤ m.nodeFails node

variable {maxFailures}

/-! ## One step -/

/-- A node is bound after a request because the request binds it, or was bound before. -/
theorem binding_request {r r' : Resolver} {req : Request} (hs : Resolver.system.step r req r')
    {node a : String} (hb : r'.binding node = some a) :
    Binds r req node ∧ a = req.msg.getString "address" "" ∨
      ¬ Binds r req node ∧ r.binding node = some a := by
  obtain ⟨-, rfl⟩ := step_iff.mp hs
  rw [binding_handle r r, nodeWrite] at hb
  split_ifs at hb with hok
  · cases hh : req.handler with
    | bind =>
      rw [hh] at hb
      cases hb
      exact Or.inl ⟨⟨hh, hok⟩, rfl⟩
    | unbind =>
      rw [hh] at hb
      cases hb
    | resolve | bindService | resolveService | unbindService =>
      rw [hh] at hb
      exact Or.inr ⟨fun h => absurd (hh.symm.trans h.1) (by decide), hb⟩
  · exact Or.inr ⟨fun h => hok h.2, hb⟩

omit [Jsoncpp] in
theorem mem_entriesOf {m : Map String String} {node a : String} :
    (node, a) ∈ entriesOf m ↔ m.lookup node = some a := by
  rw [← Option.mem_def, AList.mem_lookup_iff, entriesOf, List.mem_map]
  constructor
  · rintro ⟨⟨k, v⟩, he, h⟩
    cases h
    exact he
  · exact fun h => ⟨_, h, rfl⟩

omit [Jsoncpp] in
theorem nodesLeft_nodePinged (m : Monitor) (node : String) (left : List (String × String))
    (replied : Bool) : (m.nodePinged maxFailures node left replied).place.nodesLeft = left := by
  simp only [nodePinged]
  split_ifs <;> rfl

omit [Jsoncpp] in
/-- A node is unbound after a ping only if that was one failure too many. -/
theorem place_nodePinged {m : Monitor} {node other : String} {left rest : List (String × String)}
    {replied : Bool}
    (h : (m.nodePinged maxFailures node left replied).place = .unbindNode other rest) :
    other = node ∧ replied = false ∧ maxFailures ≤ (m.nodeFails node + 1 : ℕ) := by
  simp only [nodePinged] at h
  split_ifs at h with hr hle
  cases h
  exact ⟨rfl, Bool.eq_false_of_not_eq_true hr, hle⟩

omit [Jsoncpp] in
theorem nodesLeft_servicePinged (m : Monitor) (service address : String)
    (left : List (String × String)) (replied : Bool) :
    (m.servicePinged maxFailures service address left replied).place.nodesLeft = [] := by
  simp only [servicePinged]
  split_ifs <;> rfl

theorem pings_pingNode {m m' : Monitor} {node address : String} {left : List (String × String)}
    (hp : m.place = .nodes ((node, address) :: left)) (replied : Bool) (other a : String) :
    pings other a ⟨m, .pingNode replied, m'⟩ =
      if address = a then (if replied then .reset else .failure) else .other := by
  simp only [pings, hp]

section Kept

variable {hist : List Move} {m m' : Monitor} {e : Event}

/-- A step that pings no node and binds none. -/
theorem Counted.keep (hi : Counted maxFailures hist m)
    (hb : ∀ node a, m'.module.binding node = some a → m.module.binding node = some a)
    (hf : m'.softFailsNodes = m.softFailsNodes) (hl : m'.place.nodesLeft ⊆ m.place.nodesLeft)
    (hp : ∀ node left, m'.place ≠ .unbindNode node left)
    (hk : ∀ node a, pings node a ⟨m, e, m'⟩ = .other) :
    Counted maxFailures (hist ++ [⟨m, e, m'⟩]) m' := by
  refine ⟨fun node a h => ?_, fun node a b h hmem => ?_, fun node left h => ?_⟩
  · rw [streak_snoc, hk, nodeFails, hf]
    exact hi.fails node a (hb node a h)
  · exact hi.copied node a b (hb node a h) (hl hmem)
  · exact absurd h (hp node left)

/-- No failure is counted of another node with an address that answers. -/
theorem other_fails {node other address : String} {left : List (String × String)}
    (hp : m.place = .nodes ((node, address) :: left)) (hc : CountsAnew hist ⟨m, .pingNode true, m'⟩)
    (hn : other ≠ node) (ha : m.module.addressOf other = address) (hne : address ≠ "") :
    m.nodeFails other = 0 := by
  simp only [CountsAnew, hp] at hc
  refine hc other (AList.mem_keys.mp ?_) hn ha
  by_contra hno
  rw [addressOf, AList.lookup_eq_none.mpr hno] at ha
  exact hne ha.symm

/-- The counters after an answered ping. -/
theorem Counted.fails_answered (hi : Counted maxFailures hist m) {node address : String}
    {left : List (String × String)} (hp : m.place = .nodes ((node, address) :: left))
    (hc : CountsAnew hist ⟨m, .pingNode true, m'⟩) {other a : String}
    (h : m.module.binding other = some a) :
    (m.nodePinged maxFailures node left true).nodeFails other ≤
      streak (pings other a) (hist ++ [⟨m, .pingNode true, m'⟩]) := by
  rw [streak_snoc, pings_pingNode hp, nodeFails_nodePinged]
  by_cases hn : other = node
  · rw [if_pos hn, if_pos rfl]
    exact Nat.zero_le _
  · rw [if_neg hn]
    by_cases ha : address = a
    · -- the streak of the address ends, and no failure of the other node is counted
      obtain ⟨hne, hat⟩ := binding_eq_some.mp h
      rw [other_fails hp hc hn (hat.trans ha.symm) (ha ▸ hne)]
      exact Nat.zero_le _
    · rw [if_neg ha]
      exact hi.fails other a h

/-- The counters after a ping that was not answered. -/
theorem Counted.fails_unanswered (hi : Counted maxFailures hist m) {node address : String}
    {left : List (String × String)} (hp : m.place = .nodes ((node, address) :: left))
    {other a : String} (h : m.module.binding other = some a) :
    (m.nodePinged maxFailures node left false).nodeFails other ≤
      streak (pings other a) (hist ++ [⟨m, .pingNode false, m'⟩]) := by
  have hcount := hi.fails other a h
  rw [streak_snoc, pings_pingNode hp, nodeFails_nodePinged]
  by_cases hn : other = node
  · -- what is pinged is the address the node has now
    have ha : address = a := by
      refine hi.copied other a address h ?_
      rw [hp, hn]
      exact List.mem_cons_self
    rw [if_pos hn, if_pos ha, ← hn]
    exact Nat.succ_le_succ hcount
  · rw [if_neg hn]
    have hk : (if address = a then if false = true then Kind.reset else .failure else .other)
        ≠ .reset := by split_ifs <;> simp_all
    exact hcount.trans (Kind.le_apply hk _)

/-- **A ping.** -/
theorem Counted.pinged (hi : Counted maxFailures hist m) {node address : String}
    {left : List (String × String)} (hp : m.place = .nodes ((node, address) :: left))
    {replied : Bool} (hc : CountsAnew hist ⟨m, .pingNode replied, m'⟩)
    (hm : m' = m.nodePinged maxFailures node left replied) :
    Counted maxFailures (hist ++ [⟨m, .pingNode replied, m'⟩]) m' := by
  subst hm
  refine ⟨fun other a h => ?_, fun other a b h hmem => ?_, fun other rest h => ?_⟩
  · rw [module_nodePinged] at h
    cases replied with
    | true => exact hi.fails_answered hp hc h
    | false => exact hi.fails_unanswered hp h
  · rw [module_nodePinged] at h
    rw [nodesLeft_nodePinged] at hmem
    refine hi.copied other a b h ?_
    rw [hp]
    exact List.mem_cons_of_mem _ hmem
  · obtain ⟨rfl, rfl, hmax⟩ := place_nodePinged h
    rw [nodeFails_nodePinged, if_pos rfl]
    exact hmax

/-- **What one step keeps.** -/
theorem Counted.step (hi : Counted maxFailures hist m) (hs : Step maxFailures m e m')
    (hc : CountsAnew hist ⟨m, e, m'⟩) : Counted maxFailures (hist ++ [⟨m, e, m'⟩]) m' := by
  cases hs with
  | request req r h =>
    have hk : ∀ node a, pings node a ⟨m, .request req, { m with module := r }⟩ =
      if Binds m.module req node then .reset else .other := fun _ _ => rfl
    refine ⟨fun node a hb => ?_, fun node a b hb hmem => ?_, hi.reached⟩
    · rw [streak_snoc, hk]
      rcases binding_request h hb with ⟨hbind, -⟩ | ⟨hno, hb⟩
      · obtain ⟨-, -, rfl⟩ := id hbind
        exact (hc hbind).1.le.trans (Nat.zero_le _)
      · rw [if_neg hno]
        exact hi.fails node a hb
    · rcases binding_request h hb with ⟨hbind, rfl⟩ | ⟨-, hb⟩
      · obtain ⟨-, -, rfl⟩ := id hbind
        exact (hc hbind).2 (_, b) hmem rfl
      · exact hi.copied node a b hb hmem
  | copyNodes nodes hp hperm =>
    refine ⟨fun node a hb => ?_, fun node a b hb hmem => ?_, by simp⟩
    · rw [streak_snoc]
      exact hi.fails node a hb
    · have hl : m.module.nodes.lookup node = some b := mem_entriesOf.mp (hperm.mem_iff.mp hmem)
      rw [← (binding_eq_some.mp hb).2, addressOf, hl]
      rfl
  | pingNode node address left replied hp => exact hi.pinged hp hc rfl
  | unbindNode node left hp =>
    refine hi.keep (fun other a hb => ?_) rfl ?_ (by simp) fun _ _ => rfl
    · obtain ⟨hne, ha⟩ := binding_eq_some.mp hb
      rw [addressOf_unbindNode] at ha
      split_ifs at ha
      · exact absurd ha.symm hne
      · exact binding_eq_some.mpr ⟨hne, ha⟩
    · rw [hp]
      exact List.Subset.refl _
  | copyServices services hp _ =>
    exact hi.keep (fun _ _ hb => hb) rfl (List.nil_subset _) (by simp) fun _ _ => rfl
  | pingService service address left replied hp =>
    refine hi.keep (fun node a hb => ?_) (by simp) ?_ ?_ fun _ _ => rfl
    · rwa [module_servicePinged] at hb
    · rw [nodesLeft_servicePinged]
      exact List.nil_subset _
    · intro node left'
      simp only [servicePinged]
      split_ifs <;> simp
  | eraseService service address left hp =>
    exact hi.keep (fun _ _ hb => hb) rfl (List.nil_subset _) (by simp) fun _ _ => rfl

end Kept

/-! ## Runs -/

theorem counted_of_run {tr : List Move} {m : Monitor} (hr : Run (system maxFailures) tr m)
    (hc : EachMove CountsAnew tr) : Counted maxFailures tr m := by
  refine hr.invariant ?_ ?_ hc
  · rintro _ rfl
    refine ⟨fun node a h => ?_, fun node a b h => ?_, fun node left h => ?_⟩ <;> cases h
  · intro tr m e m' _ hi hs hc
    exact hi.step (step_of_next hs) hc

/-- What a step of the monitor takes out of the map is the node it unbinds. -/
theorem unbound_of_step {m m' : Monitor} {e : Event} (hs : Step maxFailures m e m')
    (he : e.ofMonitor = true) {node : String} (hm : node ∈ m.module.nodes)
    (hm' : node ∉ m'.module.nodes) : ∃ left, m.place = .unbindNode node left := by
  cases hs with
  | request => cases he
  | unbindNode node' left hp =>
    by_cases hn : node = node'
    · exact ⟨left, hn ▸ hp⟩
    · exact absurd (AList.mem_erase.mpr ⟨hn, hm⟩) hm'
  | pingNode node address left replied hp => rw [module_nodePinged] at hm'; exact absurd hm hm'
  | pingService service address left replied hp =>
    rw [module_servicePinged] at hm'
    exact absurd hm hm'
  | copyNodes | copyServices | eraseService => exact absurd hm hm'

/-- **While nodes are bound with fresh counters and no two of them share an answered address, the
monitor unbinds unresponsive nodes only.** -/
theorem unbinds_unresponsive {tr : List Move} {m : Monitor} (hr : Run (system maxFailures) tr m)
    (hc : EachMove CountsAnew tr) : EachMove (UnbindsUnresponsive maxFailures) tr := by
  induction hr with
  | nil _ => trivial
  | @snoc tr m m' e hr hs ih =>
    rw [eachMove_snoc] at hc ⊢
    refine ⟨ih hc.1, fun he node hm ha hm' => ?_⟩
    have hi := counted_of_run hr hc.1
    obtain ⟨left, hp⟩ := unbound_of_step (step_of_next hs) he (AList.mem_keys.mpr hm) hm'
    calc maxFailures ≤ m.nodeFails node := hi.reached node left hp
      _ ≤ _ := Int.ofNat_le.mpr (hi.fails node _ (binding_eq_some.mpr ⟨ha, rfl⟩))

end Runs

section Sample

attribute [local instance] Jsoncpp.integral

/-- A node fails to answer in two rounds and is unbound. -/
def twoRounds : List Event :=
  [.request (bindOf "n"), .copyNodes [("n", "a")], .pingNode false, .copyServices [],
    .copyNodes [("n", "a")], .pingNode false, .unbindNode]

theorem unbinds_unresponsive_twoRounds : EachMove (UnbindsUnresponsive 2) (runOf 2 twoRounds).1 :=
  unbinds_unresponsive (run_traceOf (by decide)) (by decide)

/-- A node gets the address `b` while the monitor pings the address it had in the copy. -/
def boundAnew : List Event :=
  [.request (bindOf "n"), .copyNodes [("n", "a")],
    .request (requestOf .bind [("nodename", .string "n"), ("address", .string "b")]),
    .pingNode false, .unbindNode]

/-- The node is unbound, and its address was never pinged. -/
theorem not_unbindsUnresponsive_boundAnew : ∃ tr m, Run (system 1) tr m ∧
    "n" ∉ m.module.nodes ∧ ¬ EachMove (UnbindsUnresponsive 1) tr :=
  ⟨(runOf 1 boundAnew).1, (runOf 1 boundAnew).2, run_traceOf (by decide), by decide, by decide⟩

end Sample

end NixSrv.Resolver.Monitor
