import NixSrv.Lib.Streak
import NixSrv.Resolver.Monitor

/-!
# The services the monitor checks

The monitor pings a service at the names of its members, not at their addresses.

* `Follows`: the pings of services are answered as by a network;
* `servicePings`, **`serviceFails_of_run`**: the counters count the pings in a row that a target has
  left unanswered;
* `ChecksServices`: what may be expected of a step that takes a bound node out of a service;
* `OwnAddresses`: every member of a service has its own name as its address;
* `erases_or_round`, `erases_of_member`: a member whose name does not answer is taken out at last;
* **`checksServices_iff`**: the registries on which the monitor does what may be expected, whatever
  the network answers.
-/

namespace NixSrv.Resolver.Monitor

open Json Transition Streak

/-- The event begins a round. -/
def startsRound : Event → Bool
  | .copyNodes _ => true
  | _ => false

/-- The number of the current round. -/
def round (hist : List Move) : ℕ := hist.countP fun m => startsRound m.event

/-- The ping of a service is answered as the network says, for its target in this round. -/
def Follows (net : String → String → ℕ → Bool) (hist : List Move) (m : Move) : Prop :=
  match m.event, m.pre.place with
  | .pingService replied, .services ((service, target) :: _) =>
    replied = net target service (round hist)
  | _, _ => True

instance (net : String → String → ℕ → Bool) (hist : List Move) (m : Move) :
    Decidable (Follows net hist m) := by
  unfold Follows; split <;> infer_instance

/-- What a step is to the pings of a service that are sent to a target. -/
def servicePings (service target : String) (m : Move) : Kind :=
  match m.event, m.pre.place with
  | .pingService replied, .services ((s, t) :: _) =>
    if service = s ∧ target = t then (if replied then .reset else .failure) else .other
  | _, _ => .other

section Runs

variable (maxFailures : ℤ)

/-- A step of the monitor takes a node that stays bound out of a service only when the address of
the node has left that many pings of the service in a row unanswered. -/
def ChecksServices (net : String → String → ℕ → Bool) (hist : List Move) (m : Move) : Prop :=
  m.event.ofMonitor = true → ∀ service node address,
    node ∈ m.pre.module.membersOf service → node ∉ m.post.module.membersOf service →
    m.post.module.nodes.lookup node = some address →
    max 1 maxFailures ≤ streak (servicePings service address) hist ∧
      ∃ round, net address service round = false

/-- Every member of a service that is bound has its own name as its address. -/
def OwnAddresses (r : Resolver) : Prop :=
  ∀ service, ∀ node ∈ r.membersOf service, ∀ address ∈ r.nodes.lookup node, address = node

variable {maxFailures} [Jsoncpp] {m m' : Monitor} {e : Event}

/-! ## One step -/

theorem serviceFails_step (hs : Step maxFailures m e m') (service target : String) :
    m'.serviceFails service target =
      (servicePings service target ⟨m, e, m'⟩).apply (m.serviceFails service target) := by
  cases hs with
  | request | copyNodes | unbindNode | copyServices | eraseService => rfl
  | pingNode node address left replied hp =>
    rw [serviceFails, softFailsServices_nodePinged]
    rfl
  | pingService s t left replied hp =>
    have hk : ∀ m', servicePings service target ⟨m, .pingService replied, m'⟩ =
        if service = s ∧ target = t then (if replied then .reset else .failure) else .other := by
      intro m'
      simp only [servicePings, hp]
    rw [serviceFails_servicePinged, hk]
    split_ifs with h
    · rfl
    · rw [h.1, h.2]
      rfl
    · rfl

/-- A member that is about to be taken out of a service has failed too often, at its name. -/
def Reached (maxFailures : ℤ) (m : Monitor) : Prop :=
  ∀ service node left, m.place = .eraseService service node left →
    max 1 maxFailures ≤ m.serviceFails service node

theorem Reached.step (hi : Reached maxFailures m) (hs : Step maxFailures m e m') :
    Reached maxFailures m' := by
  intro service node left h
  cases hs with
  | request => exact hi service node left h
  | copyNodes | unbindNode | copyServices | eraseService => cases h
  | pingNode node' address left' replied hp =>
    simp only [nodePinged] at h
    split_ifs at h
  | pingService s t left' replied hp =>
    have hr : replied = false ∧ s = service ∧ t = node ∧
        maxFailures ≤ (m.serviceFails s t + 1 : ℕ) := by
      simp only [servicePinged] at h
      split_ifs at h with hr hle
      cases h
      exact ⟨Bool.eq_false_of_not_eq_true hr, rfl, rfl, hle⟩
    obtain ⟨rfl, rfl, rfl, hle⟩ := hr
    rw [serviceFails_servicePinged, if_pos ⟨rfl, rfl⟩]
    exact max_le (by simp) hle

/-- What a step of the monitor takes out of a service while it stays bound is the member it
erases. -/
theorem erased_of_step (hs : Step maxFailures m e m') (he : e.ofMonitor = true)
    {service node address : String} (hm : node ∈ m.module.membersOf service)
    (hm' : node ∉ m'.module.membersOf service) (hb : m'.module.nodes.lookup node = some address) :
    e = .eraseService ∧ (∃ left, m.place = .eraseService service node left) ∧
      m.module.nodes.lookup node = some address := by
  cases hs with
  | request => cases he
  | copyNodes | copyServices => exact absurd hm hm'
  | pingNode => rw [module_nodePinged] at hm'; exact absurd hm hm'
  | pingService => rw [module_servicePinged] at hm'; exact absurd hm hm'
  | unbindNode node' left hp =>
    have hne : node ≠ node' := by
      rintro rfl
      rw [unbindNode, AList.lookup_erase] at hb
      cases hb
    exact absurd ((mem_membersOf_unbindNode _).mpr ⟨hne, hm⟩) hm'
  | eraseService s t left hp =>
    rw [eraseMember, membersOf_insert] at hm'
    split_ifs at hm' with hsv
    · subst hsv
      have ht : node = t := by
        by_contra hne
        exact hm' (OrderedSet.mem_erase.mpr ⟨hne, hm⟩)
      subst ht
      exact ⟨rfl, ⟨left, hp⟩, hb⟩
    · exact absurd hm hm'

/-! ## Runs -/

/-- **The counters after a run.** -/
theorem serviceFails_of_run {tr : List Move} (hr : Run (system maxFailures) tr m)
    (service target : String) :
    m.serviceFails service target = streak (servicePings service target) tr := by
  induction hr with
  | nil h => cases h; rfl
  | snoc _ hs ih => rw [streak_snoc, serviceFails_step (step_of_next hs), ih]

theorem reached_of_run {tr : List Move} (hr : Run (system maxFailures) tr m) :
    Reached maxFailures m := by
  refine hr.state_invariant (I := Reached maxFailures) ?_ fun m e m' hi hs =>
    hi.step (step_of_next hs)
  rintro _ rfl service node left h
  cases h

omit [Jsoncpp] in
/-- A target that has left a ping unanswered does not answer in every round. -/
theorem exists_unanswered {net : String → String → ℕ → Bool} {tr : List Move}
    (hf : EachMove (Follows net) tr) {service target : String}
    (hs : 0 < streak (servicePings service target) tr) :
    ∃ round, net target service round = false := by
  obtain ⟨h₁, ⟨pre, event, post⟩, h₂, rfl, hk⟩ := exists_failure hs
  rw [List.append_cons] at hf
  have hm := ((eachMove_snoc _ _).mp hf.of_append).2
  simp only [servicePings] at hk
  simp only [Follows] at hm
  split at hk
  · rename_i replied s t left hp
    simp only [hp] at hm
    split_ifs at hk with hst hr
    obtain ⟨rfl, rfl⟩ := hst
    exact ⟨_, hm.symm.trans (Bool.eq_false_of_not_eq_true hr)⟩
  · cases hk

/-! ## Members with their own names as addresses -/

/-- The monitor binds nothing. -/
theorem OwnAddresses.step (h : OwnAddresses m.module) (hs : Step maxFailures m e m')
    (he : e.ofMonitor = true) : OwnAddresses m'.module := by
  cases hs with
  | request => cases he
  | copyNodes | copyServices => exact h
  | pingNode => rwa [module_nodePinged]
  | pingService => rwa [module_servicePinged]
  | unbindNode node left hp =>
    intro service node' hm address ha
    obtain ⟨hne, hm⟩ := (mem_membersOf_unbindNode _).mp hm
    have ha' : m.module.nodes.lookup node' = some address := by
      rwa [unbindNode, AList.lookup_erase_ne hne] at ha
    exact h service node' hm address ha'
  | eraseService service node left hp =>
    intro service' node' hm address ha
    refine h service' node' ?_ address ha
    rw [eraseMember, membersOf_insert] at hm
    split_ifs at hm with hsv
    · exact hsv ▸ (OrderedSet.mem_erase.mp hm).2
    · exact hm

/-- The step takes a member out that has its own name as its address. -/
theorem checksServices_of_ownAddresses {tr : List Move} {net : String → String → ℕ → Bool}
    (hr : Run (system maxFailures) tr m) (hf : EachMove (Follows net) tr)
    (hs : Step maxFailures m e m') (h : OwnAddresses m.module) :
    ChecksServices maxFailures net tr ⟨m, e, m'⟩ := by
  intro he service node address hm hm' hb
  obtain ⟨rfl, ⟨left, hp⟩, hb⟩ := erased_of_step hs he hm hm' hb
  have hmax : max 1 maxFailures ≤ streak (servicePings service address) tr := by
    rw [← serviceFails_of_run hr, h service node hm address hb]
    exact reached_of_run hr service node left hp
  refine ⟨hmax, exists_unanswered hf ?_⟩
  have hone := (le_max_left 1 maxFailures).trans hmax
  omega

/-- Rounds on a registry whose members have their own names as addresses. -/
theorem checksServices_of_rounds {hist : List Move} (hr : Run (system maxFailures) hist m)
    (hreq : ∀ mv ∈ hist, mv.event.ofMonitor = false) (h : OwnAddresses m.module)
    {net : String → String → ℕ → Bool} {rounds : List Move} :
    ∀ {m'}, Run (system maxFailures) (hist ++ rounds) m' →
      (∀ mv ∈ rounds, mv.event.ofMonitor = true) → EachMove (Follows net) (hist ++ rounds) →
      OwnAddresses m'.module ∧ EachMove (ChecksServices maxFailures net) (hist ++ rounds) := by
  induction rounds using List.reverseRecOn with
  | nil =>
    intro m' hr' _ _
    rw [List.append_nil] at hr' ⊢
    refine ⟨hr.end_unique hr' ▸ h, eachMove_of_forall fun mv hm _ he => ?_⟩
    rw [hreq mv hm] at he
    cases he
  | append_singleton rounds mv ih =>
    intro m' hr' hmon hf
    rw [← List.append_assoc] at hr' hf ⊢
    rw [eachMove_snoc] at hf ⊢
    obtain ⟨hpre, hs⟩ := hr'.of_append
    have hs := step_of_next hs
    obtain ⟨hown, hch⟩ := ih hpre (fun mv' hm => hmon mv' (List.mem_append_left _ hm)) hf.1
    refine ⟨hr'.post_eq ▸ hown.step hs (hmon mv (by simp)), hch, ?_⟩
    exact checksServices_of_ownAddresses hpre hf.1 hs hown

/-! ## A member whose name does not answer -/

section Silent

variable (maxFailures) (s n : String)

/-- The network on which the service `s` does not answer at the target `n`. -/
def silentAt (target service : String) (_ : ℕ) : Bool := !decide (service = s ∧ target = n)

/-- A step of the monitor on this network. -/
def SilentStep (m m' : Monitor) : Prop :=
  ∃ e, (system maxFailures).step m e m' ∧ e.ofMonitor = true ∧
    ∀ hist, Follows (silentAt s n) hist ⟨m, e, m'⟩

/-- The monitor comes to take `n` out of `s`, with nothing else changed. -/
def Erases (m : Monitor) : Prop :=
  ∃ m' left, Relation.ReflTransGen (SilentStep maxFailures s n) m m' ∧ m'.module = m.module ∧
    m'.place = .eraseService s n left

variable {maxFailures s n}

theorem Erases.of_steps (hs : Relation.ReflTransGen (SilentStep maxFailures s n) m m')
    (hmod : m'.module = m.module) (h : Erases maxFailures s n m') : Erases maxFailures s n m := by
  obtain ⟨m'', left, hs', hmod', hp⟩ := h
  exact ⟨m'', left, hs.trans hs', hmod'.trans hmod, hp⟩

omit [Jsoncpp] in
theorem mem_visits {r : Resolver} (h : n ∈ r.membersOf s) :
    (s, n) ∈ visits (entriesOf r.services) := by
  unfold membersOf at h
  cases hs : r.services.lookup s with
  | none => rw [hs] at h; cases h
  | some members =>
    rw [hs] at h
    refine List.mem_flatMap.mpr ⟨(s, members), ?_, List.mem_map.mpr ⟨n, h, rfl⟩⟩
    exact List.mem_map.mpr ⟨⟨s, members⟩, AList.mem_lookup_iff.mp hs, rfl⟩

variable (maxFailures s n) in
/-- The loop over the nodes, all of which answer. -/
theorem steps_nodes (left : List (String × String)) : ∀ m : Monitor, m.place = .nodes left →
    ∃ m', Relation.ReflTransGen (SilentStep maxFailures s n) m m' ∧ m'.module = m.module ∧
      m'.place = .nodes [] ∧ m'.serviceFails s n = m.serviceFails s n := by
  induction left with
  | nil => exact fun m hp => ⟨m, .refl, rfl, hp, rfl⟩
  | cons p left ih =>
    intro m hp
    have hstep : SilentStep maxFailures s n m (m.nodePinged maxFailures p.1 left true) := by
      refine ⟨.pingNode true, ?_, rfl, fun hist => ?_⟩
      · show next maxFailures m (.pingNode true) = _
        simp only [next, hp]
      · simp [Follows]
    obtain ⟨m', hs, hmod, hp', hfails⟩ := ih (m.nodePinged maxFailures p.1 left true) rfl
    refine ⟨m', .head hstep hs, hmod.trans (module_nodePinged ..), hp', hfails.trans ?_⟩
    rw [serviceFails, softFailsServices_nodePinged, serviceFails]

variable (maxFailures s n) in
/-- The loops over the services: a ping of `s` at `n` is counted, unless it is the one too many. -/
theorem steps_services (left : List (String × String)) : ∀ m : Monitor, m.place = .services left →
    Erases maxFailures s n m ∨
    ∃ m', Relation.ReflTransGen (SilentStep maxFailures s n) m m' ∧ m'.module = m.module ∧
      m'.place = .services [] ∧ m.serviceFails s n ≤ m'.serviceFails s n ∧
      ((s, n) ∈ left → m.serviceFails s n < m'.serviceFails s n) ∧
      ((m.serviceFails s n : ℤ) < maxFailures ∨ (s, n) ∈ left →
        (m'.serviceFails s n : ℤ) < maxFailures) := by
  induction left with
  | nil =>
    refine fun m hp => Or.inr ⟨m, .refl, rfl, hp, le_rfl, fun h => absurd h List.not_mem_nil, ?_⟩
    exact fun h => h.resolve_right List.not_mem_nil
  | cons p left ih =>
    intro m hp
    obtain ⟨sv, t⟩ := p
    -- the only ping that is not answered is that of `s` at `n`
    have hstep : ∀ replied, replied = silentAt s n t sv 0 →
        SilentStep maxFailures s n m (m.servicePinged maxFailures sv t left replied) := by
      rintro replied hr
      refine ⟨.pingService replied, ?_, rfl, fun hist => ?_⟩
      · show next maxFailures m (.pingService replied) = _
        simp only [next, hp]
      · simp only [Follows, hp]
        exact hr
    by_cases hst : sv = s ∧ t = n
    · obtain ⟨rfl, rfl⟩ := hst
      have hfirst := hstep false (by simp [silentAt])
      have hmod : (m.servicePinged maxFailures sv t left false).module = m.module :=
        module_servicePinged ..
      have hfails : (m.servicePinged maxFailures sv t left false).serviceFails sv t =
          m.serviceFails sv t + 1 := by
        rw [serviceFails_servicePinged, if_pos ⟨rfl, rfl⟩]
        rfl
      by_cases hle : maxFailures ≤ (m.serviceFails sv t + 1 : ℕ)
      · exact Or.inl ⟨_, left, .single hfirst, hmod, if_pos hle⟩
      · have hplace : (m.servicePinged maxFailures sv t left false).place = .services left :=
          if_neg hle
        rcases ih _ hplace with h | ⟨m', hs, hmod', hp', hle', -, hmax⟩
        · exact Or.inl (h.of_steps (.single hfirst) hmod)
        · rw [hfails] at hle' hmax
          exact Or.inr ⟨m', .head hfirst hs, hmod'.trans hmod, hp', (Nat.le_succ _).trans hle',
            fun _ => hle', fun _ => hmax (Or.inl (not_le.mp hle))⟩
    · have hfirst := hstep true (by simp [silentAt, hst])
      have hmod : (m.servicePinged maxFailures sv t left true).module = m.module :=
        module_servicePinged ..
      have hfails : (m.servicePinged maxFailures sv t left true).serviceFails s n =
          m.serviceFails s n := by
        rw [serviceFails_servicePinged, if_neg fun h => hst ⟨h.1.symm, h.2.symm⟩]
      have hmem : (s, n) ∈ (sv, t) :: left ↔ (s, n) ∈ left := by
        rw [List.mem_cons, or_iff_right]
        exact fun h => hst ⟨(Prod.mk.inj h).1.symm, (Prod.mk.inj h).2.symm⟩
      rcases ih (m.servicePinged maxFailures sv t left true) rfl with
        h | ⟨m', hs, hmod', hp', hle', hlt, hmax⟩
      · exact Or.inl (h.of_steps (.single hfirst) hmod)
      · rw [hfails] at hle' hlt hmax
        rw [hmem]
        exact Or.inr ⟨m', .head hfirst hs, hmod'.trans hmod, hp', hle', hlt, hmax⟩

variable (maxFailures) in
/-- A round leaves one more ping of a member unanswered, or the member is taken out in it. -/
theorem erases_or_round (hp : m.place = .services []) (hn : n ∈ m.module.membersOf s) :
    Erases maxFailures s n m ∨
    ∃ m', Relation.ReflTransGen (SilentStep maxFailures s n) m m' ∧ m'.module = m.module ∧
      m'.place = .services [] ∧ m.serviceFails s n < m'.serviceFails s n ∧
      (m'.serviceFails s n : ℤ) < maxFailures := by
  have hnodes : SilentStep maxFailures s n m
      { m with place := .nodes (entriesOf m.module.nodes) } := by
    refine ⟨.copyNodes (entriesOf m.module.nodes), ?_, rfl, fun hist => ?_⟩
    · show next maxFailures m (.copyNodes (entriesOf m.module.nodes)) = _
      simp only [next, hp, List.Perm.refl, if_true]
    · simp [Follows]
  obtain ⟨m₁, hs₁, hmod₁, hp₁, hfails₁⟩ := steps_nodes maxFailures s n _
    { m with place := .nodes (entriesOf m.module.nodes) } rfl
  have hservices : SilentStep maxFailures s n m₁
      { m₁ with place := .services (visits (entriesOf m₁.module.services)) } := by
    refine ⟨.copyServices (entriesOf m₁.module.services), ?_, rfl, fun hist => ?_⟩
    · show next maxFailures m₁ (.copyServices (entriesOf m₁.module.services)) = _
      simp only [next, hp₁, List.Perm.refl, if_true]
    · simp [Follows]
  have hsteps := (Relation.ReflTransGen.head hnodes hs₁).tail hservices
  have hvisit : (s, n) ∈ visits (entriesOf m₁.module.services) := by
    rw [hmod₁]
    exact mem_visits hn
  rcases steps_services maxFailures s n _
      { m₁ with place := .services (visits (entriesOf m₁.module.services)) } rfl with
    h | ⟨m', hs, hmod, hp', -, hlt, hmax⟩
  · exact Or.inl (h.of_steps hsteps hmod₁)
  · refine Or.inr ⟨m', hsteps.trans hs, hmod.trans hmod₁, hp', ?_, hmax (Or.inr hvisit)⟩
    exact hfails₁ ▸ hlt hvisit

variable (maxFailures) in
/-- **A member whose name does not answer is taken out of its service**, after rounds in which
nothing else happens. -/
theorem erases_of_member (hp : m.place = .services []) (hn : n ∈ m.module.membersOf s) :
    Erases maxFailures s n m := by
  have hrounds : ∀ k : ℕ, Erases maxFailures s n m ∨
      ∃ m', Relation.ReflTransGen (SilentStep maxFailures s n) m m' ∧ m'.module = m.module ∧
        m'.place = .services [] ∧ k ≤ m'.serviceFails s n ∧
        (0 < k → (m'.serviceFails s n : ℤ) < maxFailures) := by
    intro k
    induction k with
    | zero => exact Or.inr ⟨m, .refl, rfl, hp, Nat.zero_le _, fun h => absurd h (lt_irrefl 0)⟩
    | succ k ih =>
      rcases ih with h | ⟨m₁, hs₁, hmod₁, hp₁, hk, -⟩
      · exact Or.inl h
      · rcases erases_or_round maxFailures hp₁ (hmod₁ ▸ hn) with
          h | ⟨m', hs, hmod, hp', hlt, hmax⟩
        · exact Or.inl (h.of_steps hs₁ hmod₁)
        · exact Or.inr ⟨m', hs₁.trans hs, hmod.trans hmod₁, hp', hk.trans_lt hlt, fun _ => hmax⟩
  rcases hrounds (maxFailures.toNat + 1) with h | ⟨m', -, -, -, hk, hmax⟩
  · exact h
  · have hlt := hmax (Nat.succ_pos _)
    omega

end Silent

omit [Jsoncpp] in
theorem follows_of_request {net : String → String → ℕ → Bool} {mv : Move}
    (h : mv.event.ofMonitor = false) (hist : List Move) : Follows net hist mv := by
  obtain ⟨pre, e, post⟩ := mv
  cases e with
  | request => trivial
  | _ => cases h

/-- Between the requests before its first round, the monitor has no place. -/
theorem place_of_requests {hist : List Move} (hr : Run (system maxFailures) hist m)
    (hreq : ∀ mv ∈ hist, mv.event.ofMonitor = false) : m.place = .services [] := by
  induction hr with
  | nil h => cases h; rfl
  | snoc hr hs ih =>
    cases step_of_next hs with
    | request => exact ih fun mv hm => hreq mv (List.mem_append_left _ hm)
    | _ =>
      have hev := hreq _ (List.mem_append_right _ (List.mem_singleton_self _))
      cases hev

/-- **The registries on which the monitor checks services where they run**, whatever the network
answers and for any rounds: those whose members have their own names as addresses. -/
theorem checksServices_iff {hist : List Move} (hr : Run (system maxFailures) hist m)
    (hreq : ∀ mv ∈ hist, mv.event.ofMonitor = false) :
    (∀ net rounds m', Run (system maxFailures) (hist ++ rounds) m' →
      (∀ mv ∈ rounds, mv.event.ofMonitor = true) → EachMove (Follows net) (hist ++ rounds) →
      EachMove (ChecksServices maxFailures net) (hist ++ rounds)) ↔ OwnAddresses m.module := by
  constructor
  · intro h service node hm address ha
    by_contra hne
    obtain ⟨m₁, left, hs, hmod, hp⟩ := erases_of_member maxFailures
      (place_of_requests hr hreq) hm
    obtain ⟨rounds, hr', hP⟩ := Run.continued (P := fun mv : Move => mv.event.ofMonitor = true ∧
      ∀ hist, Follows (silentAt service node) hist mv) hs hr
    obtain ⟨m₂, herase, hm₂⟩ : ∃ m₂, (system maxFailures).step m₁ .eraseService m₂ ∧
        m₂.module = eraseMember m.module service node := by
      refine ⟨{ m₁ with
        module := eraseMember m₁.module service node, place := .services left }, ?_, ?_⟩
      · show next maxFailures m₁ .eraseService = _
        simp only [next, hp]
      · rw [← hmod]
    have hmon : ∀ mv ∈ rounds ++ [⟨m₁, .eraseService, m₂⟩], mv.event.ofMonitor = true := by
      intro mv hmv
      rcases List.mem_append.mp hmv with hmv | hmv
      · exact (hP mv hmv).1
      · rw [List.mem_singleton.mp hmv]
        rfl
    have hfollows : EachMove (Follows (silentAt service node))
        (hist ++ (rounds ++ [⟨m₁, .eraseService, m₂⟩])) := by
      refine eachMove_of_forall fun mv hmv => ?_
      rcases List.mem_append.mp hmv with hmv | hmv
      · exact follows_of_request (hreq mv hmv)
      rcases List.mem_append.mp hmv with hmv | hmv
      · exact (hP mv hmv).2
      · rw [List.mem_singleton.mp hmv]
        exact fun _ => by simp [Follows]
    have hrun : Run (system maxFailures) (hist ++ (rounds ++ [⟨m₁, .eraseService, m₂⟩])) m₂ := by
      rw [← List.append_assoc]
      exact hr'.snoc herase
    have hlast := h (silentAt service node) _ m₂ hrun hmon hfollows
    rw [← List.append_assoc, eachMove_snoc] at hlast
    -- the address of the member answers every ping
    obtain ⟨-, round, hround⟩ := hlast.2 rfl service node address (hmod ▸ hm)
      (by simp [hm₂, eraseMember, membersOf_insert]) (by rw [hm₂]; exact ha)
    simp [silentAt, hne] at hround
  · intro h net rounds m' hr' hmon hf
    exact (checksServices_of_rounds hr hreq h hr' hmon hf).2

end Runs

section Sample

attribute [local instance] Jsoncpp.integral

/-- The node `node` is bound to the address `a` and offers the service `s`, which the monitor finds
unanswered. -/
def oneRound (node : String) (services : OrderedSet String) : List Event :=
  [.request (bindOf node),
    .request (requestOf .bindService [("service", .string "s"), ("nodename", .string node)]),
    .copyNodes [(node, "a")], .pingNode true, .copyServices [("s", services)], .pingService false,
    .eraseService]

/-- The registry on which a service is offered by the node `node`, bound to the address `a`. -/
def offered (node : String) : List Event := (oneRound node ∅).take 2

/-- A node whose name is its address. -/
theorem checksServices_iff_ownName :
    (∀ net rounds m', Run (system 1) ((runOf 1 (offered "a")).1 ++ rounds) m' →
      (∀ mv ∈ rounds, mv.event.ofMonitor = true) →
      EachMove (Follows net) ((runOf 1 (offered "a")).1 ++ rounds) →
      EachMove (ChecksServices 1 net) ((runOf 1 (offered "a")).1 ++ rounds)) ↔
    OwnAddresses (runOf 1 (offered "a")).2.module :=
  checksServices_iff (run_traceOf (by decide)) (by decide)

/-- A service that always answers at the address of its node is taken from the node. -/
theorem not_checksServices_otherName : ∃ tr m net, Run (system 1) tr m ∧ EachMove (Follows net) tr ∧
    (∀ round, net "a" "s" round = true) ∧ ¬ EachMove (ChecksServices 1 net) tr := by
  have hr : Run (system 1) (runOf 1 (oneRound "n" (OrderedSet.insert "n" ∅))).1 _ :=
    run_traceOf (by decide)
  have hf : EachMove (Follows fun target _ _ => target = "a")
      (runOf 1 (oneRound "n" (OrderedSet.insert "n" ∅))).1 := by decide
  refine ⟨_, _, _, hr, hf, fun _ => rfl, fun h => ?_⟩
  -- the last move takes the node out of the service
  have hlast := EachMove.of_mem (P := fun m => m.event.ofMonitor = true →
      "n" ∈ m.pre.module.membersOf "s" → "n" ∉ m.post.module.membersOf "s" →
      m.post.module.nodes.lookup "n" = some "a" → False)
    (h.mono fun hist m hm he hin hout hb => ?_) (List.getLast_mem (by decide))
  · exact hlast (by decide) (by decide) (by decide) (by decide)
  · obtain ⟨-, round, hround⟩ := hm he "s" "n" "a" hin hout hb
    simp at hround

end Sample

end NixSrv.Resolver.Monitor
