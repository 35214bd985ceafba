import NixSrv.JobQueue.Invariant
import NixSrv.JobQueue.Manage
import NixSrv.Lib.Cell

/-!
# The capacity of a queue

A size is an `int` in a request and in the configuration file, and a `size_t` in the queue.

* `InstanceConfig`, `parseInstance`: the queues of the configuration file;
* `SizeSource`, `NewQueue`, `Adds`: the creation of a queue, and the size asked for;
* **`queueSize_of_run`**: a queue keeps the capacity it was created with;
* `StaysBounded`, **`staysBounded_iff`**: when it holds no more jobs than were asked for.
-/

namespace NixSrv.JobQueue

open Json Transition

/-! ## The configuration file -/

/-- The values of a C++ `int`. -/
abbrev CInt := {n : ℤ // Value.inInt n}

/-- `queue::InstanceConfig`. -/
structure InstanceConfig where
  name : String
  size : ℕ

/-- `default_queue_size` of `queue::Options::parse`. -/
def optionsDefaultQueueSize : ℤ := 100

/-- The last loop of `queue::Options::parse` for one queue of the list; `size` is the value in its
section of the file, if there is one. -/
def parseInstance (entry : String) (size : Option CInt) : InstanceConfig where
  name := entry
  size :=
    let sizeEntry : ℤ := (size.map Subtype.val).getD optionsDefaultQueueSize
    toSizeT (if sizeEntry ≠ 0 then sizeEntry else optionsDefaultQueueSize)

section Creations

variable [Jsoncpp]

/-- `init_queue(inst)`. -/
def initInstance (inst : InstanceConfig) : Call := .initQueue inst.name inst.size

/-! ## The creation of a queue -/

/-- Where the size of a new queue is read. -/
inductive SizeSource where
  /-- What stands under `create.size` in a request. -/
  | request (size : Option Value)
  /-- The entry `size` of a section of the configuration file. -/
  | config (size : Option CInt)

omit [Jsoncpp] in
/-- The integer a JSON number denotes. -/
def integer? : Value → Option ℤ
  | .int n => some n
  | .real q => if q.den = 1 then some q.num else none
  | _ => none

namespace SizeSource

omit [Jsoncpp]

/-- The size asked for, zero where none is. -/
def asked : SizeSource → ℤ
  | request size => (size.bind integer?).getD 0
  | config size => (size.map Subtype.val).getD 0

/-- The size given where none is asked for. -/
def default : SizeSource → ℤ
  | request _ => defaultQueueSize
  | config _ => optionsDefaultQueueSize

/-- The `int` the code reads, if it is one. -/
def read? : SizeSource → Option ℤ
  | request size => size.bind Value.asInt?
  | config size => size.map Subtype.val

/-- The size is a negative `int`. -/
def Negative (s : SizeSource) : Prop := ∃ n ∈ s.read?, n < 0

/-- The argument of `init_queue`. -/
def size : SizeSource → ℕ
  | request size => toSizeT ((size.bind Value.asInt?).getD 0)
  | config size => (parseInstance "" size).size

/-- The capacity `init_queue` gives the queue. -/
def capacity (s : SizeSource) : ℕ := if s.size ≠ 0 then s.size else defaultQueueSize

end SizeSource

/-- The call creates the queue `name` in the state `jq`, of a size read from `s`. -/
inductive NewQueue (jq : JobQueue) (name : String) : SizeSource → Call → Prop
  | request (env : Env) (msg : IncomingMessage) (hc : Creates msg) (hn : queueOf msg = name)
      (hq : name ∉ (jq.manageAll msg).queues) :
      NewQueue jq name (.request (msg.find "create.size")) (.request ⟨.manage, env, msg⟩)
  /-- The words of the list of queues are not empty. -/
  | config (size : Option CInt) (hn : name ≠ "") (hq : name ∉ jq.queues) :
      NewQueue jq name (.config size) (initInstance (parseInstance name size))

/-- The call puts a new queue under `name`. -/
def Adds (jq : JobQueue) (name : String) : Call → Prop
  | .initQueue name' _ => name' = name ∧ name ∉ jq.queues
  | .request r => r.handler = .manage ∧ Creates r.msg ∧ queueOf r.msg = name ∧
      name ∉ (jq.manageAll r.msg).queues

/-- The last queue put under `name` in a history has a size read from `s`. -/
abbrev MadeFrom (hist : List Move) (name : String) (s : SizeSource) : Prop :=
  Cell.Stands (fun (m : Move) s => NewQueue m.pre name s m.event)
    (fun (m : Move) _ => Adds m.pre name m.event) hist s

/-- After the history `hist`, the queue under `name` holds at most as many jobs as `s` asks for or
as the default, whatever is called until another one is put there. -/
def StaysBounded (hist : List Move) (name : String) (s : SizeSource) : Prop :=
  ∀ rest jq, Run system (hist ++ rest) jq → (∀ m ∈ rest, ¬ Adds m.pre name m.event) →
    ∀ q, jq.queues.lookup name = some q → (q.size : ℤ) ≤ max s.asked s.default

omit [Jsoncpp] in
theorem capacity_ne_zero (s : SizeSource) : s.capacity ≠ 0 := by
  unfold SizeSource.capacity
  split_ifs with h
  · exact h
  · decide

/-- The queue a call creates is open and empty. -/
theorem NewQueue.lookup {jq : JobQueue} {name : String} {s : SizeSource} {c : Call}
    (h : NewQueue jq name s c) :
    (jq.handle c).state.queues.lookup name = some (.new s.capacity) := by
  have hnew : ∀ qs : Map String (Queue Job), name ∉ qs →
      (Map.emplace name (.new s.capacity) qs).lookup name = some (.new s.capacity) := by
    intro qs hq
    rw [Map.lookup_emplace, if_pos rfl, AList.lookup_eq_none.mpr hq, Option.getD_none]
  cases h with
  | request env msg hc hn hq =>
    subst hn
    have hc' : queueOf msg ≠ "" ∧ (!msg.isNull "create") = true := ⟨hc.1, by simp [hc.2]⟩
    change (jq.manage msg).state.queues.lookup _ = _
    rw [manage, if_pos hc', initQueue, if_neg hq]
    exact hnew _ hq
  | config size hn hq =>
    change (jq.initQueue name (parseInstance name size).size).1.queues.lookup name = _
    rw [initQueue, if_neg hq]
    exact hnew _ hq

theorem NewQueue.name_ne {jq : JobQueue} {name : String} {s : SizeSource} {c : Call}
    (h : NewQueue jq name s c) : name ≠ "" := by
  cases h with
  | request env msg hc hn hq => exact hn ▸ hc.1
  | config size hn hq => exact hn

omit [Jsoncpp] in
theorem queueSize_new (s : SizeSource) :
    (Queue.new s.capacity : Queue Job).queueSize = s.capacity :=
  if_pos (capacity_ne_zero s)

/-! ## The other calls -/

omit [Jsoncpp] in
/-- A change of one queue that keeps its capacity. -/
theorem queueSize_insert {qs : Map String (Queue Job)} {n name : String} {q₀ q₁ q' : Queue Job}
    (hl : qs.lookup n = some q₀) (hs : q₁.queueSize = q₀.queueSize)
    (h : (qs.insert n q₁).lookup name = some q') :
    ∃ q, qs.lookup name = some q ∧ q'.queueSize = q.queueSize := by
  rw [Map.lookup_insert] at h
  split_ifs at h with hn
  · cases h
    exact ⟨q₀, hn ▸ hl, hs⟩
  · exact ⟨q', h, rfl⟩

omit [Jsoncpp] in
theorem queueSize_queueAfterAll {msg : IncomingMessage} {o : Option (Queue Job)} {q' : Queue Job}
    (h : queueAfterAll msg o = some q') : ∃ q, o = some q ∧ q'.queueSize = q.queueSize := by
  cases o with
  | none => unfold queueAfterAll at h; split_ifs at h <;> simp at h
  | some q =>
    refine ⟨q, rfl, ?_⟩
    unfold queueAfterAll at h
    split_ifs at h <;> simp at h <;> subst h <;> rfl

omit [Jsoncpp] in
theorem queueSize_queueAfterOwn {msg : IncomingMessage} {q q' : Queue Job}
    (h : queueAfterOwn msg q = some q') : q'.queueSize = q.queueSize := by
  unfold queueAfterOwn at h
  split_ifs at h <;> cases h <;> rfl

theorem queueSize_manage {jq : JobQueue} {name : String} {env : Env} {msg : IncomingMessage}
    (ha : ¬ Adds jq name (.request ⟨.manage, env, msg⟩)) {q' : Queue Job}
    (h : (jq.manage msg).state.queues.lookup name = some q') :
    ∃ q, jq.queues.lookup name = some q ∧ q'.queueSize = q.queueSize := by
  obtain ⟨n, hl⟩ := lookup_manage jq msg
  rw [hl, queueAfter] at h
  split_ifs at h with hn hc
  · cases hall : queueAfterAll msg (jq.queues.lookup name) with
    | none =>
      refine absurd ⟨rfl, hc, hn.symm, ?_⟩ ha
      rw [← AList.lookup_eq_none, lookup_manageAll, hall]
    | some q₁ =>
      rw [hall] at h
      cases h
      exact queueSize_queueAfterAll hall
  · obtain ⟨q₁, hall, hown⟩ := Option.bind_eq_some_iff.mp h
    obtain ⟨q, hq, hs⟩ := queueSize_queueAfterAll hall
    exact ⟨q, hq, (queueSize_queueAfterOwn hown).trans hs⟩
  · exact queueSize_queueAfterAll h

/-- **A call that puts no new queue under a name leaves the capacity of the one there.** -/
theorem queueSize_handle {jq : JobQueue} {name : String} {c : Call} (ha : ¬ Adds jq name c)
    {q' : Queue Job} (h : (jq.handle c).state.queues.lookup name = some q') :
    ∃ q, jq.queues.lookup name = some q ∧ q'.queueSize = q.queueSize := by
  obtain ⟨name', size⟩ | ⟨⟨handler, env, msg⟩⟩ := c
  · change (jq.initQueue name' size).1.queues.lookup name = some q' at h
    by_cases hq : name' ∈ jq.queues
    · rw [initQueue_of_mem hq] at h
      exact ⟨q', h, rfl⟩
    · obtain ⟨n, hi⟩ := initQueue_of_notMem hq size
      have hne : name ≠ name' := fun hn => ha ⟨hn.symm, hn ▸ hq⟩
      rw [hi] at h
      change (Map.emplace _ _ _).lookup name = _ at h
      rw [Map.lookup_emplace, if_neg hne] at h
      exact ⟨q', h, rfl⟩
  cases handler with
  | submit =>
    change (jq.submit env msg).state.queues.lookup name = some q' at h
    cases submit_cases jq env msg with
    | refused _ _ _ ho | noList _ _ ho | closedList _ _ _ ho | passed _ _ _ _ _ _ _ _ _ ho =>
      rw [ho] at h
      exact ⟨q', h, rfl⟩
    | queued q ws _ hq hr _ _ ho =>
      rw [ho] at h
      exact queueSize_insert hq (q.queueSize_enqueue _ hr) h
  | getWork =>
    change (jq.getWork msg).state.queues.lookup name = some q' at h
    cases getWork_cases jq msg with
    | noQueue _ _ ho | waits _ _ _ _ ho | noList _ _ _ ho | parked _ _ _ _ _ ho =>
      rw [ho] at h
      exact ⟨q', h, rfl⟩
    | handed q _ _ hq _ _ ho =>
      rw [ho] at h
      exact queueSize_insert hq q.queueSize_dropFront h
  | setProgress =>
    change (jq.setProgress msg).state.queues.lookup name = some q' at h
    rcases setProgress_cases jq msg with ho | ⟨_, _, -, ho⟩ <;> rw [ho] at h <;> exact ⟨q', h, rfl⟩
  | setResult =>
    change (jq.setResult env msg).state.queues.lookup name = some q' at h
    cases setResult_cases jq env msg with
    | refused _ ho | stored _ ho => rw [ho] at h; exact ⟨q', h, rfl⟩
  | getResult =>
    change (jq.getResult msg).state.queues.lookup name = some q' at h
    cases getResult_cases jq msg with
    | collected _ _ _ ho | denied _ _ _ ho | notReady _ _ _ ho | notFound _ _ ho =>
      rw [ho] at h
      exact ⟨q', h, rfl⟩
  | manage => exact queueSize_manage ha h
  | status =>
    change (jq.status msg).state.queues.lookup name = some q' at h
    rcases status_cases jq msg with ⟨_, ho⟩ | ho <;> rw [ho] at h <;> exact ⟨q', h, rfl⟩

/-- **After every run, the queue under a name has the capacity of the size it was made with.** -/
theorem queueSize_of_run {tr : List Move} {jq : JobQueue} (hr : Run system tr jq) {name : String} :
    ∀ s, MadeFrom tr name s → ∀ q, jq.queues.lookup name = some q →
      q.queueSize = s.capacity := by
  induction hr with
  | nil _ => exact fun s hs => absurd hs (Cell.not_stands_nil s)
  | @snoc tr jq jq' c hr h ih =>
    obtain ⟨-, rfl⟩ := step_iff.mp h
    intro s hs q hq
    rcases (Cell.stands_snoc _ _ _).mp hs with hnew | ⟨hs, ha⟩
    · rw [NewQueue.lookup hnew] at hq
      cases hq
      exact queueSize_new s
    · obtain ⟨q₀, hq₀, hsize⟩ := queueSize_handle ha hq
      exact hsize.trans (ih s hs q₀ hq₀)

/-! ## Sizes that are not negative -/

omit [Jsoncpp] in
theorem toSizeT_of_nonneg {n : ℤ} (h : 0 ≤ n) (hn : Value.inInt n) : (toSizeT n : ℤ) = n := by
  obtain ⟨-, hlt⟩ := hn
  unfold toSizeT
  omega

omit [Jsoncpp] in
/-- An `int` that a JSON value is read as is the integer it denotes. -/
theorem integer?_of_asInt? {v : Value} {n : ℤ} (h : v.asInt? = some n) :
    integer? v = some n ∧ Value.inInt n := by
  cases v with
  | int m =>
    simp only [Value.asInt?] at h
    split_ifs at h with hm
    cases h
    exact ⟨rfl, hm⟩
  | real q =>
    simp only [Value.asInt?] at h
    split_ifs at h with hm
    cases h
    exact ⟨if_pos hm.1, hm.2⟩
  | null | string _ | bool _ | array _ | object _ => cases h

omit [Jsoncpp] in
theorem toSizeT_of_neg {n : ℤ} (h : n < 0) (hn : Value.inInt n) : 2 ^ 63 ≤ toSizeT n := by
  obtain ⟨hge, -⟩ := hn
  unfold toSizeT
  omega

omit [Jsoncpp] in
theorem toSizeT_eq_zero {n : ℤ} (hn : Value.inInt n) : toSizeT n = 0 ↔ n = 0 := by
  obtain ⟨hge, hlt⟩ := hn
  unfold toSizeT
  omega

omit [Jsoncpp] in
/-- What the code reads is an `int`, and is what was asked for. -/
theorem SizeSource.asked_of_read {s : SizeSource} {n : ℤ} (h : s.read? = some n) :
    s.asked = n ∧ Value.inInt n := by
  cases s with
  | request size =>
    obtain ⟨v, rfl, hv⟩ := Option.bind_eq_some_iff.mp h
    obtain ⟨hi, hn⟩ := integer?_of_asInt? hv
    exact ⟨by simp [asked, hi], hn⟩
  | config size =>
    obtain ⟨m, rfl, rfl⟩ := Option.map_eq_some_iff.mp h
    exact ⟨rfl, m.2⟩

omit [Jsoncpp] in
/-- The capacity by what is read. -/
theorem SizeSource.capacity_eq (s : SizeSource) :
    (s.capacity : ℤ) = if s.read?.getD 0 = 0 then s.default else toSizeT (s.read?.getD 0) := by
  have hint : Value.inInt (s.read?.getD 0) := by
    cases hr : s.read? with
    | none => decide
    | some n => exact (asked_of_read hr).2
  have h0 := toSizeT_eq_zero hint
  cases s with
  | request size =>
    change ((if toSizeT _ ≠ 0 then toSizeT _ else defaultQueueSize : ℕ) : ℤ) = _
    split_ifs with h h' h'
    · exact absurd (h0.mpr h') h
    · rfl
    · rfl
    · exact absurd (h0.mp (not_not.mp h)) h'
  | config size =>
    have hdef : toSizeT optionsDefaultQueueSize = 100 := by decide
    have hsize : (config size).size = if (config size).read?.getD 0 = 0 then 100
        else toSizeT ((config size).read?.getD 0) := by
      cases size with
      | none => exact hdef
      | some n =>
        obtain ⟨n, hn⟩ := n
        change toSizeT (if n ≠ 0 then n else optionsDefaultQueueSize) = _
        split_ifs with h h' h'
        · exact absurd h' h
        · rfl
        · exact hdef
        · exact absurd (not_not.mp h) h'
    unfold capacity
    rw [hsize]
    split_ifs with h h' h'
    · rfl
    · exact absurd h' (by decide)
    · rfl
    · exact absurd (h0.mp (not_not.mp h')) h

omit [Jsoncpp] in
/-- A size that is no negative `int` gives at most the larger of the size asked for and the
default. -/
theorem capacity_le {s : SizeSource} (h : ¬ s.Negative) :
    (s.capacity : ℤ) ≤ max s.asked s.default := by
  rw [s.capacity_eq]
  split_ifs with h0
  · exact le_max_right _ _
  · obtain ⟨n, hn⟩ : ∃ n, s.read? = some n := Option.isSome_iff_exists.mp (by
      cases hr : s.read? with
      | none => simp [hr] at h0
      | some n => rfl)
    obtain ⟨hasked, hint⟩ := SizeSource.asked_of_read hn
    have hpos : 0 ≤ n := by
      by_contra hneg
      exact h ⟨n, hn, not_le.mp hneg⟩
    rw [hn, Option.getD_some, toSizeT_of_nonneg hpos hint, hasked]
    exact le_max_left _ _

/-! ## Negative sizes -/

/-- After the history `hist` and calls that put no new queue under `name`, `P` holds. -/
def Reaches (hist : List Move) (name : String) (P : JobQueue → Prop) : Prop :=
  ∃ rest jq, Run system (hist ++ rest) jq ∧ (∀ m ∈ rest, ¬ Adds m.pre name m.event) ∧ P jq

theorem reaches_of_now {hist : List Move} {jq : JobQueue} {name : String} {P : JobQueue → Prop}
    (hr : Run system hist jq) (hp : P jq) : Reaches hist name P :=
  ⟨[], jq, by rwa [List.append_nil], fun m hm => absurd hm List.not_mem_nil, hp⟩

theorem reaches_of_step {hist : List Move} {m : Move} {name : String} {P : JobQueue → Prop}
    (ha : ¬ Adds m.pre name m.event) (h : Reaches (hist ++ [m]) name P) : Reaches hist name P := by
  obtain ⟨rest, jq, hr, hrest, hp⟩ := h
  refine ⟨m :: rest, jq, by rwa [List.append_cons], fun m' hm' => ?_, hp⟩
  rcases List.mem_cons.mp hm' with rfl | hm'
  · exact ha
  · exact hrest m' hm'

/-- A job for the queue `name`. -/
def jobFor (name : String) : Request :=
  requestOf .submit 0 [("module", .string name), ("action", .string "a"), ("parameters", .null)]

theorem validSubmit_jobFor {name : String} (h : name ≠ "") : ValidSubmit (jobFor name).msg :=
  ⟨h, (by decide : "a" ≠ ""), rfl⟩

theorem not_adds_jobFor (jq : JobQueue) (name : String) :
    ¬ Adds jq name (.request (jobFor name)) := fun h => Handler.noConfusion h.1

variable {hist : List Move} {jq : JobQueue} {name : String} {q : Queue Job}
  {ws : Queue IncomingMessage}

/-- A call that submits a job for the queue takes one step. -/
theorem reaches_of_jobFor {jq' : JobQueue} {sent : List Sent} {P : JobQueue → Prop}
    (hr : Run system hist jq)
    (h : jq.submit (jobFor name).env (jobFor name).msg = .returned jq' sent)
    (hnext : Run system (hist ++ [⟨jq, .request (jobFor name), jq'⟩]) jq' →
      Reaches (hist ++ [⟨jq, .request (jobFor name), jq'⟩]) name P) : Reaches hist name P := by
  have hstep : system.step jq (.request (jobFor name)) jq' := by
    refine step_iff.mpr ?_
    change (jq.submit _ _).Finished ∧ _ = (jq.submit _ _).state
    rw [h]
    exact ⟨Or.inl rfl, rfl⟩
  exact reaches_of_step (not_adds_jobFor jq name) (hnext (hr.snoc hstep))

/-- Jobs are submitted until no worker is parked. -/
theorem reaches_unparked (hname : name ≠ "") (hr : Run system hist jq)
    (hq : jq.queues.lookup name = some q) (ho : q.isClosed = false)
    (hw : jq.workersAwaiting.lookup name = some ws) {P : JobQueue → Prop}
    (hnext : ∀ hist' jq' ws', Run system hist' jq' → jq'.queues.lookup name = some q →
      jq'.workersAwaiting.lookup name = some ws' → ws'.q = [] → Reaches hist' name P) :
    Reaches hist name P := by
  obtain ⟨n, hn⟩ : ∃ n, ws.q.length = n := ⟨_, rfl⟩
  induction n generalizing hist jq ws with
  | zero => exact hnext hist jq ws hr hq hw (List.eq_nil_of_length_eq_zero hn)
  | succ n ih =>
    obtain ⟨w, rest, hws⟩ := List.exists_cons_of_length_eq_add_one hn
    have hwo : ws.isClosed = false := (wellFormed_of_run hr).awaiting_open name ws hw
    refine reaches_of_jobFor hr
      (submit_of_parked (validSubmit_jobFor hname) hq ho hw hwo hws _) fun hr' => ?_
    refine ih hr' hq (AList.lookup_insert _) ?_
    simp [hws] at hn ⊢
    exact hn

/-- Jobs are submitted to a queue with room until there are `n` more. -/
theorem reaches_filled (hname : name ≠ "") (n : ℕ) (hr : Run system hist jq)
    (hq : jq.queues.lookup name = some q) (ho : q.isClosed = false)
    (hn : q.q.length + n ≤ q.queueSize) (hw : jq.workersAwaiting.lookup name = some ws)
    (hws : ws.q = []) :
    Reaches hist name fun jq' => ∃ q', jq'.queues.lookup name = some q' ∧
      q'.q.length = q.q.length + n := by
  induction n generalizing hist jq q with
  | zero => exact reaches_of_now hr ⟨q, hq, rfl⟩
  | succ n ih =>
    have hroom : q.HasRoom := ⟨ho, by omega⟩
    refine reaches_of_jobFor hr
      (submit_of_hasRoom (validSubmit_jobFor hname) hq hroom hw hws _) fun hr' => ?_
    have hlen : (q.enqueue (Job.ofMessage (jobFor name).env (jobFor name).msg.toMessage)
        hroom).q.length = q.q.length + 1 := by simp
    have := ih hr' (AList.lookup_insert _) ho (by rw [hlen, Queue.queueSize_enqueue]; omega) hw
    rw [hlen] at this
    simpa only [Nat.add_assoc, Nat.add_comm 1 n] using this

section Bounds

variable {jq' : JobQueue} {c : Call} {s : SizeSource} (hr : Run system hist jq)
  (hs : system.step jq c jq') (hnew : NewQueue jq name s c)

omit hr hs in
include hnew in
/-- A queue of a size that is no negative `int` stays within its bound. -/
theorem staysBounded_of_not_negative (h : ¬ s.Negative) :
    StaysBounded (hist ++ [⟨jq, c, jq'⟩]) name s := by
  intro rest jq₁ hr₁ hrest q hq
  rw [← List.append_cons] at hr₁
  have hcap : q.queueSize = s.capacity :=
    queueSize_of_run hr₁ s ⟨hist, _, rest, rfl, hnew, hrest⟩ q hq
  calc (q.size : ℤ) ≤ q.queueSize := by exact_mod_cast q.length_le
    _ = s.capacity := by rw [hcap]
    _ ≤ max s.asked s.default := capacity_le h

include hr hs hnew

/-- A queue of a negative size is filled beyond its bound by some calls. -/
theorem not_staysBounded_of_negative (h : s.Negative) :
    ¬ StaysBounded (hist ++ [⟨jq, c, jq'⟩]) name s := by
  obtain ⟨n, hn, hneg⟩ := h
  obtain ⟨hasked, hint⟩ := SizeSource.asked_of_read hn
  have hsize : 2 ^ 63 ≤ s.capacity := by
    have hcap := s.capacity_eq
    rw [Option.mem_def.mp hn, Option.getD_some, if_neg hneg.ne] at hcap
    have := toSizeT_of_neg hneg hint
    omega
  have hdefault : s.default ≤ 100 := by
    cases s <;>
      simp only [SizeSource.default, defaultQueueSize, optionsDefaultQueueSize] <;> omega
  obtain ⟨hfin, rfl⟩ := step_iff.mp hs
  have hr' := hr.snoc hs
  obtain ⟨ws, hw⟩ := Map.exists_lookup
    ((wellFormed_of_run hr').awaiting name (Map.mem_of_lookup hnew.lookup))
  have hfilled : Reaches (hist ++ [⟨jq, c, (jq.handle c).state⟩]) name fun jq' =>
      ∃ q', jq'.queues.lookup name = some q' ∧ q'.q.length = 0 + 101 := by
    refine reaches_unparked hnew.name_ne hr' hnew.lookup rfl hw ?_
    intro hist' jq₁ ws' hr₁ hq₁ hw₁ hws
    refine reaches_filled hnew.name_ne 101 hr₁ hq₁ rfl ?_ hw₁ hws
    rw [queueSize_new]
    change 0 + 101 ≤ s.capacity
    omega
  obtain ⟨rest, jq₁, hr₁, hrest, q, hq, hlen⟩ := hfilled
  intro hbounded
  have hle : (q.size : ℤ) ≤ max s.asked s.default := hbounded rest jq₁ hr₁ hrest q hq
  have hq101 : (q.size : ℤ) = 101 := by
    change ((q.q.length : ℕ) : ℤ) = 101
    rw [hlen]
    rfl
  rw [hq101, hasked] at hle
  omega

/-- **A queue holds at most as many jobs as were asked for or as the default, whatever is called,
exactly when its size is no negative `int`.** -/
theorem staysBounded_iff : StaysBounded (hist ++ [⟨jq, c, jq'⟩]) name s ↔ ¬ s.Negative :=
  ⟨fun h hneg => not_staysBounded_of_negative hr hs hnew hneg h,
    staysBounded_of_not_negative hnew⟩

end Bounds

end Creations

section Sample

attribute [local instance] Jsoncpp.integral

/-- The call that creates the queue `q` of the given size. -/
def createCall (size : ℤ) : Call := .request ⟨.manage, ⟨⟨"uuid", uuid_ne⟩, 1⟩, createOf 0 size⟩

theorem newQueue_createCall (size : ℤ) :
    NewQueue {} "q" (.request (some (.int size))) (createCall size) :=
  .request _ (createOf 0 size) (creates_createOf 0 size) (queueOf_createOf 0 size)
    (by rw [manageAll_eq_self (anyAllAction_createOf 0 size)]; exact AList.notMem_empty _)

theorem step_createCall (size : ℤ) :
    system.step {} (createCall size) (JobQueue.handle {} (createCall size)).state := by
  refine step_iff.mpr ⟨Or.inl ?_, rfl⟩
  exact (manage_frame {} (createOf 0 size)).1

theorem staysBounded_createCall :
    StaysBounded [⟨{}, createCall 7, (JobQueue.handle {} (createCall 7)).state⟩] "q"
      (.request (some (.int 7))) := by
  refine (staysBounded_iff (show Run system [] {} from .nil rfl) (step_createCall 7)
    (newQueue_createCall 7)).mpr ?_
  rintro ⟨n, hn, hneg⟩
  cases hn
  exact absurd hneg (by decide)

/-- A queue of size -1 is filled with more than 50 jobs. -/
theorem not_staysBounded_createCall :
    ¬ StaysBounded [⟨{}, createCall (-1), (JobQueue.handle {} (createCall (-1))).state⟩] "q"
      (.request (some (.int (-1)))) :=
  not_staysBounded_of_negative (show Run system [] {} from .nil rfl) (step_createCall (-1))
    (newQueue_createCall (-1)) ⟨-1, rfl, by decide⟩

end Sample

end NixSrv.JobQueue
