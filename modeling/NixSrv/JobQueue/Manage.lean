import NixSrv.JobQueue.Spec

/-!
# Requests that manage queues

* `AnsweredOnce`, `Silent`, **`answeredOnce_iff`**: when `manage` answers its sender once;
* `CreateRequest`, `Creation`, `system`: `N` requests for one new queue, where a step is the test of
  `init_queue` or its insertion under the mutex; **`manage_of_create`**: what they are alone;
* `OneWins`, `FindsAbsent`, **`oneWins_iff`**: when exactly one of them creates the queue.
-/

namespace NixSrv.JobQueue

open Json Transition

section Requests

variable [Jsoncpp]

/-! ## Answers -/

/-- The handler returns and has sent one reply, which goes to the sender of the request. -/
structure AnsweredOnce (o : Outcome) (msg : IncomingMessage) : Prop where
  returned : o.ending = .returned
  reply : ∃ m, o.sent = [⟨msg.handle, .reply m⟩]

/-- The request does something to all queues, and its second part neither creates a queue nor finds
the one it names. -/
def Silent (jq : JobQueue) (msg : IncomingMessage) : Prop :=
  anyAllAction msg = true ∧ ¬ Creates msg ∧
    (msg.getBool "remove_all" false = true ∨ queueOf msg ∉ jq.queues)

instance (jq : JobQueue) (msg : IncomingMessage) : Decidable (Silent jq msg) := by
  unfold Silent; infer_instance

omit [Jsoncpp] in
/-- The queues the second part of `manage` finds. -/
theorem mem_manageAll (jq : JobQueue) (msg : IncomingMessage) (name : String) :
    name ∈ (jq.manageAll msg).queues ↔
      msg.getBool "remove_all" false = false ∧ name ∈ jq.queues := by
  rw [← AList.lookup_isSome, ← AList.lookup_isSome, lookup_manageAll, queueAfterAll]
  cases msg.getBool "remove_all" false <;> cases msg.getBool "clear_all" false <;>
    cases msg.isNull "switch_all" <;> simp

omit [Jsoncpp] in
theorem manageAll_eq_self {jq : JobQueue} {msg : IncomingMessage} (h : anyAllAction msg = false) :
    jq.manageAll msg = jq := by
  simp only [anyAllAction, Bool.or_eq_false_iff] at h
  simp [manageAll, h]

/-- **Every request is answered once, except for the silent ones.** -/
theorem answeredOnce_iff (jq : JobQueue) (msg : IncomingMessage) :
    AnsweredOnce (jq.manage msg) msg ↔ ¬ Silent jq msg := by
  have hmem : queueOf msg ∉ (jq.manageAll msg).queues ↔
      msg.getBool "remove_all" false = true ∨ queueOf msg ∉ jq.queues := by
    rw [mem_manageAll, not_and_or, Bool.not_eq_false]
  rw [Silent, ← hmem]
  cases manage_cases jq msg with
  | created n hc hq h => exact iff_of_true ⟨by rw [h], _, by rw [h]; rfl⟩ fun hs => hs.2.1 hc
  | alreadyThere hc hq h => exact iff_of_true ⟨by rw [h], _, by rw [h]; rfl⟩ fun hs => hs.2.1 hc
  | own q hc hq h =>
    exact iff_of_true ⟨by rw [h], _, by rw [h]; rfl⟩ fun hs => hs.2.2 (Map.mem_of_lookup hq)
  | none hc hq h =>
    have hn : queueOf msg ∉ (jq.manageAll msg).queues := AList.lookup_eq_none.mp hq
    by_cases ha : anyAllAction msg = true
    · refine iff_of_false ?_ (not_not_intro ⟨ha, hc, hn⟩)
      rintro ⟨-, m, hm⟩
      rw [h, if_pos ha] at hm
      cases hm
    · refine iff_of_true ⟨by rw [h], Members.setStatus [] .nullValue, ?_⟩ fun hs => ha hs.1
      rw [h, if_neg ha]
      rfl

/-! ## Requests for one new queue -/

/-- The capacity a request asks for. -/
def capacityOf (msg : Message) : ℕ :=
  let size := toSizeT (msg.getInt "create.size" 0)
  if size ≠ 0 then size else defaultQueueSize

/-- A request to create the queue `name` that asks for nothing else. -/
structure CreateRequest (name : String) extends IncomingMessage where
  queue : queueOf toIncomingMessage = name
  creates : Creates toIncomingMessage
  only : anyAllAction toIncomingMessage = false

omit [Jsoncpp] in
/-- The insertion of `init_queue`, which leaves a queue that is there as it is. -/
def insertQueue (jq : JobQueue) (name : String) (capacity : ℕ) : JobQueue :=
  { jq with
    queues := Map.emplace name (.new capacity) jq.queues
    workersAwaiting := Map.emplace name (.new capacity) jq.workersAwaiting }

/-- The answer to a request by what `init_queue` returns. -/
def createAnswer (msg : IncomingMessage) (created : Bool) : Sent :=
  if created then msg.replyEmpty
  else msg.fail .fail "Failed to create queue. Already exists?"

omit [Jsoncpp] in
@[simp] theorem isOk_createAnswer (msg : IncomingMessage) (created : Bool) :
    (createAnswer msg created).isOk = created := by
  cases created <;> simp [createAnswer]

/-- Where a request is. -/
inductive CreateStage where
  /-- Before the test of `init_queue`. -/
  | test
  /-- Before the insertion. -/
  | insert
  | done (created : Bool)
  deriving DecidableEq

/-- The request has been answered. -/
def CreateStage.isDone : CreateStage → Bool
  | done _ => true
  | _ => false

/-- The module and `N` requests. -/
structure Creation (N : ℕ) where
  module : JobQueue
  stages : Fin N → CreateStage := fun _ => .test

/-- What a step of a request does. -/
def CreateStage.step (jq : JobQueue) (name : String) (msg : Message) :
    CreateStage → Option (JobQueue × CreateStage)
  | test => some (jq, if name ∈ jq.queues then done false else insert)
  | insert => some (jq.insertQueue name (capacityOf msg), done true)
  | done _ => none

/-- The steps of a request with no other step between them. -/
def CreateStage.alone (jq : JobQueue) (name : String) (msg : Message) :
    Option (JobQueue × CreateStage) :=
  (CreateStage.step jq name msg .test).bind fun r =>
    if r.2 = .insert then CreateStage.step r.1 name msg .insert else some r

/-- **Alone, the steps of a request are what `manage` does.** -/
theorem manage_of_create {name : String} (jq : JobQueue) (r : CreateRequest name) :
    ∃ jq' created, CreateStage.alone jq name r.toMessage = some (jq', .done created) ∧
      jq.manage r.toIncomingMessage =
        .returned jq' [createAnswer r.toIncomingMessage created] := by
  obtain ⟨msg, rfl, hc, ho⟩ := r
  have hall : jq.manageAll msg = jq := manageAll_eq_self ho
  have hc' : queueOf msg ≠ "" ∧ (!msg.isNull "create") = true := ⟨hc.1, by simp [hc.2]⟩
  by_cases hq : queueOf msg ∈ jq.queues
  · refine ⟨jq, false, by simp [CreateStage.alone, CreateStage.step, hq], ?_⟩
    rw [manage, if_pos hc', hall, initQueue_of_mem hq]
    rfl
  · refine ⟨jq.insertQueue (queueOf msg) (capacityOf msg.toMessage), true,
      by simp [CreateStage.alone, CreateStage.step, hq], ?_⟩
    have hi : jq.initQueue (queueOf msg) (toSizeT (msg.getInt "create.size" 0)) =
        (jq.insertQueue (queueOf msg) (capacityOf msg.toMessage), true) := if_neg hq
    rw [manage, if_pos hc', hall, hi]
    rfl

/-! ## Interleavings -/

variable {N : ℕ} {name : String}

/-- A step of request `t`. -/
def Creation.next (reqs : Fin N → CreateRequest name) (s : Creation N) (t : Fin N) :
    Option (Creation N) :=
  ((s.stages t).step s.module name (reqs t).toMessage).map fun r =>
    ⟨r.1, Function.update s.stages t r.2⟩

/-- **The requests on a module in the state `jq`**, whose steps are interleaved in any way. -/
def creation (jq : JobQueue) (reqs : Fin N → CreateRequest name) : System (Creation N) (Fin N) :=
  .ofNext { module := jq } (Creation.next reqs)

omit [Jsoncpp] in
/-- Every request has been answered. -/
def Creation.Finished (s : Creation N) : Prop := ∀ t, (s.stages t).isDone = true

omit [Jsoncpp] in
instance (s : Creation N) : Decidable s.Finished := by unfold Creation.Finished; infer_instance

omit [Jsoncpp] in
theorem Creation.Finished.done {s : Creation N} (h : s.Finished) (t : Fin N) :
    ∃ created, s.stages t = .done created := by
  cases hp : s.stages t with
  | done created => exact ⟨created, rfl⟩
  | test | insert => simpa [hp, CreateStage.isDone] using h t

/-- The answer a request has got. -/
def Creation.answer (s : Creation N) (reqs : Fin N → CreateRequest name) (t : Fin N) :
    Option Sent :=
  match s.stages t with
  | .done created => some (createAnswer (reqs t).toIncomingMessage created)
  | _ => none

/-- One request is answered ok and the others with a failure, and the queue has the capacity that
request asked for. -/
def OneWins (s : Creation N) (reqs : Fin N → CreateRequest name) : Prop :=
  ∃ t, (∃ a ∈ s.answer reqs t, a.isOk = true) ∧
    (∀ u, u ≠ t → ∃ a ∈ s.answer reqs u, a.isOk = false) ∧
    ∃ queue, s.module.queues.lookup name = some queue ∧
      queue.queueSize = capacityOf (reqs t).toMessage

/-- An insertion finds no queue with the name. -/
def FindsAbsent (name : String) (m : Transition.Move (Creation N) (Fin N)) : Prop :=
  m.pre.stages m.event = .insert → name ∉ m.pre.module.queues

omit [Jsoncpp] in
instance (m : Transition.Move (Creation N) (Fin N)) : Decidable (FindsAbsent name m) := by
  unfold FindsAbsent; infer_instance

omit [Jsoncpp] in
/-- The request has made its insertion. -/
def Creation.Won (s : Creation N) (t : Fin N) : Prop := s.stages t = .done true

/-- What a step can be. -/
inductive CreateStep (name : String) (reqs : Fin N → CreateRequest name) (s : Creation N)
    (t : Fin N) : Creation N → Prop
  | refused (hp : s.stages t = .test) (hq : name ∈ s.module.queues) :
      CreateStep name reqs s t ⟨s.module, Function.update s.stages t (.done false)⟩
  | tested (hp : s.stages t = .test) (hq : name ∉ s.module.queues) :
      CreateStep name reqs s t ⟨s.module, Function.update s.stages t .insert⟩
  | inserted (hp : s.stages t = .insert) : CreateStep name reqs s t
      ⟨s.module.insertQueue name (capacityOf (reqs t).toMessage),
        Function.update s.stages t (.done true)⟩

theorem createStep_of_step {jq : JobQueue} {reqs : Fin N → CreateRequest name}
    {s s' : Creation N} {t : Fin N} (h : (creation jq reqs).step s t s') :
    CreateStep name reqs s t s' := by
  obtain ⟨r, hr, rfl⟩ := Option.map_eq_some_iff.mp h
  cases hp : s.stages t with
  | test =>
    rw [hp] at hr
    cases hr
    by_cases hq : name ∈ s.module.queues
    · rw [if_pos hq]
      exact .refused hp hq
    · rw [if_neg hq]
      exact .tested hp hq
  | insert =>
    rw [hp] at hr
    cases hr
    exact .inserted hp
  | done created =>
    rw [hp] at hr
    cases hr

omit [Jsoncpp] in
theorem won_update {s : Creation N} {jq : JobQueue} {t u : Fin N} {p : CreateStage} :
    Creation.Won ⟨jq, Function.update s.stages t p⟩ u ↔
      if u = t then p = .done true else s.Won u := by
  unfold Creation.Won
  simp only [Function.update_apply]
  split_ifs <;> rfl

omit [Jsoncpp] in
/-- A step that does not insert makes no winner. -/
theorem won_update_of_ne {s : Creation N} {t : Fin N} {p : CreateStage}
    (hs : s.stages t ≠ .done true) (hp : p ≠ .done true) (jq : JobQueue) (u : Fin N) :
    Creation.Won ⟨jq, Function.update s.stages t p⟩ u ↔ s.Won u := by
  rw [won_update]
  split_ifs with h
  · subst h
    exact iff_of_false hp hs
  · rfl

/-- While there is no queue, no request is done. Then there is a winner, whose queue it is, and it
is alone as long as every insertion has found no queue. -/
structure CreationInv (reqs : Fin N → CreateRequest name)
    (tr : List (Transition.Move (Creation N) (Fin N))) (s : Creation N) : Prop where
  absent : name ∉ s.module.queues → ∀ t created, s.stages t ≠ .done created
  present : name ∈ s.module.queues → ∃ t, s.Won t ∧
    s.module.queues.lookup name = some (.new (capacityOf (reqs t).toMessage))
  unique : EachMove (fun _ m => FindsAbsent name m) tr ↔ ∀ t u, s.Won t → s.Won u → t = u

variable {reqs : Fin N → CreateRequest name} {tr : List (Transition.Move (Creation N) (Fin N))}
  {s : Creation N} {t : Fin N}

/-- The test makes no winner, whatever comes after it. -/
theorem CreationInv.afterTest (h : CreationInv reqs tr s) (hp : s.stages t = .test)
    {stage : CreateStage} (hs : stage ≠ .done true)
    (ha : name ∉ s.module.queues → ∀ created, stage ≠ .done created) :
    CreationInv reqs (tr ++ [⟨s, t, ⟨s.module, Function.update s.stages t stage⟩⟩])
      ⟨s.module, Function.update s.stages t stage⟩ := by
  have hw : ∀ u, Creation.Won ⟨s.module, Function.update s.stages t stage⟩ u ↔ s.Won u :=
    won_update_of_ne (by simp [hp]) hs s.module
  refine ⟨fun hq u created => ?_, fun hq => ?_, ?_⟩
  · by_cases hu : u = t
    · subst hu
      simpa using ha hq created
    · simpa [hu] using h.absent hq u created
  · obtain ⟨u, hu, hl⟩ := h.present hq
    exact ⟨u, (hw u).mpr hu, hl⟩
  · have hfinds : FindsAbsent name
        ⟨s, t, ⟨s.module, Function.update s.stages t stage⟩⟩ := by
      intro hi
      rw [hp] at hi
      cases hi
    rw [eachMove_snoc, h.unique, and_iff_left hfinds]
    simp only [hw]

/-- The insertion makes a winner, which is the only one when there was no queue. -/
theorem CreationInv.afterInsert (h : CreationInv reqs tr s) (hp : s.stages t = .insert) :
    CreationInv reqs (tr ++ [⟨s, t, ⟨s.module.insertQueue name (capacityOf (reqs t).toMessage),
        Function.update s.stages t (.done true)⟩⟩])
      ⟨s.module.insertQueue name (capacityOf (reqs t).toMessage),
        Function.update s.stages t (.done true)⟩ := by
  have hmem : name ∈ (s.module.insertQueue name (capacityOf (reqs t).toMessage)).queues :=
    Map.mem_emplace.mpr (Or.inl rfl)
  have hlook := Map.lookup_emplace name name (Queue.new (capacityOf (reqs t).toMessage))
    s.module.queues
  rw [if_pos rfl] at hlook
  have hwon : Creation.Won ⟨s.module.insertQueue name (capacityOf (reqs t).toMessage),
      Function.update s.stages t (.done true)⟩ t := won_update.mpr (by rw [if_pos rfl])
  by_cases hq : name ∈ s.module.queues
  · -- the queue has a winner already, which is another request
    obtain ⟨u, hu, hl⟩ := h.present hq
    have hne : u ≠ t := by
      rintro rfl
      rw [Creation.Won, hp] at hu
      cases hu
    have hu' : Creation.Won ⟨s.module.insertQueue name (capacityOf (reqs t).toMessage),
        Function.update s.stages t (.done true)⟩ u := won_update.mpr (by rwa [if_neg hne])
    refine ⟨fun h => absurd hmem h, fun _ => ⟨u, hu', hlook.trans (by rw [hl]; rfl)⟩, ?_⟩
    rw [eachMove_snoc]
    exact iff_of_false (fun hall => hall.2 hp hq) fun hone => hne (hone u t hu' hwon)
  · have hnone : ∀ u, ¬ s.Won u := fun u hu => h.absent hq u true hu
    refine ⟨fun h => absurd hmem h,
      fun _ => ⟨t, hwon, hlook.trans (by rw [AList.lookup_eq_none.mpr hq]; rfl)⟩, ?_⟩
    have hone : ∀ u, Creation.Won ⟨s.module.insertQueue name (capacityOf (reqs t).toMessage),
        Function.update s.stages t (.done true)⟩ u → u = t := by
      intro u hu
      by_contra hne
      rw [won_update, if_neg hne] at hu
      exact hnone u hu
    rw [eachMove_snoc]
    exact iff_of_true ⟨h.unique.mpr fun u _ hu => absurd hu (hnone u), fun _ => hq⟩
      fun u v hu hv => (hone u hu).trans (hone v hv).symm

theorem creationInv_of_run {jq : JobQueue} (hn : name ∉ jq.queues)
    (hr : Run (creation jq reqs) tr s) : CreationInv reqs tr s := by
  induction hr with
  | nil hs =>
    cases hs
    refine ⟨fun _ _ _ => by simp, fun h => absurd h hn, iff_of_true trivial fun t u ht => ?_⟩
    simp [Creation.Won] at ht
  | @snoc tr s s' t hr h ih =>
    cases createStep_of_step h with
    | refused hp hq => exact ih.afterTest hp (by simp) fun hn => absurd hq hn
    | tested hp hq => exact ih.afterTest hp (by simp) (by simp)
    | inserted hp => exact ih.afterInsert hp

theorem exists_answer {created : Bool} (h : s.stages t = .done created) :
    ∃ a ∈ s.answer reqs t, a.isOk = created := by
  refine ⟨createAnswer (reqs t).toIncomingMessage created, ?_, isOk_createAnswer _ _⟩
  simp [Creation.answer, h]

theorem Creation.Finished.done_of_answer (hf : s.Finished) {created : Bool}
    (h : ∃ a ∈ s.answer reqs t, a.isOk = created) : s.stages t = .done created := by
  obtain ⟨a, ha, rfl⟩ := h
  obtain ⟨c, hc⟩ := hf.done t
  rw [Creation.answer, hc] at ha
  cases ha
  rw [hc, isOk_createAnswer]

omit [Jsoncpp] in
theorem capacityOf_ne_zero (msg : Message) : capacityOf msg ≠ 0 := by
  simp only [capacityOf]
  split_ifs with h
  · exact h
  · decide

/-- When one request wins, no insertion has found a queue. -/
theorem findsAbsent_of_oneWins {jq : JobQueue} (hn : name ∉ jq.queues)
    (hr : Run (creation jq reqs) tr s) (hf : s.Finished) (h : OneWins s reqs) :
    EachMove (fun _ m => FindsAbsent name m) tr := by
  obtain ⟨w, -, hlost, -⟩ := h
  have key : ∀ v, s.Won v → v = w := by
    intro v hv
    by_contra hne
    have hdone := hf.done_of_answer (hlost v hne)
    rw [Creation.Won, hdone] at hv
    cases hv
  exact (creationInv_of_run hn hr).unique.mpr fun t u ht hu => (key t ht).trans (key u hu).symm

/-- **When all requests are answered, one has created the queue exactly when every insertion has
found no queue.** -/
theorem oneWins_iff {n : ℕ} {jq : JobQueue} (hn : name ∉ jq.queues)
    {reqs : Fin (n + 1) → CreateRequest name}
    {tr : List (Transition.Move (Creation (n + 1)) (Fin (n + 1)))} {s : Creation (n + 1)}
    (hr : Run (creation jq reqs) tr s) (hf : s.Finished) :
    OneWins s reqs ↔ EachMove (fun _ m => FindsAbsent name m) tr := by
  refine ⟨findsAbsent_of_oneWins hn hr hf, fun habsent => ?_⟩
  have hinv := creationInv_of_run hn hr
  have hone := hinv.unique.mp habsent
  have hq : name ∈ s.module.queues := by
    by_contra hq
    obtain ⟨c, hc⟩ := hf.done 0
    exact hinv.absent hq 0 c hc
  obtain ⟨w, hw, hl⟩ := hinv.present hq
  refine ⟨w, exists_answer hw, fun u hne => ?_, _, hl, if_pos (capacityOf_ne_zero _)⟩
  obtain ⟨c, hc⟩ := hf.done u
  cases c with
  | true => exact absurd (hone u w hc hw) hne
  | false => exact exists_answer hc

end Requests

section Sample

attribute [local instance] Jsoncpp.integral

/-- A request to create the queue `q` of the given size. -/
def createOf (handle : ℕ) (size : ℤ) : IncomingMessage :=
  (requestOf .manage handle
    [("queue", .string "q"), ("create", .object [("size", .int size)])]).msg

theorem queueOf_createOf (handle : ℕ) (size : ℤ) : queueOf (createOf handle size) = "q" := rfl

theorem creates_createOf (handle : ℕ) (size : ℤ) : Creates (createOf handle size) :=
  ⟨(by decide : "q" ≠ ""), rfl⟩

theorem anyAllAction_createOf (handle : ℕ) (size : ℤ) :
    anyAllAction (createOf handle size) = false := rfl

/-- Two requests to create the queue `q`, of the sizes 1 and 2. -/
def createBoth (t : Fin 2) : CreateRequest "q" where
  toIncomingMessage := createOf t (t + 1)
  queue := queueOf_createOf _ _
  creates := creates_createOf _ _
  only := anyAllAction_createOf _ _

/-- The run of two requests on an empty module, and its last state. -/
abbrev createRun (ts : List (Fin 2)) :
    List (Transition.Move (Creation 2) (Fin 2)) × Creation 2 :=
  traceOf (Creation.next createBoth) { module := {} } ts

theorem oneWins_oneAfterOther : OneWins (createRun [1, 1, 0]).2 createBoth := by
  have hr : Run (creation {} createBoth) (createRun [1, 1, 0]).1 _ := run_traceOf (by decide)
  exact (oneWins_iff (by decide) hr (by decide)).mpr (by decide)

/-- Both requests find no queue before either inserts it, and both are answered ok. -/
theorem not_oneWins_bothTest :
    ∃ s, Run (creation {} createBoth) (createRun [0, 1, 1, 0]).1 s ∧ s.Finished ∧
      (∀ t, ∃ a ∈ s.answer createBoth t, a.isOk = true) ∧ ¬ OneWins s createBoth := by
  have hr : Run (creation {} createBoth) (createRun [0, 1, 1, 0]).1 _ := run_traceOf (by decide)
  refine ⟨_, hr, by decide, by decide, fun h => ?_⟩
  exact absurd (findsAbsent_of_oneWins (by decide) hr (by decide) h) (by decide)

/-- A request that empties all queues and names none is not answered. -/
theorem not_answeredOnce_clearAll :
    ¬ AnsweredOnce (manage {} (requestOf .manage 0 [("clear_all", .bool true)]).msg)
      (requestOf .manage 0 [("clear_all", .bool true)]).msg := by
  rintro ⟨-, m, hm⟩
  have hnone : (manage {} (requestOf .manage 0 [("clear_all", .bool true)]).msg).sent = [] := by
    decide
  rw [hnone] at hm
  cases hm

end Sample

end NixSrv.JobQueue
