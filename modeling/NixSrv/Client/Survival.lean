import NixSrv.Client.Model

/-!
# Operations and the outcomes of their messages

`Client::call` returns a null pointer when the agent does not take the message, and most operations
follow the pointer without a look at it.

* `Operation.Survives`, `Operation.Covers`: the operation returns when its messages come to the
  given outcomes, and those for which it is written;
* `returns_request`, `returns_toAddress`: the operations that need a response, of any kind;
* **`survives_iff`**: an operation returns for the outcomes for which it is written, and no others.
-/

namespace NixSrv.Client

open Json

section Definitions

variable [Jsoncpp] [JsonText]

/-- A text that `Message::parse` does not throw for. -/
def Parses (text : String) : Prop := text = "" ∨ (JsonText.read text).isSome = true

/-- The operation returns when its `i`-th message comes to the outcome `o i`. -/
def Operation.Survives (config : ClientConfig) (env : Env) (op : Operation)
    (o : ℕ → Outcome) : Prop :=
  Dialogue.Returns (fun i _ => o i) 0 (op.procedure config env)

/-- The outcomes for which the operation is written. -/
def Operation.Covers (o : ℕ → Outcome) : Operation → Prop
  | remove _ | submit _ => True
  | jobQueueStatus queueNode => queueNode ≠ "" → (o 0).isSent = true
  | retrieve key _ => ∃ d, o 0 = .sent d ∧
      ((Response.new d).isStatusOk = true → Parses ((Response.new d).getString key ""))
  | getResult job => ∃ d, o 0 = .sent d ∧
      ((Response.new d).getString job.originNode "" ≠ "" → (o 1).isSent = true)
  | _ => (o 0).isSent = true

end Definitions

/-! ## What each part of an operation needs -/

section Parts

variable {α β : Type} {net : ℕ → Call → Outcome} {n : ℕ}

theorem isSent_iff {o : Outcome} : o.isSent = true ↔ ∃ d, o = .sent d := by
  cases o <;> simp [Outcome.isSent]

theorem object_eq_ok {o : Outcome} {r : Response} :
    o.object = .ok r ↔ ∃ d, o = .sent d ∧ r = .new d := by
  cases o <;> simp [Outcome.object, eq_comm]

/-- An operation that goes on with the response needs it. -/
theorem returns_bind_of_object {d : Procedure Response} {n' : ℕ} {o : Outcome}
    {f : Response → Procedure β} (h : Dialogue.run net n d = (n', o.object)) :
    Dialogue.Returns net n (d >>= f) ↔
      ∃ d, o = .sent d ∧ Dialogue.Returns net n' (f (.new d)) := by
  rw [Dialogue.returns_bind_of_run h]
  constructor
  · rintro ⟨r, hr, hf⟩
    obtain ⟨d, rfl, rfl⟩ := object_eq_ok.mp hr
    exact ⟨d, rfl, hf⟩
  · rintro ⟨d, rfl, hf⟩
    exact ⟨.new d, rfl, hf⟩

theorem returns_request_bind (client : ServiceClient) (route : String)
    {fields : List (String × String)} (h : fields.map Prod.fst ⊆ messageKeys)
    (f : Response → Procedure β) :
    Dialogue.Returns net n (client.request route fields >>= f) ↔
      ∃ d, net n ⟨false, client.serverAddress, client.service, route, client.members fields⟩ =
        .sent d ∧ Dialogue.Returns net (n + 1) (f (.new d)) :=
  returns_bind_of_object (run_request client route h)

theorem returns_deref_bind (o : Outcome) (f : Response → Procedure β) :
    Dialogue.Returns net n (deref o.response >>= f) ↔
      ∃ d, o = .sent d ∧ Dialogue.Returns net n (f (.new d)) :=
  returns_bind_of_object (run_deref_response o)

theorem returns_call_bind (serverAddress service route : String) (msg : Option Members)
    (f : Option Response → Procedure β) :
    Dialogue.Returns net n (call serverAddress service route msg >>= f) ↔
      Dialogue.Returns net (n + 1)
        (f (net n ⟨false, serverAddress, service, route, msg⟩).response) := by
  rw [Dialogue.returns_bind_of_run (run_call _ _ _ _)]
  simp

theorem returns_orThrow_bind_pure (p : Option α) (g : α → β) :
    Dialogue.Returns net n (orThrow p >>= fun a => pure (g a)) ↔ p.isSome = true := by
  cases p with
  | none => exact iff_of_false (Dialogue.not_returns_error n _) Bool.false_ne_true
  | some a => exact iff_of_true (Dialogue.returns_pure n (g a)) rfl

theorem isSome_parse [JsonText] (m : Message) (text : String) :
    (m.parse text).isSome = true ↔ Parses text := by
  unfold Message.parse Parses
  by_cases ht : text = "" <;> simp [ht]

/-! ## Families of operations -/

/-- The pings follow the pointer once. -/
theorem returns_test (serverAddress service route : String) (msg : Option Members)
    (g : Response → β) :
    Dialogue.Returns net n (call serverAddress service route msg >>= fun response =>
        deref response >>= fun r => pure (g r)) ↔
      (net n ⟨false, serverAddress, service, route, msg⟩).isSent = true := by
  rw [returns_call_bind, returns_deref_bind, isSent_iff]
  exact exists_congr fun d => and_iff_left (Dialogue.returns_pure _ _)

/-- An operation that makes one request and comes to a result from any response. -/
theorem returns_request (client : ServiceClient) (route : String)
    {fields : List (String × String)} (h : fields.map Prod.fst ⊆ messageKeys)
    {f : Response → Procedure β} (hf : ∀ r n, Dialogue.Returns net n (f r)) :
    Dialogue.Returns net n (client.request route fields >>= f) ↔
      (net n ⟨false, client.serverAddress, client.service, route,
        client.members fields⟩).isSent = true := by
  rw [returns_request_bind client route h, isSent_iff]
  exact exists_congr fun d => and_iff_left (hf _ _)

end Parts

section Survival

variable {β : Type} {net : ℕ → Call → Outcome} {n : ℕ} [Jsoncpp] (config : ClientConfig)
  (env : Env)

theorem returns_resolveNode_bind (nodename : String) (f : String → Procedure β) :
    Dialogue.Returns net n (resolveNode config nodename >>= f) ↔
      ∃ d, net n ⟨false, config.srvResolverAddress, "Resolver", "node/resolve",
          (resolverClient config).members [("nodename", nodename)]⟩ = .sent d ∧
        Dialogue.Returns net (n + 1) (f ((Response.new d).getString nodename "")) := by
  rw [Dialogue.returns_bind_of_run (run_resolveNode config nodename)]
  cases net n _ with
  | sendThrows => simp [Outcome.object, Except.map]
  | sent d => simp [Outcome.object, Except.map]

/-- An operation that asks for an address and comes to a result from any. -/
theorem returns_toAddress (nodename : String) {f : String → Procedure β}
    (hf : ∀ address n, Dialogue.Returns net n (f address)) :
    Dialogue.Returns net n (resolveNode config nodename >>= f) ↔
      (net n ⟨false, config.srvResolverAddress, "Resolver", "node/resolve",
        (resolverClient config).members [("nodename", nodename)]⟩).isSent = true := by
  rw [returns_resolveNode_bind, isSent_iff]
  exact exists_congr fun d => and_iff_left (hf _ _)

/-! ## The operations with two messages, and those that look at a text -/

theorem returns_getResult (job : Job) :
    Dialogue.Returns net n (getResult config env job) ↔
      ∃ d, net n ⟨false, config.srvResolverAddress, "Resolver", "node/resolve",
          (resolverClient config).members [("nodename", job.originNode)]⟩ = .sent d ∧
        ((Response.new d).getString job.originNode "" ≠ "" →
          (net (n + 1) ⟨false, (Response.new d).getString job.originNode "", "JobQueue",
            "job/result/get", job.toDocument⟩).isSent = true) := by
  rw [getResult, returns_resolveNode_bind]
  refine exists_congr fun d => and_congr_right fun _ => ?_
  by_cases ha : (Response.new d).getString job.originNode "" = ""
  · simp [ha]
  · -- the pointer is followed for the test and again for the job
    rw [if_pos ha, returns_call_bind, imp_iff_right ha, returns_deref_bind, isSent_iff]
    refine exists_congr fun d' => and_iff_left_of_imp fun hd' => ?_
    split_ifs
    · exact (returns_deref_bind _ _).mpr ⟨d', hd', Dialogue.returns_pure _ _⟩
    · exact Dialogue.returns_pure _ _

theorem returns_jobQueueStatus (queueNode : String) :
    Dialogue.Returns net n (jobQueueStatus config queueNode) ↔
      (queueNode ≠ "" → (net n ⟨false, config.srvResolverAddress, "Resolver", "node/resolve",
        (resolverClient config).members [("nodename", queueNode)]⟩).isSent = true) := by
  have hcall : ∀ address n, Dialogue.Returns net n
      (if address ≠ "" then call address "JobQueue" "status" (some []) else pure none) := by
    intro address n
    split_ifs
    · exact ⟨_, rfl⟩
    · exact ⟨none, rfl⟩
  unfold jobQueueStatus
  by_cases hq : queueNode = ""
  · rw [if_neg (not_not.mpr hq)]
    exact iff_of_true (hcall _ n) fun h => absurd hq h
  · rw [if_pos hq, imp_iff_right hq]
    exact returns_toAddress config queueNode hcall

variable [JsonText]

theorem returns_retrieve (key : String) (result : Message) :
    Dialogue.Returns net n (retrieve config key result) ↔
      ∃ d, net n ⟨false, config.srvCacheAddress, "Cache", "retrieve",
          (cacheClient config).members [("key", key)]⟩ = .sent d ∧
        ((Response.new d).isStatusOk = true → Parses ((Response.new d).getString key "")) := by
  rw [retrieve, returns_request_bind _ _ (by simp [messageKeys])]
  refine exists_congr fun d => and_congr_right fun _ => ?_
  by_cases hok : (Response.new d).isStatusOk = true
  · rw [if_pos hok, returns_orThrow_bind_pure, isSome_parse]
    exact (imp_iff_right hok).symm
  · simp [hok]

/-! ## All operations -/

/-- **The outcomes for which an operation returns.** -/
theorem survives_iff (op : Operation) (o : ℕ → Outcome) :
    op.Survives config env o ↔ op.Covers o := by
  unfold Operation.Survives
  cases op with
  | ping _ | pingService _ => exact returns_test _ _ _ _ _
  | bindNode | bindService _ | unbindNode | unbindService _ | store _ _ | storeMessage _ _
  | resolveNode _ | resolveService _ =>
    exact returns_request _ _ (by simp [messageKeys]) fun _ _ => Dialogue.returns_pure _ _
  | cacheStatus _ | getWork _ =>
    refine returns_request _ _ (by simp [messageKeys]) fun r n => ?_
    split_ifs <;> exact Dialogue.returns_pure _ _
  | setProgress job | setResult job =>
    refine returns_toAddress config job.originNode fun address n => ?_
    split_ifs
    · exact ⟨true, rfl⟩
    · exact ⟨false, rfl⟩
  | retrieve key result => exact returns_retrieve config key result
  | getResult job => exact returns_getResult config env job
  | jobQueueStatus queueNode => exact returns_jobQueueStatus config queueNode
  | submit job => exact iff_true_intro ⟨_, rfl⟩
  | remove key =>
    change Dialogue.Returns _ 0 (Client.remove config key) ↔ True
    rw [Client.remove, message_eq _ (by simp [messageKeys])]
    exact iff_true_intro ⟨_, rfl⟩

end Survival

section Sample

attribute [local instance] Jsoncpp.integral

/-- A writer and a reader that know `null` only. -/
@[reducible] def nullText : JsonText where
  write _ := "null"
  read s := if s = "null" then some .null else none

attribute [local instance] nullText

/-- A ping follows a null pointer when the agent does not take its message. -/
theorem not_survives_ping :
    Dialogue.run (fun _ _ => .sendThrows) 0 (ping "tcp://127.0.0.1:1") = (1, .error .nullDeref) ∧
      ∀ env, ¬ (Operation.ping "tcp://127.0.0.1:1").Survives {} env fun _ => .sendThrows := by
  refine ⟨rfl, ?_⟩
  rintro env ⟨a, h⟩
  cases h

end Sample

end NixSrv.Client
