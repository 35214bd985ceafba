import NixSrv.Message

/-!
# Answers under a key of the client

The services answer a look-up with a document in which the value stands under the key the client
asked for. The status code is written into the same document.

* `Handled`: what running a handler of a service comes to;
* `replyUnder`, `replyWritten`: the end of a handler that found a value, or has a report;
* `Obtains`, `readUnder`, **`obtains_replyUnder`**: what the client finds under its key.
-/

namespace NixSrv

open Json

/-- How a handler ends. -/
inductive Ending where
  | returned
  /-- An exception leaves the handler. -/
  | thrown
  /-- An iterator leaves its vector, or a null pointer is dereferenced. -/
  | undefined
  deriving DecidableEq, Repr

/-- What running a handler comes to, on a module with states `σ`. -/
structure Handled (σ : Type*) where
  state : σ
  sent : List Sent := []
  ending : Ending := .returned

/-- What a failed write into a document does to the handler. -/
def WriteError.ending : WriteError → Ending
  | .notObject => .thrown
  | .noSegment => .undefined

/-- `clear()`, `set(k, v)` and `reply(*msg)`. -/
def replyUnder {σ : Type*} (state : σ) (msg : IncomingMessage) (k : String) (v : Value) :
    Handled σ :=
  match Members.set [] k v with
  | .ok ms => { state, sent := [msg.reply ms] }
  | .error e => { state, ending := e.ending }

/-- `clear()`, the calls of `set` that come to a document or fail, and `reply(*msg)`. -/
def replyWritten {σ : Type*} (state : σ) (msg : IncomingMessage) :
    Except WriteError Members → Handled σ
  | .ok ms => { state, sent := [msg.reply ms] }
  | .error e => { state, ending := e.ending }

theorem exists_of_sent_replyWritten {σ : Type*} {state : σ} {msg : IncomingMessage}
    {doc : Except WriteError Members} {m : Members}
    (h : (replyWritten state msg doc).sent = [⟨msg.handle, .reply m⟩]) :
    ∃ ms, doc = .ok ms ∧ m = ms.setStatusCode .ok := by
  cases doc with
  | error e => cases h
  | ok ms =>
    cases h
    exact ⟨ms, rfl, rfl⟩

/-- The value an answer `ok` holds under a key. -/
def Sent.valueUnder (s : Sent) (k : String) : Option Value :=
  match s.answer with
  | .reply m => if s.isOk then (Message.ofMembers m).find k else none
  | .reject _ => none

/-- The sender of `msg` gets one answer, which is `ok` and holds `v` under `k`. -/
def Obtains {σ : Type*} (o : Handled σ) (msg : IncomingMessage) (k : String) (v : Value) : Prop :=
  ∃ s, o.sent = [s] ∧ s.handle = msg.handle ∧ s.valueUnder k = some v

/-- The sender of `msg` gets one answer, which has the given status, and the handler returns. -/
def Refused {σ : Type*} (o : Handled σ) (msg : IncomingMessage) (status : StatusCode) : Prop :=
  ∃ s, o.sent = [s] ∧ s.handle = msg.handle ∧ s.status = some (.int status.toInt) ∧
    o.ending = .returned

/-- What a client that looks under `k` finds when `v` was written there before the status. -/
def readUnder (k : String) (v : Value) : Option Value :=
  match Util.split k [] "." with
  | [] => none
  | [s] => some (if s = "@status_code" then .int StatusCode.ok.toInt else v)
  | s :: _ => if s = "@status_code" then none else some v

/-! ## Reading a document after a write -/

/-- A write into an object without conflicting members can be read back. -/
theorem setPath_nil {ks : List String} (hk : ks ≠ []) (v : Value) :
    ∃ ms, setPath ks v [] = .ok ms ∧ Message.findFrom ks (.object ms) = some v := by
  induction ks with
  | nil => exact absurd rfl hk
  | cons k ks ih =>
    cases ks with
    | nil => exact ⟨_, rfl, by simp [Message.findFrom, Value.member?]⟩
    | cons k' ks =>
      obtain ⟨ms, hs, hf⟩ := ih (by simp)
      refine ⟨Members.put k (.object ms) [], ?_, ?_⟩
      · simp only [setPath, List.lookup_nil, hs]
        rfl
      · rw [Message.findFrom, Value.member?, Members.lookup_put_self]
        exact hf

/-- The status code hides what was written under it. -/
theorem findFrom_setStatusCode (k : String) (ks : List String) (ms : Members)
    (status : StatusCode) : Message.findFrom (k :: ks) (.object (ms.setStatusCode status)) =
      if k = "@status_code" then Message.findFrom ks (.int status.toInt)
      else Message.findFrom (k :: ks) (.object ms) := by
  simp only [Message.findFrom, Value.member?, Members.setStatusCode, Members.lookup_put]
  split_ifs <;> rfl

theorem findFrom_int (ks : List String) (n : ℤ) :
    Message.findFrom ks (.int n) = if ks = [] then some (.int n) else none := by
  cases ks <;> rfl

theorem find_ofMembers (ms : Members) (k : String) :
    (Message.ofMembers ms).find k = Message.findFrom (Util.split k [] ".") (.object ms) := rfl

theorem valueUnder_reply (msg : IncomingMessage) (ms : Members) (k : String) :
    (msg.reply ms).valueUnder k = (Message.ofMembers (ms.setStatusCode .ok)).find k := by
  change (if (msg.reply ms).isOk = true then _ else none) = _
  rw [if_pos (by simp)]

/-- A value written under a key with a segment, as the client reads it. -/
theorem exists_set_valueUnder {k : String} (hk : Util.split k [] "." ≠ []) (msg : IncomingMessage)
    (v : Value) :
    ∃ ms, Members.set [] k v = .ok ms ∧ (msg.reply ms).valueUnder k = readUnder k v := by
  unfold Members.set
  obtain ⟨ms, hs, hf⟩ := setPath_nil hk v
  refine ⟨ms, hs, ?_⟩
  rw [valueUnder_reply, find_ofMembers, readUnder]
  cases hk' : Util.split k [] "." with
  | nil => exact absurd hk' hk
  | cons s ks =>
    rw [hk'] at hf
    rw [findFrom_setStatusCode, findFrom_int, hf]
    cases ks with
    | nil => simp only [if_true]; split_ifs <;> rfl
    | cons s' ks => simp

/-- **What the client finds in the answer.** -/
theorem obtains_replyUnder {σ : Type*} (state : σ) (msg : IncomingMessage) (k : String)
    (v w : Value) : Obtains (replyUnder state msg k v) msg k w ↔ readUnder k v = some w := by
  by_cases hk : Util.split k [] "." = []
  · simp [replyUnder, readUnder, Members.set, hk, setPath, Obtains]
  · obtain ⟨ms, hs, hv⟩ := exists_set_valueUnder hk msg v
    simp only [replyUnder, hs, Obtains, ← hv]
    constructor
    · rintro ⟨s, hsent, -, hs⟩
      cases hsent
      exact hs
    · exact fun h => ⟨_, rfl, rfl, h⟩

/-- A handler that answers under a key with a segment returns. -/
theorem ending_replyUnder {σ : Type*} (state : σ) (msg : IncomingMessage) {k : String}
    (hk : Util.split k [] "." ≠ []) (v : Value) :
    (replyUnder state msg k v).ending = .returned := by
  obtain ⟨ms, hs, -⟩ := exists_set_valueUnder hk msg v
  simp only [replyUnder, hs]

@[simp] theorem state_replyUnder {σ : Type*} (state : σ) (msg : IncomingMessage) (k : String)
    (v : Value) : (replyUnder state msg k v).state = state := by
  unfold replyUnder
  split <;> rfl

/-- An answer with another status holds no value for its client. -/
theorem Refused.not_obtains {σ : Type*} {o : Handled σ} {msg : IncomingMessage}
    {status : StatusCode} (h : Refused o msg status) (hs : status ≠ .ok) (k : String) (v : Value) :
    ¬ Obtains o msg k v := by
  obtain ⟨s, hsent, -, hstatus, -⟩ := h
  rintro ⟨s', hsent', -, hv⟩
  obtain rfl : s = s' := by simpa using hsent.symm.trans hsent'
  have hok : s.isOk = false := by
    rw [Sent.isOk, hstatus]
    exact decide_eq_false fun h => hs (StatusCode.toInt_injective h)
  unfold Sent.valueUnder at hv
  split at hv
  · rw [hok] at hv
    cases hv
  · cases hv

/-- The state has no part in the answer. -/
theorem sent_replyUnder {σ : Type*} (state state' : σ) (msg : IncomingMessage) (k : String)
    (v : Value) : (replyUnder state msg k v).sent = (replyUnder state' msg k v).sent ∧
      (replyUnder state msg k v).ending = (replyUnder state' msg k v).ending := by
  unfold replyUnder
  split <;> exact ⟨rfl, rfl⟩

theorem not_refused_replyUnder {σ : Type*} (state : σ) (msg : IncomingMessage) (k : String)
    (v : Value) {status : StatusCode} (hs : status ≠ .ok) :
    ¬ Refused (replyUnder state msg k v) msg status := by
  rintro ⟨s, hsent, -, hstatus, -⟩
  unfold replyUnder at hsent
  split at hsent
  · cases hsent
    have hok := (lookup_setStatusCode _ _).symm.trans hstatus
    have hcode : StatusCode.ok.toInt = status.toInt := by simpa using hok
    exact hs (StatusCode.toInt_injective hcode).symm
  · cases hsent

theorem refused_fail {σ : Type*} (state : σ) (msg : IncomingMessage) (status : StatusCode)
    (reason : String := "") : Refused { state, sent := [msg.fail status reason] } msg status :=
  ⟨_, rfl, rfl, lookup_setStatus [] status reason, rfl⟩

end NixSrv
