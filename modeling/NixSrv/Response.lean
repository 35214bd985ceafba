import NixSrv.Message

/-!
# Responses

`nix::Response`, and the answers of `nix::IncomingMessage` for a document of any kind, which is what
the sender of a request may have put there. The text of an answer is kept as the document it
denotes.

* `Message.clear`, `Message.setStatus`: writes that throw where jsoncpp does;
* `Message.fail`, `Message.replyWithError`, `Message.reply`: the documents sent;
* `Delivery`, `Response.new`, the getters: what becomes of a message, as its sender sees it;
* `Decodes`, `Agrees`, **`status_agrees_iff`**: when the sender reads the status that was sent.
-/

namespace NixSrv

open Json

namespace Message

/-- `Json::Value::clear`, which asserts that the root is null, an array or an object. -/
def clear (m : Message) : Except WriteError Message :=
  match m.root with
  | .null => .ok m
  | .array _ => .ok ⟨.array []⟩
  | .object _ => .ok ⟨.object []⟩
  | _ => .error .notObject

/-- `root_[k] = v`. -/
def put (m : Message) (k : String) (v : Value) : Except WriteError Message :=
  match m.root with
  | .object ms => .ok (ofMembers (Members.put k v ms))
  | .null => .ok (ofMembers (Members.put k v []))
  | _ => .error .notObject

def setStatusCode (m : Message) (status : StatusCode) : Except WriteError Message :=
  m.put "@status_code" (.int status.toInt)

def setStatusMsg (m : Message) (msg : String) : Except WriteError Message :=
  m.put "@status" (.string msg)

def setStatus (m : Message) (status : StatusCode) (msg : String := "") :
    Except WriteError Message := do
  (← m.setStatusCode status).setStatusMsg msg

/-- What `reply(m, status)` sends. -/
def reply (m : Message) (status : StatusCode := .ok) : Except WriteError Message :=
  m.setStatusCode status

/-- What `fail(error_code, reason)` sends. -/
def fail (m : Message) (errorCode : StatusCode) (reason : String) : Except WriteError Message := do
  (← m.clear).setStatus errorCode reason

/-- What `reply_with_error(error_code, msg)` sends. -/
def replyWithError (m : Message) (errorCode : StatusCode) (msg : String) :
    Except WriteError Message := do
  (← (← m.clear).setStatus errorCode msg).reply

/-- A root that takes members. -/
def Writable (m : Message) : Prop := m.root = .null ∨ m.root.isObject = true

end Message

/-! ## What becomes of a message -/

/-- The state of an outgoing message when its sender looks at it. -/
inductive Delivery where
  /-- No answer has come in time. -/
  | transmitted
  | abandoned
  | rejected (exceptionMsg : String)
  /-- The answer has come, with the document in its field `message` if there is one. -/
  | replied (message : Option Value)

structure Response extends Message where
  delivery : Delivery

namespace Response

/-- The constructor. -/
def new (d : Delivery) : Response where
  root :=
    match d with
    | .replied (some v) => v
    | _ => .object []
  delivery := d

variable (r : Response)

def isReplied : Bool :=
  match r.delivery with
  | .replied _ => true
  | _ => false

def getStatusCode : ℤ := r.getInt "@status_code" StatusCode.nullValue.toInt

def isStatusOk : Bool := r.getInt "@status_code" StatusCode.nullValue.toInt = StatusCode.ok.toInt

def isStatusFail : Bool := r.getInt "@status_code" StatusCode.ok.toInt ≠ StatusCode.ok.toInt

def getStatusMsg [Jsoncpp] : String := r.getString "@status_msg" ""

end Response

/-- The response its sender makes of an answer. -/
abbrev Message.response (m : Message) : Response := .new (.replied (some m.root))

/-- The code of the status is read as it was sent. -/
structure Decodes (r : Response) (c : StatusCode) : Prop where
  code : r.getStatusCode = c.toInt
  ok : r.isStatusOk = true ↔ c = .ok
  fail : r.isStatusFail = true ↔ c ≠ .ok

/-- The status is read as it was sent. -/
structure Agrees [Jsoncpp] (r : Response) (c : StatusCode) (s : String) : Prop
    extends Decodes r c where
  msg : r.getStatusMsg = s

/-- The members of the root other than the status code. -/
def SameMembers (m m' : Message) : Prop :=
  ∀ k ≠ "@status_code", m'.root.member? k = m.root.member? k

/-! ## What is sent -/

namespace Message

/-- A failure is sent for a root that takes members, as the same document for all of them. -/
theorem fail_of_writable {m : Message} (h : m.Writable) (c : StatusCode) (s : String) :
    m.fail c s = .ok (ofMembers (Members.setStatus [] c s)) := by
  obtain ⟨root⟩ := m
  cases root with
  | null | object ms => rfl
  | int | real | string | bool | array => rcases h with h | h <;> cases h

/-- For other roots an exception leaves `fail`. -/
theorem fail_of_not_writable {m : Message} (h : ¬ m.Writable) (c : StatusCode) (s : String) :
    m.fail c s = .error .notObject := by
  obtain ⟨root⟩ := m
  cases root with
  | null => exact absurd (Or.inl rfl) h
  | object ms => exact absurd (Or.inr rfl) h
  | int | real | string | bool | array => rfl

theorem replyWithError_eq (m : Message) (c : StatusCode) (s : String) :
    m.replyWithError c s = (m.fail c s).bind (·.reply) := by
  unfold replyWithError fail
  cases m.clear <;> rfl

/-- A reply adds the status code to a root that takes members. -/
theorem reply_of_writable {m : Message} (h : m.Writable) (c : StatusCode) :
    ∃ ms : Members, m.reply c = .ok (ofMembers (ms.setStatusCode c)) ∧
      ∀ k, ms.lookup k = m.root.member? k := by
  obtain ⟨root⟩ := m
  cases root with
  | null => exact ⟨[], rfl, fun _ => rfl⟩
  | object ms => exact ⟨ms, rfl, fun _ => rfl⟩
  | int | real | string | bool | array => rcases h with h | h <;> cases h

theorem reply_of_not_writable {m : Message} (h : ¬ m.Writable) (c : StatusCode) :
    m.reply c = .error .notObject := by
  obtain ⟨root⟩ := m
  cases root with
  | null => exact absurd (Or.inl rfl) h
  | object ms => exact absurd (Or.inr rfl) h
  | int | real | string | bool | array => rfl

end Message

/-! ## What is read -/

theorem StatusCode.asInt?_toInt (c : StatusCode) : (Value.int c.toInt).asInt? = some c.toInt := by
  cases c <;> rfl

theorem getInt_statusCode {ms : Members} {c : StatusCode}
    (h : ms.lookup "@status_code" = some (.int c.toInt)) (default : ℤ) :
    (Message.ofMembers ms).getInt "@status_code" default = c.toInt := by
  rw [Message.getInt, Message.find_key (by decide), h, Option.bind_some, c.asInt?_toInt,
    Option.getD_some]

theorem decodes_of_lookup {ms : Members} {c : StatusCode}
    (h : ms.lookup "@status_code" = some (.int c.toInt)) :
    Decodes (Message.ofMembers ms).response c := by
  have hcode : ∀ d, (Message.ofMembers ms).response.getInt "@status_code" d = c.toInt :=
    getInt_statusCode h
  refine ⟨hcode _, ?_, ?_⟩
  · rw [Response.isStatusOk, hcode, decide_eq_true_iff, StatusCode.toInt_injective.eq_iff]
  · rw [Response.isStatusFail, hcode, decide_eq_true_iff, ne_eq, StatusCode.toInt_injective.eq_iff]

/-- The text of the status is looked for under a name that a failure does not write. -/
theorem lookup_statusMsg (c : StatusCode) (s : String) :
    (Members.setStatus [] c s).lookup "@status_msg" = none := by
  rw [Members.setStatus, Members.setStatusMsg, Members.lookup_put_ne (by decide),
    Members.setStatusCode, Members.lookup_put_ne (by decide), List.lookup_nil]

section Text

variable [Jsoncpp]

theorem getStatusMsg_of_lookup {ms : Members} (h : ms.lookup "@status_msg" = none) :
    (Message.ofMembers ms).response.getStatusMsg = "" := by
  change (Message.ofMembers ms).getString "@status_msg" "" = ""
  rw [Message.getString, Message.find_key (by decide), h]
  rfl

/-- **When the sender reads the status that was sent.** The text of a failure is never read, and
`reply_with_error` sends the code `ok` whatever code it is given. -/
theorem status_agrees_iff (m : Message) (c : StatusCode) (s : String) :
    ((∃ r, m.fail c s = .ok r ∧ Agrees r.response c s) ↔ m.Writable ∧ s = "") ∧
    ((∃ r, m.replyWithError c s = .ok r ∧ Agrees r.response c s) ↔
      m.Writable ∧ c = .ok ∧ s = "") ∧
    ((∃ r, m.reply c = .ok r ∧ Decodes r.response c ∧ SameMembers m r) ↔ m.Writable) := by
  by_cases hm : m.Writable
  · refine ⟨?_, ?_, ?_⟩
    · rw [Message.fail_of_writable hm, and_iff_right hm]
      constructor
      · rintro ⟨_, ⟨⟩, h⟩
        exact h.msg.symm.trans (getStatusMsg_of_lookup (lookup_statusMsg c s))
      · rintro rfl
        exact ⟨_, rfl, decodes_of_lookup (lookup_setStatus [] c ""),
          getStatusMsg_of_lookup (lookup_statusMsg c "")⟩
    · rw [Message.replyWithError_eq, Message.fail_of_writable hm, and_iff_right hm]
      -- the reply writes the code `ok` over the one of the status
      have hread : Decodes (Message.ofMembers
          ((Members.setStatus [] c s).setStatusCode .ok)).response .ok :=
        decodes_of_lookup (lookup_setStatusCode _ _)
      have hmsg : (Message.ofMembers
          ((Members.setStatus [] c s).setStatusCode .ok)).response.getStatusMsg = "" := by
        refine getStatusMsg_of_lookup ?_
        rw [Members.setStatusCode, Members.lookup_put_ne (by decide), lookup_statusMsg]
      constructor
      · rintro ⟨_, ⟨⟩, h⟩
        exact ⟨StatusCode.toInt_injective (h.code.symm.trans hread.code), h.msg.symm.trans hmsg⟩
      · rintro ⟨rfl, rfl⟩
        exact ⟨_, rfl, hread, hmsg⟩
    · rw [iff_true_right hm]
      obtain ⟨ms, hr, hms⟩ := Message.reply_of_writable hm c
      refine ⟨_, hr, decodes_of_lookup (lookup_setStatusCode ms c), fun k hk => ?_⟩
      rw [← hms]
      exact Members.lookup_put_ne hk _ _
  · rw [Message.replyWithError_eq, Message.fail_of_not_writable hm,
      Message.reply_of_not_writable hm]
    simp [hm, Except.bind]

end Text

section Sample

attribute [local instance] Jsoncpp.integral

/-- The text of a failure is not read, and a failure of `reply_with_error` is read as a success. -/
theorem not_agrees_failure :
    (∃ r, (Message.ofMembers []).fail .fail "Unknown node." = .ok r ∧
      r.response.getStatusMsg = "" ∧ ¬ Agrees r.response .fail "Unknown node.") ∧
    ∃ r, (Message.ofMembers []).replyWithError .fail "" = .ok r ∧
      r.response.isStatusOk = true ∧ ¬ Agrees r.response .fail "" :=
  ⟨⟨_, rfl, by decide, fun h => absurd h.msg (by decide)⟩,
    ⟨_, rfl, by decide, fun h => absurd h.code (by decide)⟩⟩

end Sample

end NixSrv
