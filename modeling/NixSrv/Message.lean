import NixSrv.Json.Value
import NixSrv.Util.Split

/-!
# Messages

`nix::Message`, `nix::IncomingMessage` and the status codes.

* `Message.find` and the getters over it;
* `Members.set`, `Message.set`: assignment under a dotted key, which may throw;
* `IncomingMessage`: a request the dispatcher let through, whose document is an object because
  `check_access` found `@api_key` in it; `Sent` is what goes back to its sender;
* `find_key`: a key without dots names a member of the root.
-/

namespace NixSrv

open Json

/-- jsoncpp's writer, and its reader with `none` for a text that it does not accept. -/
class JsonText where
  write : Value → String
  read : String → Option Value

/-- Conversion to a C++ `int`. -/
def toCInt (n : ℤ) : ℤ := Int.bmod n (2 ^ 32)

/-- `nix::StatusCode_t`. -/
inductive StatusCode where
  | nullValue
  | ok
  | fail
  | notReady
  | serviceUnavailable
  | temporaryFailue
  | accessDenied
  | authUnauthorized
  | tempLimitReached
  | dataInvalidContent
  deriving DecidableEq, Repr

/-- The number of a status code. -/
def StatusCode.toInt : StatusCode → ℤ
  | nullValue => -1
  | ok => 0
  | fail => 1
  | notReady => 2
  | serviceUnavailable => 3
  | temporaryFailue => 4
  | accessDenied => 51
  | authUnauthorized => 101
  | tempLimitReached => 201
  | dataInvalidContent => 501

theorem StatusCode.toInt_injective : Function.Injective StatusCode.toInt := by
  intro a b h
  cases a <;> cases b <;> first | rfl | cases h

structure Message where
  root : Value

namespace Message

/-- The document of a message whose root is an object. -/
abbrev ofMembers (ms : Members) : Message := ⟨.object ms⟩

/-- The value under a list of keys. -/
def findFrom : List String → Value → Option Value
  | [], v => some v
  | k :: ks, v => (v.member? k).bind (findFrom ks)

/-- `Message::find`: `none` when it returns `false`. -/
def find (m : Message) (k : String) : Option Value :=
  if m.root.isArray then none else findFrom (Util.split k [] ".") m.root

def getRawValue (m : Message) (k : String) : Value := (m.find k).getD .null

/-- `get(k, const std::string&)` and `get(k, const char*)`. -/
def getString [Jsoncpp] (m : Message) (k default : String) : String :=
  ((m.find k).bind Value.asString?).getD default

def getInt (m : Message) (k : String) (default : ℤ) : ℤ :=
  ((m.find k).bind Value.asInt?).getD default

def getDouble (m : Message) (k : String) (default : ℚ) : ℚ :=
  ((m.find k).bind Value.asDouble?).getD default

def getBool (m : Message) (k : String) (default : Bool) : Bool :=
  ((m.find k).bind Value.asBool?).getD default

/-- `get(k, const Array_t&)`. -/
def getArray (m : Message) (k : String) (default : List Value) : List Value :=
  match m.find k with
  | some (.array xs) => xs
  | _ => default

/-- `get_meta(k, std::string)`. -/
def getMeta [Jsoncpp] (m : Message) (k default : String) : String :=
  m.getString ("@" ++ k) default

/-- `Message::exists`. -/
def hasKey (m : Message) (k : String) : Bool := (m.find k).isSome

def isNull (m : Message) (k : String) : Bool :=
  match m.find k with
  | none | some .null => true
  | some _ => false

/-- A key without dots names a member of the root. -/
theorem find_key {k : String} (hk : Util.split k [] "." = [k]) (ms : Members) :
    (ofMembers ms).find k = ms.lookup k := by
  simp only [find, Value.isArray, hk, findFrom, Value.member?]
  cases ms.lookup k <;> rfl

/-- A text under a key with an `@` is read by `get_meta`. -/
theorem getMeta_of_lookup [Jsoncpp] {ms : Members} {k s : String}
    (hk : Util.split ("@" ++ k) [] "." = ["@" ++ k])
    (h : ms.lookup ("@" ++ k) = some (.string s)) (default : String) :
    (ofMembers ms).getMeta k default = s := by
  rw [getMeta, getString, find_key hk, h]
  rfl

end Message

/-! ## Assignment under a dotted key -/

/-- What a write into a document can run into. -/
inductive WriteError where
  /-- Member access to an array or a scalar, where jsoncpp throws. -/
  | notObject
  /-- A key without a segment, for which the code steps before the start of its vector. -/
  | noSegment
  deriving DecidableEq, Repr

/-- The loop of `Message::set` over the segments of a key, on an object. -/
def setPath : List String → Value → Members → Except WriteError Members
  | [], _, _ => .error .noSegment
  | [last], v, ms => .ok (ms.put last v)
  | k :: ks, v, ms =>
    match ms.lookup k with
    | none | some .null => do return ms.put k (.object (← setPath ks v []))
    | some (.object child) => do return ms.put k (.object (← setPath ks v child))
    | some _ => .error .notObject

/-- `set(k, v)` on a message whose root is an object. -/
def Json.Members.set (ms : Members) (k : String) (v : Value) : Except WriteError Members :=
  setPath (Util.split k [] ".") v ms

/-- `Message::set`. A null root becomes an object. -/
def Message.set (m : Message) (k : String) (v : Value) : Except WriteError Message :=
  match m.root with
  | .object ms => do return .ofMembers (← Members.set ms k v)
  | .null => do return .ofMembers (← Members.set [] k v)
  | _ => .error .notObject

/-- For a key without dots, `set` assigns a member of the root. -/
theorem set_key {k : String} (hk : Util.split k [] "." = [k]) (ms : Members) (v : Value) :
    ms.set k v = .ok (ms.put k v) := by
  simp [Members.set, hk, setPath]

/-- `set_meta(k, v)` on a message whose root is an object. -/
def Json.Members.setMeta (ms : Members) (k : String) (v : Value) : Members := ms.put ("@" ++ k) v

def Json.Members.setStatusCode (ms : Members) (status : StatusCode) : Members :=
  ms.put "@status_code" (.int status.toInt)

def Json.Members.setStatusMsg (ms : Members) (msg : String) : Members :=
  ms.put "@status" (.string msg)

def Json.Members.setStatus (ms : Members) (status : StatusCode) (msg : String := "") : Members :=
  (ms.setStatusCode status).setStatusMsg msg

/-! ## Requests and what is sent back -/

/-- What the sender of a request gets. -/
inductive Answer where
  | reply (message : Members)
  | reject (reason : String)

/-- An answer to the request with the given handle. -/
structure Sent where
  handle : ℕ
  answer : Answer

/-- A request with its transport handle, which is what an answer goes to. -/
structure IncomingMessage extends Message where
  handle : ℕ
  isObject : root.isObject = true

namespace IncomingMessage

variable (msg : IncomingMessage)

/-- `reply(m, status)`. -/
def reply (m : Members) (status : StatusCode := .ok) : Sent :=
  ⟨msg.handle, .reply (m.setStatusCode status)⟩

/-- `reply()`: the message is cleared, given the status `ok` and sent back. -/
def replyEmpty : Sent := msg.reply (Members.setStatus [] .ok)

/-- `fail(status, reason)`. -/
def fail (status : StatusCode) (reason : String := "") : Sent :=
  ⟨msg.handle, .reply (Members.setStatus [] status reason)⟩

/-- `reject(status, reason)`. -/
def reject (status : StatusCode) (reason : String := "") : Sent :=
  ⟨msg.handle, .reject (toString status.toInt ++ ": " ++ reason)⟩

end IncomingMessage

/-- The status code an answer carries, if it is a reply. -/
def Sent.status (s : Sent) : Option Value :=
  match s.answer with
  | .reply m => m.lookup "@status_code"
  | .reject _ => none

/-- The sender is told `ok`. -/
def Sent.isOk (s : Sent) : Bool :=
  match s.status with
  | some (.int n) => n = StatusCode.ok.toInt
  | _ => false

/-! ## The status of an answer -/

@[simp] theorem lookup_setStatusCode (ms : Members) (status : StatusCode) :
    (ms.setStatusCode status).lookup "@status_code" = some (.int status.toInt) :=
  Members.lookup_put_self _ _ _

@[simp] theorem lookup_setStatus (ms : Members) (status : StatusCode) (msg : String) :
    (ms.setStatus status msg).lookup "@status_code" = some (.int status.toInt) := by
  rw [Members.setStatus, Members.setStatusMsg, Members.lookup_put_ne (by decide),
    lookup_setStatusCode]

variable (msg : IncomingMessage)

@[simp] theorem handle_reply (m : Members) (status : StatusCode) :
    (msg.reply m status).handle = msg.handle := rfl

@[simp] theorem handle_replyEmpty : msg.replyEmpty.handle = msg.handle := rfl

@[simp] theorem handle_fail (status : StatusCode) (reason : String) :
    (msg.fail status reason).handle = msg.handle := rfl

@[simp] theorem isOk_reply (m : Members) (status : StatusCode) :
    (msg.reply m status).isOk = decide (status = .ok) := by
  simp only [Sent.isOk, Sent.status, IncomingMessage.reply, lookup_setStatusCode]
  exact decide_eq_decide.mpr StatusCode.toInt_injective.eq_iff

@[simp] theorem isOk_replyEmpty : msg.replyEmpty.isOk = true := isOk_reply msg _ _

@[simp] theorem isOk_fail (status : StatusCode) (reason : String) :
    (msg.fail status reason).isOk = decide (status = .ok) := by
  simp only [Sent.isOk, Sent.status, IncomingMessage.fail, lookup_setStatus]
  exact decide_eq_decide.mpr StatusCode.toInt_injective.eq_iff

end NixSrv
