import NixSrv.Lib.Dialogue
import NixSrv.Job
import NixSrv.Response

/-!
# Clients

`nix::core::Client` and the clients of the resolver, the cache and the job queue. What an operation
sends depends on what it got before, so an operation is a dialogue with the transport. The text of a
message is kept as the document it denotes, except where a document carries another one as text.

* `Call`, `Outcome`: a message handed to the agent and what becomes of it;
* `call`, `sendOneWay`, `deref`: what the operations are made of;
* `bindNode` … `jobQueueStatus`: the operations, under the names of the sources;
* `Operation`, `Operation.procedure`: one type for all of them;
* **`run_request`**, `run_resolveNode`: what their common parts come to.
-/

namespace NixSrv

open Json

namespace Message

/-- `Message::parse`: `none` when it throws. -/
def parse [JsonText] (m : Message) (text : String) : Option Message :=
  if text = "" then some m else (JsonText.read text).map Message.mk

end Message

namespace Client

/-- The fields of `ClientConfig` that the operations read. -/
structure ClientConfig where
  localNodename : String := ""
  localAddress : String := ""
  apiKeyPrivate : String := ""
  srvResolverAddress : String := ""
  srvCacheAddress : String := ""
  srvJobQueueAddress : String := ""

/-- A message handed to the agent, with `none` for the empty text. -/
structure Call where
  oneWay : Bool
  serverAddress : String
  service : String
  route : String
  msg : Option Members

/-- What becomes of a message. -/
inductive Outcome where
  | sendThrows
  | sent (d : Delivery)

/-- The pointer to the response of an outcome. -/
def Outcome.response : Outcome → Option Response
  | sendThrows => none
  | sent d => some (.new d)

def Outcome.isSent : Outcome → Bool
  | sendThrows => false
  | sent _ => true

/-- How an operation can fail to return. -/
inductive Failure where
  /-- An exception leaves the operation. -/
  | thrown
  /-- A null pointer is dereferenced. -/
  | nullDeref
  deriving DecidableEq, Repr

abbrev Procedure := Dialogue Call Outcome Failure

variable {α β : Type}

/-- `Client::call`, which catches what sending throws. -/
def call (serverAddress service route : String) (msg : Option Members) :
    Procedure (Option Response) := do
  return (← Dialogue.put ⟨false, serverAddress, service, route, msg⟩).response

/-- `Client::send_one_way`, which does so too. -/
def sendOneWay (serverAddress service route : String) (msg : Option Members) : Procedure Bool := do
  return (← Dialogue.put ⟨true, serverAddress, service, route, msg⟩).isSent

/-- The value, or a failure where there is none. -/
def orFail (e : Failure) : Option α → Procedure α
  | some a => pure a
  | none => .error e

/-- The object a pointer points to. -/
def deref : Option α → Procedure α := orFail .nullDeref

/-- The value, or an exception. -/
def orThrow : Option α → Procedure α := orFail .thrown

/-- `Client::ping`. -/
def ping (serverAddress : String) : Procedure Bool := do
  let response ← call serverAddress "ping" "" none
  return (← deref response).isReplied

/-! ## `ServiceClient` -/

structure ServiceClient where
  service : String
  serverAddress : String
  clientConfig : ClientConfig

namespace ServiceClient

variable (client : ServiceClient)

def pingService : Procedure Bool := do
  let response ← call client.serverAddress client.service "ping" none
  return (← deref response).isReplied

def callService (route : String) (msg : Option Members) : Procedure (Option Response) :=
  call client.serverAddress client.service route msg

def send (route : String) (msg : Option Members) : Procedure Bool :=
  sendOneWay client.serverAddress client.service route msg

/-- The message the operations build: the private key and the given fields. -/
def message (fields : List (String × String)) : Procedure Members :=
  orThrow (fields.foldlM (fun (m : Members) field => m.set field.1 (.string field.2))
    (Members.setMeta [] "api_key" (.string client.clientConfig.apiKeyPrivate))).toOption

/-- A call with such a message, and the object the pointer to the response points to. -/
def request (route : String) (fields : List (String × String)) : Procedure Response := do
  let m ← client.message fields
  let response ← client.callService route m
  deref response

/-- The operations that tell whether such a call was answered ok. -/
def succeeds (route : String) (fields : List (String × String)) : Procedure Bool := do
  return (← client.request route fields).isStatusOk

end ServiceClient

variable (config : ClientConfig)

/-! ## `ResolverClient` -/

def resolverClient : ServiceClient := ⟨"Resolver", config.srvResolverAddress, config⟩

def bindNode : Procedure Bool :=
  (resolverClient config).succeeds "node/bind"
    [("nodename", config.localNodename), ("address", config.localAddress)]

def bindService (service : String) : Procedure Bool :=
  (resolverClient config).succeeds "service/bind"
    [("service", service), ("nodename", config.localNodename)]

def resolveNode [Jsoncpp] (nodename : String) : Procedure String := do
  let response ← (resolverClient config).request "node/resolve" [("nodename", nodename)]
  return response.getString nodename ""

def resolveService (service : String) : Procedure (List Value) := do
  let response ← (resolverClient config).request "service/resolve" [("service", service)]
  return response.getArray "addresses" []

def unbindNode : Procedure Bool :=
  (resolverClient config).succeeds "node/unbind" [("nodename", config.localNodename)]

def unbindService (service : String) : Procedure Bool :=
  (resolverClient config).succeeds "service/unbind"
    [("service", service), ("nodename", config.localNodename)]

/-! ## `CacheClient` -/

def cacheClient : ServiceClient := ⟨"Cache", config.srvCacheAddress, config⟩

def store (key value : String) : Procedure Bool :=
  (cacheClient config).succeeds "store" [("key", key), ("value", value)]

/-- `store(key, msg)`. -/
def storeMessage [JsonText] (key : String) (msg : Message) : Procedure Bool :=
  store config key (JsonText.write msg.root)

/-- `retrieve(key, result)`, with the message that is left in `result`. -/
def retrieve [Jsoncpp] [JsonText] (key : String) (result : Message) :
    Procedure (Bool × Message) := do
  let response ← (cacheClient config).request "retrieve" [("key", key)]
  if response.isStatusOk then
    return (true, ← orThrow (result.parse (response.getString key "")))
  return (false, result)

def remove (key : String) : Procedure Bool := do
  let m ← (cacheClient config).message [("key", key)]
  (cacheClient config).send "remove" m

/-- `CacheClient::status(result)`, with the message that is left in `result`. -/
def cacheStatus (result : Message) : Procedure (Bool × Message) := do
  let response ← (cacheClient config).request "status" []
  if response.isStatusOk then
    return (true, response.toMessage)
  return (false, result)

/-! ## `JobQueueClient` -/

def jobQueueClient : ServiceClient := ⟨"JobQueue", config.srvJobQueueAddress, config⟩

/-- `submit(job)`, with the job as it is left. -/
def submit (job : Job) : Procedure (Job × Option Response) := do
  let job := { job with apiKey := config.apiKeyPrivate }
  let job := { job with originNode := config.localNodename }
  return (job, ← (jobQueueClient config).callService "job/submit" job.toDocument)

section Jobs

variable [Jsoncpp]

def getWork (env : Env) (module : String) : Procedure (Option Job) := do
  let response ← (jobQueueClient config).request "job/work/get" [("module", module)]
  if response.isStatusOk then
    return some (.ofMessage env response.toMessage)
  return none

def setProgress (job : Job) : Procedure Bool := do
  let resolvedAddress ← resolveNode config job.originNode
  if resolvedAddress ≠ "" then
    let _ ← sendOneWay resolvedAddress "JobQueue" "job/progress/set" job.toDocument
    return true
  return false

def setResult (job : Job) : Procedure Bool := do
  let resolvedAddress ← resolveNode config job.originNode
  if resolvedAddress ≠ "" then
    let _ ← call resolvedAddress "JobQueue" "job/result/set" job.toDocument
    return true
  return false

def getResult (env : Env) (job : Job) : Procedure (Option Job) := do
  let resolvedAddress ← resolveNode config job.originNode
  if resolvedAddress ≠ "" then
    let response ← call resolvedAddress "JobQueue" "job/result/get" job.toDocument
    if (← deref response).isReplied then
      return some (.ofMessage env (← deref response).toMessage)
    return none
  return none

/-- `JobQueueClient::status(queue_node)`. -/
def jobQueueStatus (queueNode : String) : Procedure (Option Response) := do
  let resolvedAddress ←
    if queueNode ≠ "" then resolveNode config queueNode
    else pure (jobQueueClient config).serverAddress
  if resolvedAddress ≠ "" then
    call resolvedAddress "JobQueue" "status" (some [])
  else
    return none

end Jobs

/-! ## All operations -/

inductive Operation where
  | ping (serverAddress : String)
  | pingService (client : ServiceClient)
  | bindNode
  | bindService (service : String)
  | resolveNode (nodename : String)
  | resolveService (service : String)
  | unbindNode
  | unbindService (service : String)
  | store (key value : String)
  | storeMessage (key : String) (msg : Message)
  | retrieve (key : String) (result : Message)
  | remove (key : String)
  | cacheStatus (result : Message)
  | submit (job : Job)
  | getWork (module : String)
  | setProgress (job : Job)
  | setResult (job : Job)
  | getResult (job : Job)
  | jobQueueStatus (queueNode : String)

namespace Operation

/-- What an operation returns. -/
def Result : Operation → Type
  | resolveNode _ => String
  | resolveService _ => List Value
  | retrieve .. | cacheStatus _ => Bool × Message
  | submit _ => Job × Option Response
  | getWork _ | getResult _ => Option Job
  | jobQueueStatus _ => Option Response
  | _ => Bool

def procedure [Jsoncpp] [JsonText] (env : Env) : (op : Operation) → Procedure op.Result
  | ping serverAddress => Client.ping serverAddress
  | pingService client => client.pingService
  | bindNode => Client.bindNode config
  | bindService service => Client.bindService config service
  | resolveNode nodename => Client.resolveNode config nodename
  | resolveService service => Client.resolveService config service
  | unbindNode => Client.unbindNode config
  | unbindService service => Client.unbindService config service
  | store key value => Client.store config key value
  | storeMessage key msg => Client.storeMessage config key msg
  | retrieve key result => Client.retrieve config key result
  | remove key => Client.remove config key
  | cacheStatus result => Client.cacheStatus config result
  | submit job => Client.submit config job
  | getWork module => Client.getWork config env module
  | setProgress job => Client.setProgress config job
  | setResult job => Client.setResult config job
  | getResult job => Client.getResult config env job
  | jobQueueStatus queueNode => Client.jobQueueStatus config queueNode

end Operation

/-! ## Running the operations -/

section Runs

variable {net : ℕ → Call → Outcome} {n : ℕ} (serverAddress service route : String)
  (msg : Option Members)

@[simp] theorem run_call : Dialogue.run net n (call serverAddress service route msg) =
    (n + 1, .ok (net n ⟨false, serverAddress, service, route, msg⟩).response) := rfl

@[simp] theorem run_callService (client : ServiceClient) :
    Dialogue.run net n (client.callService route msg) =
      (n + 1, .ok (net n ⟨false, client.serverAddress, client.service, route, msg⟩).response) := rfl

/-- What the pointer to the response of an outcome points to. -/
def Outcome.object : Outcome → Except Failure Response
  | sendThrows => .error .nullDeref
  | sent d => .ok (.new d)

theorem run_deref_response (o : Outcome) :
    Dialogue.run net n (deref o.response) = (n, o.object) := by
  cases o <;> rfl

/-- The keys of the messages that the operations build. -/
def messageKeys : List String := ["nodename", "address", "service", "key", "value", "module"]

theorem split_messageKeys : ∀ k ∈ messageKeys, Util.split k [] "." = [k] := by decide

/-- What the operations put into a message. -/
def ServiceClient.members (client : ServiceClient) (fields : List (String × String)) : Members :=
  fields.foldl (fun m field => Members.put field.1 (.string field.2) m)
    (Members.setMeta [] "api_key" (.string client.clientConfig.apiKeyPrivate))

theorem message_eq (client : ServiceClient) {fields : List (String × String)}
    (h : fields.map Prod.fst ⊆ messageKeys) :
    client.message fields = pure (client.members fields) := by
  have hset : ∀ (fs : List (String × String)) (m : Members), fs.map Prod.fst ⊆ messageKeys →
      fs.foldlM (fun (m : Members) field => m.set field.1 (.string field.2)) m =
        .ok (fs.foldl (fun m field => Members.put field.1 (.string field.2) m) m) := by
    intro fs
    induction fs with
    | nil => exact fun m _ => rfl
    | cons field fs ih =>
      intro m hfs
      rw [List.map_cons, List.cons_subset] at hfs
      rw [List.foldlM_cons, set_key (split_messageKeys _ hfs.1)]
      exact ih _ hfs.2
  rw [ServiceClient.message, hset _ _ h]
  rfl

/-- **A request fails when the agent does not take it.** -/
theorem run_request (client : ServiceClient) (route : String) {fields : List (String × String)}
    (h : fields.map Prod.fst ⊆ messageKeys) : Dialogue.run net n (client.request route fields) =
      (n + 1, (net n ⟨false, client.serverAddress, client.service, route,
        client.members fields⟩).object) := by
  rw [ServiceClient.request, message_eq client h, Dialogue.run_bind_of_ok (Dialogue.run_pure _ _),
    Dialogue.run_bind_of_ok (run_callService _ _ _), run_deref_response]

/-- The address is read from the response under the name that was asked for. -/
theorem run_resolveNode [Jsoncpp] (nodename : String) :
    Dialogue.run net n (resolveNode config nodename) =
      (n + 1, (net n ⟨false, config.srvResolverAddress, "Resolver", "node/resolve",
        (resolverClient config).members [("nodename", nodename)]⟩).object.map
          fun r => r.getString nodename "") := by
  rw [resolveNode, Dialogue.run_bind_pure, run_request _ _ (by simp [messageKeys])]
  rfl

theorem run_resolveNode_of_sent [Jsoncpp] (nodename : String) {d : Delivery}
    (h : net n ⟨false, config.srvResolverAddress, "Resolver", "node/resolve",
      (resolverClient config).members [("nodename", nodename)]⟩ = .sent d) :
    Dialogue.run net n (resolveNode config nodename) =
      (n + 1, .ok ((Response.new d).getString nodename "")) := by
  rw [run_resolveNode, h]
  rfl

end Runs

end Client

end NixSrv
