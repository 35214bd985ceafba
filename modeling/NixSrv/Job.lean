import NixSrv.Message

/-!
# Jobs

`nix::Job`. A generated identifier and the clock are what a call takes from its surroundings
(`Env`). The text a job is written to is kept as the document `Job.toDocument`.

* `Job.ofMessage`: the constructor from a message;
* `id_ofMessage`, **`id_ofMessage_ne`**: the id is the one the message carries, or a new one;
* **`set_toDocument`**: the document is what the calls in `to_string` write;
* `lookup_toDocument_id` … `lookup_toDocument_progress`: what stands in the document;
* `Constructed`, `Carries`, **`Carries.ofMessage`**: a job is read back from its document.
-/

namespace NixSrv

open Json

/-- What a call takes from the clock and from the generator of uuids. -/
structure Env where
  uuid : {s : String // s ≠ ""}
  now : ℤ

structure Job where
  id : String := ""
  originNode : String := ""
  module : String := ""
  action : String := ""
  apiKey : String := ""
  progress : ℚ := 0
  ctime : ℤ := 0
  completed : Bool := false
  parameters : Value := .object []

namespace Job

/-- `set_id()`: a new uuid. -/
def setId (env : Env) (job : Job) : Job := { job with id := env.uuid }

def init (env : Env) (job : Job) : Job :=
  let job := if job.id = "" then job.setId env else job
  if job.ctime = 0 then { job with ctime := toCInt env.now } else job

/-- `from_message`, which assigns every field. -/
def fromMessage [Jsoncpp] (_ : Job) (msg : Message) : Job where
  id := msg.getMeta "job_id" ""
  apiKey := msg.getMeta "api_key" ""
  originNode := msg.getMeta "origin_node" ""
  module := msg.getString "module" ""
  action := msg.getString "action" ""
  ctime := msg.getInt "ctime" 0
  progress := msg.getDouble "progress" 0
  completed := msg.getBool "completed" false
  parameters := msg.getRawValue "parameters"

/-- `Job(msg)`: the default constructor, `from_message` and `init` again. -/
def ofMessage [Jsoncpp] (env : Env) (msg : Message) : Job :=
  ((init env {}).fromMessage msg).init env

def setProgress (progress : ℚ) (job : Job) : Job :=
  if progress ≥ 100 then { job with completed := true, progress := 100 }
  else { job with progress := progress }

/-- The document `to_string` writes. -/
def toDocument (job : Job) : Members :=
  let out : Members := []
  let out := out.setMeta "job_id" (.string job.id)
  let out := out.setMeta "origin_node" (.string job.originNode)
  let out := out.setMeta "api_key" (.string job.apiKey)
  let out := out.put "module" (.string job.module)
  let out := out.put "action" (.string job.action)
  let out := out.put "ctime" (.int job.ctime)
  let out := out.put "progress" (.real job.progress)
  let out := out.put "completed" (.bool job.completed)
  out.put "parameters" job.parameters

/-- **The document is what the calls of `set` in `to_string` write.** -/
theorem set_toDocument (job : Job) :
    (do
      let out : Members := []
      let out := out.setMeta "job_id" (.string job.id)
      let out := out.setMeta "origin_node" (.string job.originNode)
      let out := out.setMeta "api_key" (.string job.apiKey)
      let out ← out.set "module" (.string job.module)
      let out ← out.set "action" (.string job.action)
      let out ← out.set "ctime" (.int job.ctime)
      let out ← out.set "progress" (.real job.progress)
      let out ← out.set "completed" (.bool job.completed)
      out.set "parameters" job.parameters) = .ok job.toDocument := by
  have hkey : ∀ k ∈ ["module", "action", "ctime", "progress", "completed", "parameters"],
      Util.split k [] "." = [k] := by decide
  simp only [set_key, hkey, List.mem_cons, true_or, or_true]
  rfl

/-! ## The fields of a job built from a message -/

section Fields

variable (env : Env) (job : Job)

@[simp] theorem apiKey_init : (job.init env).apiKey = job.apiKey := by
  simp only [init, setId]; split_ifs <;> rfl

@[simp] theorem parameters_init : (job.init env).parameters = job.parameters := by
  simp only [init, setId]; split_ifs <;> rfl

@[simp] theorem progress_init : (job.init env).progress = job.progress := by
  simp only [init, setId]; split_ifs <;> rfl

@[simp] theorem completed_init : (job.init env).completed = job.completed := by
  simp only [init, setId]; split_ifs <;> rfl

theorem id_init : (job.init env).id = if job.id = "" then env.uuid.1 else job.id := by
  simp only [init, setId]; split_ifs <;> rfl

theorem ctime_init :
    (job.init env).ctime = if job.ctime = 0 then toCInt env.now else job.ctime := by
  simp only [init, setId]; split_ifs <;> rfl

theorem id_init_ne : (job.init env).id ≠ "" := by
  rw [id_init]
  split_ifs with h
  · exact env.uuid.2
  · exact h

variable [Jsoncpp] (msg : Message)

theorem id_ofMessage : (ofMessage env msg).id =
    if msg.getMeta "job_id" "" = "" then env.uuid.1 else msg.getMeta "job_id" "" :=
  id_init _ _

/-- **No job has an empty id.** -/
theorem id_ofMessage_ne : (ofMessage env msg).id ≠ "" := id_init_ne _ _

theorem id_ofMessage_of_ne (h : msg.getMeta "job_id" "" ≠ "") :
    (ofMessage env msg).id = msg.getMeta "job_id" "" := by
  rw [id_ofMessage, if_neg h]

@[simp] theorem apiKey_ofMessage : (ofMessage env msg).apiKey = msg.getMeta "api_key" "" :=
  apiKey_init _ _

@[simp] theorem progress_ofMessage : (ofMessage env msg).progress = msg.getDouble "progress" 0 :=
  progress_init _ _

@[simp] theorem completed_ofMessage :
    (ofMessage env msg).completed = msg.getBool "completed" false :=
  completed_init _ _

@[simp] theorem parameters_ofMessage :
    (ofMessage env msg).parameters = msg.getRawValue "parameters" :=
  parameters_init _ _

end Fields

/-! ## Progress -/

@[simp] theorem id_setProgress (p : ℚ) (job : Job) : (job.setProgress p).id = job.id := by
  unfold setProgress; split_ifs <;> rfl

@[simp] theorem apiKey_setProgress (p : ℚ) (job : Job) :
    (job.setProgress p).apiKey = job.apiKey := by
  unfold setProgress; split_ifs <;> rfl

@[simp] theorem parameters_setProgress (p : ℚ) (job : Job) :
    (job.setProgress p).parameters = job.parameters := by
  unfold setProgress; split_ifs <;> rfl

/-- **A job whose progress is set to 100 is completed.** -/
theorem setProgress_hundred (job : Job) :
    job.setProgress 100 = { job with completed := true, progress := 100 } :=
  if_pos (by decide)

/-! ## Reading the document of a job -/

section Document

variable (job : Job)

@[simp] theorem lookup_toDocument_id : job.toDocument.lookup "@job_id" = some (.string job.id) := by
  simp [toDocument, Members.setMeta, Members.lookup_put]

@[simp] theorem lookup_toDocument_originNode :
    job.toDocument.lookup "@origin_node" = some (.string job.originNode) := by
  simp [toDocument, Members.setMeta, Members.lookup_put]

@[simp] theorem lookup_toDocument_apiKey :
    job.toDocument.lookup "@api_key" = some (.string job.apiKey) := by
  simp [toDocument, Members.setMeta, Members.lookup_put]

@[simp] theorem lookup_toDocument_module :
    job.toDocument.lookup "module" = some (.string job.module) := by
  simp [toDocument, Members.setMeta, Members.lookup_put]

@[simp] theorem lookup_toDocument_action :
    job.toDocument.lookup "action" = some (.string job.action) := by
  simp [toDocument, Members.setMeta, Members.lookup_put]

@[simp] theorem lookup_toDocument_ctime :
    job.toDocument.lookup "ctime" = some (.int job.ctime) := by
  simp [toDocument, Members.setMeta, Members.lookup_put]

@[simp] theorem lookup_toDocument_parameters :
    job.toDocument.lookup "parameters" = some job.parameters := by
  simp [toDocument, Members.setMeta]

@[simp] theorem lookup_toDocument_completed :
    job.toDocument.lookup "completed" = some (.bool job.completed) := by
  simp [toDocument, Members.setMeta, Members.lookup_put]

@[simp] theorem lookup_toDocument_progress :
    job.toDocument.lookup "progress" = some (.real job.progress) := by
  simp [toDocument, Members.setMeta, Members.lookup_put]

end Document

/-! ## Reading a job back -/

/-- What the constructors establish, and what the type of the time does. -/
structure Constructed (job : Job) : Prop where
  id_ne : job.id ≠ ""
  ctime_ne : job.ctime ≠ 0
  inInt_ctime : Value.inInt job.ctime

theorem init_of_constructed {job : Job} (h : job.Constructed) (env : Env) : job.init env = job := by
  simp only [init, if_neg h.id_ne, if_neg h.ctime_ne]

theorem constructed_init (env : Env) (henv : toCInt env.now ≠ 0) {job : Job}
    (h : Value.inInt job.ctime) : (job.init env).Constructed := by
  have hnow : Value.inInt (toCInt env.now) :=
    ⟨Int.le_bmod (by decide), Int.bmod_lt (by decide)⟩
  refine ⟨id_init_ne env job, ?_, ?_⟩
  · rw [ctime_init]
    split_ifs with h0
    · exact henv
    · exact h0
  · rw [ctime_init]
    split_ifs
    · exact hnow
    · exact h

/-- **Every job that is built from a message is constructed**, if the clock is not at 0. -/
theorem constructed_ofMessage [Jsoncpp] (env : Env) (henv : toCInt env.now ≠ 0) (msg : Message) :
    (ofMessage env msg).Constructed := by
  refine constructed_init env henv ?_
  change Value.inInt (((msg.find "ctime").bind Value.asInt?).getD 0)
  cases hfind : (msg.find "ctime").bind Value.asInt? with
  | none => exact (by decide : Value.inInt 0)
  | some n =>
    obtain ⟨v, -, hv⟩ := Option.bind_eq_some_iff.mp hfind
    exact Value.inInt_of_asInt? hv

/-- The members of the document of a job. -/
def documentKeys : List String :=
  ["@job_id", "@origin_node", "@api_key", "module", "action", "ctime", "progress", "completed",
    "parameters"]

theorem split_documentKeys : ∀ k ∈ documentKeys, Util.split k [] "." = [k] := by decide

/-- The members are those of the document of a job, up to members with other names. -/
def Carries (ms : Members) (job : Job) : Prop :=
  ∀ k ∈ documentKeys, ms.lookup k = job.toDocument.lookup k

theorem carries_toDocument (job : Job) : Carries job.toDocument job := fun _ _ => rfl

theorem Carries.put {ms : Members} {job : Job} (h : Carries ms job) {k : String}
    (hk : k ∉ documentKeys) (v : Value) : Carries (ms.put k v) job := by
  intro k' hk'
  have hne : k' ≠ k := fun he => hk (he ▸ hk')
  rw [Members.lookup_put_ne hne, h k' hk']

/-- **A job is read back** from a message that carries it. -/
theorem Carries.ofMessage [Jsoncpp] {ms : Members} {job : Job} (hms : Carries ms job)
    (h : job.Constructed) (env : Env) : ofMessage env (.ofMembers ms) = job := by
  have hfind : ∀ k ∈ documentKeys, (Message.ofMembers ms).find k = job.toDocument.lookup k :=
    fun k hk => (Message.find_key (split_documentKeys k hk) ms).trans (hms k hk)
  have hmeta : ∀ k s, "@" ++ k ∈ documentKeys →
      job.toDocument.lookup ("@" ++ k) = some (.string s) →
      (Message.ofMembers ms).getMeta k "" = s := by
    intro k s hk hs
    exact Message.getMeta_of_lookup (split_documentKeys _ hk) ((hms _ hk).trans hs) ""
  have hfrom : (init env {}).fromMessage (.ofMembers ms) = job := by
    rw [fromMessage, hmeta "job_id" job.id (by decide) job.lookup_toDocument_id,
      hmeta "api_key" job.apiKey (by decide) job.lookup_toDocument_apiKey,
      hmeta "origin_node" job.originNode (by decide) job.lookup_toDocument_originNode,
      Message.getString, hfind "module" (by decide), Message.getString,
      hfind "action" (by decide), Message.getInt, hfind "ctime" (by decide), Message.getDouble,
      hfind "progress" (by decide), Message.getBool, hfind "completed" (by decide),
      Message.getRawValue, hfind "parameters" (by decide)]
    simp [Value.asString?, Value.asInt?, Value.asDouble?, Value.asBool?, h.inInt_ctime]
  rw [Job.ofMessage, hfrom, init_of_constructed h]

end Job

end NixSrv
