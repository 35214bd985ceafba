import NixSrv.JobQueue.Threads

/-!
# What a step of a thread does

* `Pc.rank`: a bound on what a handler has left to do;
* `Pc.accepts`, `Pc.hands`, `Pc.registers`, `Pc.reports`, `Pc.acknowledges`: the jobs a step is
  about;
* `pendingCount`: how often an id is pending;
* `Pc.Ready`, `ListsOpen`: what a step needs besides a valid iterator;
* `Managed`: what the steps of `manage` that change the queues have in common;
* `PcCase`, **`pc_cases`**: everything a step can come to.
-/

namespace NixSrv.JobQueue

open Json

/-- A bound on the steps the handler still makes. -/
def Pc.rank : Pc → ℕ
  | .clearAll _ => 12
  | .removeAll _ => 11
  | .emptyAll _ => 10
  | .eraseAll _ => 9
  | .switchAll _ => 8
  | .findQueue _ => 7
  | .submit _ _ | .manageQueue _ => 6
  | .checkOpen _ _ | .clearQueue _ => 5
  | .countWorkers _ _ | .getWork _ | .closeQueue _ => 4
  | .popWorker _ _ | .popJob _ | .createQueue _ | .emptyQueue _ => 3
  | .pushJob _ _ | .replyWork _ _ | .setResult _ _ | .createList _ | .eraseQueue _ | .status _ => 2
  | .replyWorker _ _ | .register _ | .park _ | .setProgress _ | .acknowledge _ | .getResult _
  | .answer _ => 1

theorem Pc.rank_pos (pc : Pc) : 0 < pc.rank := by
  cases pc <;> simp [Pc.rank]

/-- The id of the job a step sends to a worker. -/
def Pc.hands : Pc → List String
  | .replyWorker job _ | .replyWork job _ => [job.id]
  | _ => []

/-- The id of the job a step registers in `in_progress_`. -/
def Pc.registers : Pc → List String
  | .register job => [job.id]
  | _ => []

section Steps

variable [Jsoncpp]

/-- The id for which a step stores a result. -/
def Pc.reports : Pc → List String
  | .setResult _ msg => if jobIdOf msg = "" then [] else [jobIdOf msg]
  | _ => []

/-- The id for which a step acknowledges a result. -/
def Pc.acknowledges : Pc → List String
  | .acknowledge msg => [jobIdOf msg]
  | _ => []

/-- The step sends, registers, stores and acknowledges nothing. -/
structure Pc.Quiet (pc : Pc) : Prop where
  hands : pc.hands = []
  registers : pc.registers = []
  reports : pc.reports = []
  acknowledges : pc.acknowledges = []

/-- The id of the job a step of `submit` accepts: it takes a parked worker for it, or queues it. -/
def Pc.accepts (jq : JobQueue) : Pc → List String
  | .popWorker job msg =>
    match jq.workersAwaiting.lookup (moduleOf msg) with
    | some ws => if ws.isClosed = false ∧ ws.q ≠ [] then [job.id] else []
    | none => []
  | .pushJob job msg =>
    match jq.queues.lookup (moduleOf msg) with
    | some q => if q.HasRoom then [job.id] else []
    | none => []
  | _ => []

/-- How often the id is pending in a queue. -/
def countIn (j : String) (q : Queue Job) : ℕ := (q.q.map Job.id).count j

/-- How often the id is pending. -/
def pendingCount (jq : JobQueue) (j : String) : ℕ := Map.total (countIn j) jq.queues

/-- The step waits for nothing, finds the list it uses, and has room for the request it parks. -/
def Pc.Ready (jq : JobQueue) : Pc → Prop
  | .popJob msg => ∀ q ∈ jq.queues.lookup (moduleOf msg), q.isClosed = true ∨ q.q ≠ []
  | .countWorkers _ msg => moduleOf msg ∈ jq.workersAwaiting
  | .popWorker _ msg => ∃ ws ∈ jq.workersAwaiting.lookup (moduleOf msg), ws.q ≠ []
  | .park msg => ∃ ws ∈ jq.workersAwaiting.lookup (moduleOf msg), ws.HasRoom
  | _ => True

instance (jq : JobQueue) (pc : Pc) : Decidable (pc.Ready jq) := by
  cases pc <;> unfold Pc.Ready <;> infer_instance

/-- No list of parked requests is closed. -/
def ListsOpen (jq : JobQueue) : Prop :=
  ∀ name ws, jq.workersAwaiting.lookup name = some ws → ws.isClosed = false

omit [Jsoncpp] in
/-- A change of a list that leaves it open. -/
theorem ListsOpen.insert {jq : JobQueue} (h : ListsOpen jq) (name : String)
    {ws : Queue IncomingMessage} (ho : ws.isClosed = false) :
    ListsOpen { jq with workersAwaiting := jq.workersAwaiting.insert name ws } := by
  intro name' ws' hw
  rw [Map.lookup_insert] at hw
  split_ifs at hw
  · cases hw
    exact ho
  · exact h name' ws' hw

omit [Jsoncpp] in
/-- A list that is created, unless it is there. -/
theorem ListsOpen.emplace {jq : JobQueue} (h : ListsOpen jq) (name : String) (n : ℕ) :
    ListsOpen { jq with workersAwaiting := Map.emplace name (.new n) jq.workersAwaiting } := by
  unfold Map.emplace
  split_ifs
  · exact h
  · exact h.insert name rfl

/-- A step of `manage` changes the queues. -/
structure Managed (pc : Pc) (jq jq' : JobQueue) : Prop where
  lists : ListsOpen jq → ListsOpen jq'
  inProgress : jq'.inProgress = jq.inProgress
  completed : jq'.completed = jq.completed
  kept : ∀ name ∈ jq.queues, pc.erases name = false → name ∈ jq'.queues
  pending : ∀ j, pendingCount jq' j ≤ pendingCount jq j

omit [Jsoncpp] in
/-- A queue that is emptied or keeps its jobs makes no id more pending. -/
theorem total_insert_le {queues : Map String (Queue Job)} {name j : String} {q q' : Queue Job}
    (hq : queues.lookup name = some q) (h : q'.q = q.q ∨ q'.q = []) :
    Map.total (countIn j) (queues.insert name q') ≤ Map.total (countIn j) queues := by
  have ht := Map.total_insert (countIn j) name q' queues
  have hshare := Map.share_of_lookup (f := countIn j) hq
  have hle : countIn j q' ≤ countIn j q := by
    rcases h with h | h
    · rw [countIn, h, countIn]
    · rw [countIn, h]
      exact Nat.zero_le _
  omega

omit [Jsoncpp] in
theorem pendingCount_initQueue (jq : JobQueue) (name : String) (size : ℕ) (j : String) :
    pendingCount (jq.initQueue name size).1 j = pendingCount jq j := by
  by_cases hn : name ∈ jq.queues
  · rw [initQueue_of_mem hn]
  · obtain ⟨n, h⟩ := initQueue_of_notMem hn size
    rw [h]
    exact Map.total_emplace (f := countIn j) (v := .new n) rfl name jq.queues

namespace Managed

variable {pc : Pc} {jq : JobQueue}

theorem refl (pc : Pc) (jq : JobQueue) : Managed pc jq jq :=
  ⟨id, rfl, rfl, fun _ h _ => h, fun _ => le_rfl⟩

/-- A change of every queue that adds no job. -/
theorem mapQueues {f : Queue Job → Queue Job} (hc : ∀ j q, countIn j (f q) ≤ countIn j q) :
    Managed pc jq { jq with queues := Map.mapVal f jq.queues } where
  lists h := h
  inProgress := rfl
  completed := rfl
  kept _ h _ := Map.mem_mapVal.mpr h
  pending j := by
    rw [pendingCount, Map.total_mapVal]
    exact Map.total_mono (hc j) jq.queues

theorem clearAll : Managed pc jq jq.clearAll :=
  mapQueues fun _ _ => Nat.zero_le _

theorem switchAll (state : Bool) : Managed pc jq (jq.switchAll state) :=
  mapQueues fun _ _ => le_rfl

theorem eraseAll (he : ∀ name, pc.erases name = true) :
    Managed pc jq { jq with queues := ∅ } where
  lists h := h
  inProgress := rfl
  completed := rfl
  kept name _ h := by rw [he] at h; cases h
  pending _ := Nat.zero_le _

theorem createQueue (name : String) (n : ℕ) :
    Managed pc jq { jq with queues := Map.emplace name (.new n) jq.queues } where
  lists h := h
  inProgress := rfl
  completed := rfl
  kept _ h _ := Map.mem_emplace.mpr (Or.inr h)
  pending j := (Map.total_emplace (f := countIn j) (v := .new n) rfl name jq.queues).le

theorem createList (name : String) (n : ℕ) :
    Managed pc jq { jq with workersAwaiting := Map.emplace name (.new n) jq.workersAwaiting } where
  lists h := h.emplace name n
  inProgress := rfl
  completed := rfl
  kept _ h _ := h
  pending _ := le_rfl

/-- A change of one queue that empties it or keeps its jobs. -/
theorem insertQueue {name : String} {q q' : Queue Job} (hq : jq.queues.lookup name = some q)
    (h : q'.q = q.q ∨ q'.q = []) :
    Managed pc jq { jq with queues := jq.queues.insert name q' } where
  lists h := h
  inProgress := rfl
  completed := rfl
  kept _ h _ := (AList.mem_insert _).mpr (Or.inr h)
  pending _ := total_insert_le hq h

theorem eraseQueue {name : String} (he : pc.erases name = true) :
    Managed pc jq { jq with queues := jq.queues.erase name } where
  lists h := h
  inProgress := rfl
  completed := rfl
  kept name' h hne := by
    refine AList.mem_erase.mpr ⟨fun hn => ?_, h⟩
    rw [hn, he] at hne
    cases hne
  pending j := Nat.le_trans (Nat.le_add_right _ _) (Map.total_erase (countIn j) name jq.queues).le

end Managed

/-- What a step can come to. -/
inductive PcCase (jq : JobQueue) (pc : Pc) : Prop
  | goes (pc' : Pc) (h : pc.step jq = ⟨jq, .running pc', []⟩) (hrank : pc'.rank < pc.rank)
      (hiter : ∀ name ∈ pc'.iterator, name ∈ pc.iterator ∨ name ∈ jq.queues)
      (hq : pc'.Quiet)
  | ends (th : Thread) (sent : List Sent) (h : pc.step jq = ⟨jq, th, sent⟩)
      (hth : th = .idle ∨ th = .thrown)
  | fails (h : pc.step jq = ⟨jq, .undefined, []⟩)
      (hno : pc.Ready jq → ListsOpen jq → ∃ name ∈ pc.iterator, name ∉ jq.queues)
  | waits (h : pc.step jq = ⟨jq, .waiting pc, []⟩) (hn : ¬ pc.Ready jq)
  | sent (job : Job) (msg : IncomingMessage) (hp : pc = .replyWork job msg)
      (h : pc.step jq = ⟨jq, .running (.register job), [msg.reply job.toDocument]⟩)
  | served (job : Job) (msg w : IncomingMessage) (ws : Queue IncomingMessage)
      (rest : List IncomingMessage) (hp : pc = .popWorker job msg)
      (hw : jq.workersAwaiting.lookup (moduleOf msg) = some ws) (ho : ws.isClosed = false)
      (hws : ws.q = w :: rest)
      (h : pc.step jq =
        ⟨{ jq with workersAwaiting := jq.workersAwaiting.insert (moduleOf msg) ws.dropFront },
          .running (.replyWorker job w), []⟩)
  | pushed (job : Job) (msg : IncomingMessage) (q : Queue Job) (hr : q.HasRoom)
      (hp : pc = .pushJob job msg) (hq : jq.queues.lookup (moduleOf msg) = some q)
      (h : pc.step jq =
        ⟨{ jq with queues := jq.queues.insert (moduleOf msg) (q.enqueue job hr) },
          .running (.answer (accepted msg job)), []⟩)
  | took (msg : IncomingMessage) (q : Queue Job) (job : Job) (rest : List Job)
      (hp : pc = .popJob msg) (hq : jq.queues.lookup (moduleOf msg) = some q)
      (ho : q.isClosed = false) (hj : q.q = job :: rest)
      (h : pc.step jq = ⟨{ jq with queues := jq.queues.insert (moduleOf msg) q.dropFront },
        .running (.replyWork job msg), []⟩)
  | registered (job : Job) (hp : pc = .register job)
      (h : pc.step jq = ⟨{ jq with inProgress := jq.inProgress.insert job.id job }, .idle, []⟩)
  | parked (msg : IncomingMessage) (ws : Queue IncomingMessage) (hp : pc = .park msg)
      (hw : jq.workersAwaiting.lookup (moduleOf msg) = some ws)
      (h : pc.step jq = ⟨{ jq with
        workersAwaiting := jq.workersAwaiting.insert (moduleOf msg) (ws.push msg).1 }, .idle, []⟩)
  | progressed (msg : IncomingMessage) (hp : pc = .setProgress msg)
      (h : pc.step jq = ⟨(jq.setProgress msg).state, .idle, (jq.setProgress msg).sent⟩)
  | stored (env : Env) (msg : IncomingMessage) (hp : pc = .setResult env msg)
      (hj : jobIdOf msg ≠ "")
      (h : pc.step jq = ⟨(jq.setResult env msg).state, .running (.acknowledge msg), []⟩)
  | looked (msg : IncomingMessage) (hp : pc = .getResult msg)
      (h : pc.step jq = ⟨(jq.getResult msg).state, .idle, (jq.getResult msg).sent⟩)
  | managed (jq' : JobQueue) (pc' : Pc) (h : pc.step jq = ⟨jq', .running pc', []⟩)
      (hrank : pc'.rank < pc.rank) (hiter : ∀ name ∈ pc'.iterator, name ∈ jq'.queues)
      (hq : pc'.Quiet) (hm : Managed pc jq jq')

/-- A handler that answers next. -/
theorem PcCase.answers {jq : JobQueue} {pc : Pc} {a : Sent}
    (h : pc.step jq = ⟨jq, .running (.answer a), []⟩) (hrank : 1 < pc.rank) : PcCase jq pc :=
  .goes (.answer a) h hrank (fun _ hn => by cases hn) ⟨rfl, rfl, rfl, rfl⟩

/-- A handler that has found its queue. -/
theorem PcCase.finds {jq : JobQueue} {pc pc' : Pc} {name : String} {q : Queue Job}
    (h : pc.step jq = ⟨jq, .running pc', []⟩) (hrank : pc'.rank < pc.rank)
    (hiter : ∀ name' ∈ pc'.iterator, name' = name) (hq : jq.queues.lookup name = some q)
    (hquiet : pc'.Quiet) : PcCase jq pc :=
  .goes pc' h hrank (fun name' hn => Or.inr (hiter name' hn ▸ Map.mem_of_lookup hq)) hquiet

/-- A handler that goes on with the queue it has found. -/
theorem PcCase.goesOn {jq : JobQueue} {pc : Pc} (pc' : Pc)
    (h : pc.step jq = ⟨jq, .running pc', []⟩) (hrank : pc'.rank < pc.rank)
    (hiter : pc'.iterator = pc.iterator) (hquiet : pc'.Quiet) : PcCase jq pc :=
  .goes pc' h hrank (fun _ hn => Or.inl (hiter ▸ hn)) hquiet

/-- A handler whose queue is gone. -/
theorem PcCase.noQueue {jq : JobQueue} {pc : Pc} {name : String}
    (h : pc.step jq = ⟨jq, .undefined, []⟩) (hi : pc.iterator = some name)
    (hq : jq.queues.lookup name = none) : PcCase jq pc :=
  .fails h fun _ _ => ⟨name, hi, AList.lookup_eq_none.mp hq⟩

/-- A handler that finds no list. -/
theorem PcCase.noList {jq : JobQueue} {pc : Pc} (h : pc.step jq = ⟨jq, .undefined, []⟩)
    (hn : ¬ pc.Ready jq) : PcCase jq pc :=
  .fails h fun hr _ => absurd hr hn

/-- A step of `manage` that changes the queues and answers or goes on without an iterator. -/
theorem PcCase.manages {jq jq' : JobQueue} {pc : Pc} (pc' : Pc)
    (h : pc.step jq = ⟨jq', .running pc', []⟩) (hrank : pc'.rank < pc.rank)
    (hiter : pc'.iterator = none) (hquiet : pc'.Quiet) (hm : Managed pc jq jq') :
    PcCase jq pc := by
  refine .managed jq' pc' h hrank (fun name hn => ?_) hquiet hm
  rw [hiter] at hn
  cases hn

/-- A step of `manage` on the queue it has found. -/
theorem PcCase.onQueue {jq : JobQueue} {pc pc' : Pc} {msg : IncomingMessage} {needed : Bool}
    {f : Queue Job → Queue Job} (h : pc.step jq = JobQueue.onQueue jq msg needed f pc')
    (hrank : pc'.rank < pc.rank) (hi : pc.iterator = if needed then some (queueOf msg) else none)
    (hi' : ∀ name ∈ pc'.iterator, name = queueOf msg ∧ needed = true) (hquiet : pc'.Quiet)
    (hf : ∀ q, (f q).q = q.q ∨ (f q).q = []) : PcCase jq pc := by
  cases hq : jq.queues.lookup (queueOf msg) with
  | some q =>
    have hs : pc.step jq = ⟨{ jq with queues := jq.queues.insert (queueOf msg) (f q) },
        .running pc', []⟩ := by
      rw [h]
      simp only [JobQueue.onQueue, hq]
    refine .managed _ pc' hs hrank (fun name hn => ?_) hquiet (.insertQueue hq (hf q))
    exact (AList.mem_insert _).mpr (Or.inl (hi' name hn).1)
  | none =>
  have hs : pc.step jq = ⟨jq, if needed then .undefined else .running pc', []⟩ := by
    rw [h]
    simp only [JobQueue.onQueue, hq]
  cases hn : needed with
  | true =>
    rw [hn] at hs hi
    exact .noQueue hs hi hq
  | false =>
    rw [hn] at hs
    refine .goes pc' hs hrank (fun name hname => ?_) hquiet
    rw [hn] at hi'
    exact absurd (hi' name hname).2 Bool.false_ne_true

theorem submit_pc_cases (jq : JobQueue) (env : Env) (msg : IncomingMessage) :
    PcCase jq (.submit env msg) := by
  cases hq : jq.queues.lookup (moduleOf msg) with
  | none => exact .answers (by simp only [Pc.step, hq]; rfl) (by simp [Pc.rank])
  | some q =>
    have hs : Pc.step jq (.submit env msg) = ⟨jq, .running (.checkOpen env msg), []⟩ := by
      simp only [Pc.step, hq]
    exact .finds hs (by simp [Pc.rank]) (fun _ hn => (Option.some.inj hn).symm) hq
      ⟨rfl, rfl, rfl, rfl⟩

theorem checkOpen_pc_cases (jq : JobQueue) (env : Env) (msg : IncomingMessage) :
    PcCase jq (.checkOpen env msg) := by
  cases hq : jq.queues.lookup (moduleOf msg) with
  | none => exact .noQueue (by simp only [Pc.step, hq]) rfl hq
  | some q =>
  cases hc : q.isClosed with
  | true => exact .answers (by simp only [Pc.step, hq, hc, if_true]; rfl) (by simp [Pc.rank])
  | false =>
  by_cases hv : ValidSubmit msg
  · exact .goesOn (.countWorkers (.ofMessage env msg.toMessage) msg)
      (by simp [Pc.step, hq, hc, hv]) (by simp [Pc.rank]) rfl ⟨rfl, rfl, rfl, rfl⟩
  · exact .answers (a := msg.fail .dataInvalidContent) (by simp [Pc.step, hq, hc, hv])
      (by simp [Pc.rank])

theorem countWorkers_pc_cases (jq : JobQueue) (job : Job) (msg : IncomingMessage) :
    PcCase jq (.countWorkers job msg) := by
  cases hw : jq.workersAwaiting.lookup (moduleOf msg) with
  | none => exact .noList (by simp only [Pc.step, hw]) (AList.lookup_eq_none.mp hw)
  | some ws =>
  by_cases hz : ws.size = 0
  · exact .goesOn (.pushJob job msg) (by simp [Pc.step, hw, hz]) (by simp [Pc.rank]) rfl
      ⟨rfl, rfl, rfl, rfl⟩
  · exact .goesOn (.popWorker job msg) (by simp [Pc.step, hw, hz]) (by simp [Pc.rank]) rfl
      ⟨rfl, rfl, rfl, rfl⟩

omit [Jsoncpp] in
theorem no_list {jq : JobQueue} {name : String} {P : Queue IncomingMessage → Prop}
    (hw : jq.workersAwaiting.lookup name = none) :
    ¬ ∃ ws ∈ jq.workersAwaiting.lookup name, P ws := by
  rintro ⟨ws, h, -⟩
  rw [hw] at h
  cases h

theorem popWorker_pc_cases (jq : JobQueue) (job : Job) (msg : IncomingMessage) :
    PcCase jq (.popWorker job msg) := by
  cases hw : jq.workersAwaiting.lookup (moduleOf msg) with
  | none => exact .noList (by simp only [Pc.step, hw]) (no_list hw)
  | some ws =>
  cases hc : ws.isClosed with
  | true =>
    refine .fails (by simp only [Pc.step, hw, Queue.pop_closed.mpr hc]) fun _ ho => ?_
    have h := ho _ ws hw
    rw [hc] at h
    cases h
  | false =>
  cases hws : ws.q with
  | nil =>
    refine .waits (by simp only [Pc.step, hw, Queue.pop_waits.mpr ⟨hc, hws⟩]) ?_
    rintro ⟨ws', hw', hne⟩
    rw [hw] at hw'
    cases hw'
    exact hne hws
  | cons w rest => exact .served job msg w ws rest rfl hw hc hws (by
      simp only [Pc.step, hw, Queue.pop_cons hc hws])

theorem pushJob_pc_cases (jq : JobQueue) (job : Job) (msg : IncomingMessage) :
    PcCase jq (.pushJob job msg) := by
  cases hq : jq.queues.lookup (moduleOf msg) with
  | none => exact .noQueue (by simp only [Pc.step, hq]) rfl hq
  | some q =>
  by_cases hr : q.HasRoom
  · exact .pushed job msg q hr rfl hq (by simp [Pc.step, hq, Queue.push_of_hasRoom hr])
  · exact .answers (a := msg.fail .tempLimitReached "Queue full")
      (by simp [Pc.step, hq, Queue.push_of_not_hasRoom hr]) (by simp [Pc.rank])

theorem getWork_pc_cases (jq : JobQueue) (msg : IncomingMessage) : PcCase jq (.getWork msg) := by
  cases hq : jq.queues.lookup (moduleOf msg) with
  | none => exact .answers (by simp only [Pc.step, hq]; rfl) (by simp [Pc.rank])
  | some q =>
    have hs : Pc.step jq (.getWork msg) = ⟨jq, .running (.popJob msg), []⟩ := by
      simp only [Pc.step, hq]
    exact .finds hs (by simp [Pc.rank]) (fun _ hn => (Option.some.inj hn).symm) hq
      ⟨rfl, rfl, rfl, rfl⟩

theorem popJob_pc_cases (jq : JobQueue) (msg : IncomingMessage) : PcCase jq (.popJob msg) := by
  cases hq : jq.queues.lookup (moduleOf msg) with
  | none => exact .noQueue (by simp only [Pc.step, hq]) rfl hq
  | some q =>
  cases hc : q.isClosed with
  | true =>
    have hs : Pc.step jq (.popJob msg) = ⟨jq, .running (.park msg), []⟩ := by
      simp only [Pc.step, hq, Queue.pop_closed.mpr hc]
    exact .goesOn (.park msg) hs (by simp [Pc.rank]) rfl ⟨rfl, rfl, rfl, rfl⟩
  | false =>
  cases hj : q.q with
  | nil =>
    refine .waits (by simp only [Pc.step, hq, Queue.pop_waits.mpr ⟨hc, hj⟩]) fun hr => ?_
    rcases hr q hq with h | h
    · rw [hc] at h
      cases h
    · exact h hj
  | cons job rest => exact .took msg q job rest rfl hq hc hj (by
      simp only [Pc.step, hq, Queue.pop_cons hc hj])

theorem park_pc_cases (jq : JobQueue) (msg : IncomingMessage) : PcCase jq (.park msg) := by
  cases hw : jq.workersAwaiting.lookup (moduleOf msg) with
  | none => exact .noList (by simp only [Pc.step, hw]) (no_list hw)
  | some ws => exact .parked msg ws rfl hw (by simp only [Pc.step, hw])

theorem findQueue_pc_cases (jq : JobQueue) (msg : IncomingMessage) :
    PcCase jq (.findQueue msg) := by
  by_cases hc : Creates msg
  · by_cases hq : queueOf msg ∈ jq.queues
    · exact .answers (by simp only [Pc.step, if_pos hc, if_pos hq]; rfl) (by simp [Pc.rank])
    · have hs : Pc.step jq (.findQueue msg) = ⟨jq, .running (.createQueue msg), []⟩ := by
        simp only [Pc.step, if_pos hc, if_neg hq]
      exact .goes (.createQueue msg) hs (by simp [Pc.rank]) (fun _ hn => by cases hn)
        ⟨rfl, rfl, rfl, rfl⟩
  · cases hq : jq.queues.lookup (queueOf msg) with
    | some q =>
      have hs : Pc.step jq (.findQueue msg) = ⟨jq, .running (.manageQueue msg), []⟩ := by
        simp only [Pc.step, if_neg hc, hq]
      refine .finds hs (by simp [Pc.rank]) (fun name hn => ?_) hq ⟨rfl, rfl, rfl, rfl⟩
      simp only [Pc.iterator] at hn
      split_ifs at hn
      · exact (Option.some.inj hn).symm
      · cases hn
    | none =>
      by_cases ha : anyAllAction msg = true
      · exact .ends .idle [] (by simp only [Pc.step, if_neg hc, hq, if_pos ha]) (Or.inl rfl)
      · exact .answers (by simp only [Pc.step, if_neg hc, hq, if_neg ha]; rfl) (by simp [Pc.rank])

theorem manageQueue_pc_cases (jq : JobQueue) (msg : IncomingMessage) :
    PcCase jq (.manageQueue msg) := by
  refine .onQueue rfl (by simp [Pc.rank]) rfl (fun name hn => ?_) ⟨rfl, rfl, rfl, rfl⟩ fun q => ?_
  · simp only [Pc.iterator] at hn
    split_ifs at hn with h
    · refine ⟨(Option.some.inj hn).symm, ?_⟩
      simp only [Bool.or_eq_true, touches] at h ⊢
      tauto
    · cases hn
  · split_ifs
    · exact Or.inl rfl
    · exact Or.inl rfl

theorem clearQueue_pc_cases (jq : JobQueue) (msg : IncomingMessage) :
    PcCase jq (.clearQueue msg) := by
  have hf : ∀ q : Queue Job, (if clears msg then q.clear else q).q = q.q ∨
      (if clears msg then q.clear else q).q = [] := by
    intro q
    split_ifs
    · exact Or.inr rfl
    · exact Or.inl rfl
  cases hr : removes msg with
  | true =>
    have hs : Pc.step jq (.clearQueue msg) = onQueue jq msg (clears msg || removes msg)
        (fun q => if clears msg then q.clear else q) (.closeQueue msg) := by
      simp only [Pc.step, hr, if_true]
    refine .onQueue hs (by simp [Pc.rank]) rfl (fun name hn => ?_) ⟨rfl, rfl, rfl, rfl⟩ hf
    exact ⟨(Option.some.inj hn).symm, by rw [hr, Bool.or_true]⟩
  | false =>
    have hs : Pc.step jq (.clearQueue msg) = onQueue jq msg (clears msg || removes msg)
        (fun q => if clears msg then q.clear else q) (.answer msg.replyEmpty) := by
      simp only [Pc.step, hr, Bool.false_eq_true, if_false]
    exact .onQueue hs (by simp [Pc.rank]) rfl (fun _ hn => by cases hn) ⟨rfl, rfl, rfl, rfl⟩ hf

theorem eraseQueue_pc_cases (jq : JobQueue) (msg : IncomingMessage) :
    PcCase jq (.eraseQueue msg) := by
  cases hq : jq.queues.lookup (queueOf msg) with
  | none => exact .noQueue (by simp only [Pc.step, hq]) rfl hq
  | some q =>
    exact .manages _ (by simp only [Pc.step, hq]; rfl) (by simp [Pc.rank]) rfl ⟨rfl, rfl, rfl, rfl⟩
      (.eraseQueue (decide_eq_true rfl))

/-- **Everything a step can come to.** -/
theorem pc_cases (jq : JobQueue) (pc : Pc) : PcCase jq pc := by
  cases pc with
  | submit env msg => exact submit_pc_cases jq env msg
  | checkOpen env msg => exact checkOpen_pc_cases jq env msg
  | countWorkers job msg => exact countWorkers_pc_cases jq job msg
  | popWorker job msg => exact popWorker_pc_cases jq job msg
  | pushJob job msg => exact pushJob_pc_cases jq job msg
  | getWork msg => exact getWork_pc_cases jq msg
  | popJob msg => exact popJob_pc_cases jq msg
  | park msg => exact park_pc_cases jq msg
  | findQueue msg => exact findQueue_pc_cases jq msg
  | manageQueue msg => exact manageQueue_pc_cases jq msg
  | clearQueue msg => exact clearQueue_pc_cases jq msg
  | closeQueue msg =>
    exact .onQueue rfl (by simp [Pc.rank]) rfl
      (fun _ hn => ⟨(Option.some.inj hn).symm, rfl⟩) ⟨rfl, rfl, rfl, rfl⟩ fun _ => Or.inl rfl
  | emptyQueue msg =>
    exact .onQueue rfl (by simp [Pc.rank]) rfl
      (fun _ hn => ⟨(Option.some.inj hn).symm, rfl⟩) ⟨rfl, rfl, rfl, rfl⟩ fun _ => Or.inr rfl
  | eraseQueue msg => exact eraseQueue_pc_cases jq msg
  | createQueue msg =>
    exact .manages (.createList msg) rfl (by simp [Pc.rank]) rfl ⟨rfl, rfl, rfl, rfl⟩
      (.createQueue _ _)
  | createList msg =>
    exact .manages (.answer msg.replyEmpty) rfl (by simp [Pc.rank]) rfl ⟨rfl, rfl, rfl, rfl⟩
      (.createList _ _)
  | replyWork job msg => exact .sent job msg rfl rfl
  | replyWorker job w => exact .ends .idle _ rfl (Or.inl rfl)
  | acknowledge msg | answer a => exact .ends .idle _ rfl (Or.inl rfl)
  | register job => exact .registered job rfl rfl
  | setProgress msg => exact .progressed msg rfl rfl
  | getResult msg => exact .looked msg rfl rfl
  | setResult env msg =>
    by_cases hj : jobIdOf msg = ""
    · exact .answers (a := msg.fail .nullValue) (if_pos hj) (by simp [Pc.rank])
    · exact .stored env msg rfl hj (if_neg hj)
  | clearAll msg =>
    refine .manages (.removeAll msg) rfl (by simp [Pc.rank]) rfl ⟨rfl, rfl, rfl, rfl⟩ ?_
    split_ifs
    · exact .clearAll
    · exact .refl _ _
  | removeAll msg =>
    cases hr : msg.getBool "remove_all" false with
    | true =>
      have hs : Pc.step jq (.removeAll msg) =
          ⟨jq.switchAll false, .running (.emptyAll msg), []⟩ := by
        simp only [Pc.step, hr, if_true]
      exact .manages _ hs (by simp [Pc.rank]) rfl ⟨rfl, rfl, rfl, rfl⟩ (.switchAll _)
    | false =>
      have hs : Pc.step jq (.removeAll msg) = ⟨jq, .running (.switchAll msg), []⟩ := by
        simp only [Pc.step, hr, Bool.false_eq_true, if_false]
      exact .manages _ hs (by simp [Pc.rank]) rfl ⟨rfl, rfl, rfl, rfl⟩ (.refl _ _)
  | emptyAll msg =>
    exact .manages (.eraseAll msg) rfl (by simp [Pc.rank]) rfl ⟨rfl, rfl, rfl, rfl⟩ .clearAll
  | eraseAll msg =>
    exact .manages (.switchAll msg) rfl (by simp [Pc.rank]) rfl ⟨rfl, rfl, rfl, rfl⟩
      (.eraseAll fun _ => rfl)
  | switchAll msg =>
    refine .manages (.findQueue msg) rfl (by simp [Pc.rank]) rfl ⟨rfl, rfl, rfl, rfl⟩ ?_
    split_ifs
    · exact .switchAll _
    · exact .refl _ _
  | status msg =>
    cases hd : jq.statusDocument with
    | ok out => exact .answers (a := msg.reply out) (by simp only [Pc.step, hd]) (by simp [Pc.rank])
    | error e => exact .ends .thrown [] (by simp only [Pc.step, hd]) (Or.inr rfl)

/-! ## Handlers that leave the queues as they are -/

theorem setProgress_queues (jq : JobQueue) (msg : IncomingMessage) :
    (jq.setProgress msg).state.queues = jq.queues := by
  rcases setProgress_cases jq msg with h | ⟨_, _, -, h⟩ <;> rw [h]

theorem setResult_queues (jq : JobQueue) (env : Env) (msg : IncomingMessage) :
    (jq.setResult env msg).state.queues = jq.queues := by
  cases setResult_cases jq env msg with
  | refused _ h | stored _ h => rw [h]

theorem getResult_queues (jq : JobQueue) (msg : IncomingMessage) :
    (jq.getResult msg).state.queues = jq.queues := by
  cases getResult_cases jq msg with
  | collected _ _ _ h | denied _ _ _ h | notReady _ _ _ h | notFound _ _ h => rw [h]

end Steps

end NixSrv.JobQueue
