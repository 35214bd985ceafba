import NixSrv.JobQueue.Steps

/-!
# Pending jobs

The queues of the module as first-in first-out histories.

* `idsIn_queueAfter`: what `manage` leaves in a queue;
* **`pendingIds_handle`**, `handedFrom_eq`, `droppedFrom_eq`: a call as an operation on each queue;
* **`pendingIds_of_run`**: what is pending, was handed out and was dropped after a run.
-/

namespace NixSrv.JobQueue

open Json Transition

variable [Jsoncpp]

omit [Jsoncpp] in
theorem idsIn_queueAfterAll (msg : IncomingMessage) (o : Option (Queue Job)) :
    idsIn (queueAfterAll msg o) =
      if msg.getBool "clear_all" false = true ∨ msg.getBool "remove_all" false = true then []
      else idsIn o := by
  unfold queueAfterAll idsIn
  cases o with
  | none => split_ifs <;> simp_all
  | some q => split_ifs <;> simp_all

omit [Jsoncpp] in
theorem idsIn_bind_queueAfterOwn (msg : IncomingMessage) (o : Option (Queue Job)) :
    idsIn (o.bind (queueAfterOwn msg)) =
      if clears msg = true ∨ removes msg = true then [] else idsIn o := by
  cases o with
  | none => exact (ite_self _).symm
  | some q =>
    rw [Option.bind_some, queueAfterOwn]
    by_cases hr : removes msg = true
    · rw [if_pos hr, if_pos (Or.inr hr)]
      rfl
    by_cases hc : clears msg = true
    · rw [if_neg hr, if_pos hc, if_pos (Or.inl hc)]
      rfl
    · rw [if_neg hr, if_neg hc, if_neg (not_or.mpr ⟨hc, hr⟩)]
      split_ifs <;> rfl

theorem idsIn_queueAfter (msg : IncomingMessage) (n : ℕ) (name : String)
    (o : Option (Queue Job)) :
    idsIn (queueAfter msg n name o) = if Empties msg name then [] else idsIn o := by
  have hall := idsIn_queueAfterAll msg o
  unfold queueAfter Empties
  by_cases hn : name = queueOf msg
  · rw [if_pos hn]
    by_cases hc : Creates msg
    · have hget : idsIn (some ((queueAfterAll msg o).getD (.new n))) =
          idsIn (queueAfterAll msg o) := by
        cases queueAfterAll msg o with
        | none => rfl
        | some q => rfl
      rw [if_pos hc, hget, hall]
      simp only [hc, not_true_eq_false, false_and, or_false]
    · rw [if_neg hc, idsIn_bind_queueAfterOwn, hall, ← ite_or]
      exact if_congr (by tauto) rfl rfl
  · rw [if_neg hn, hall]
    simp only [hn, false_and, and_false, or_false]

/-- **A call does to the ids in a queue what `fifoOp` says.** -/
theorem pendingIds_handle {jq : JobQueue} {c : Call} (hfin : (jq.handle c).Finished)
    (name : String) :
    pendingIds (jq.handle c).state name =
      (fifoOp name ⟨jq, c, (jq.handle c).state⟩).apply (pendingIds jq name) := by
  cases queue_cases hfin (jq.handle c).state name with
  | kept hop h => rw [hop, pendingIds, h]; rfl
  | created n hop hq₀ h => rw [hop, pendingIds, pendingIds, h, hq₀]; rfl
  | enqueued q job hr hop hq₀ h =>
    rw [hop, pendingIds, pendingIds, h, hq₀]
    simp [idsIn, Fifo.Op.apply]
  | dequeued q job rest hop hq₀ hj h =>
    rw [hop, pendingIds, pendingIds, h, hq₀]
    simp [idsIn, Fifo.Op.apply, hj]
  | managed env msg n hc h =>
    subst hc
    rw [pendingIds, h, idsIn_queueAfter, ← pendingIds]
    simp only [fifoOp]
    split_ifs <;> rfl

/-- The job handed out is the one `fifoOp` takes. -/
theorem handedFrom_eq (jq : JobQueue) (c : Call) (post : JobQueue) (name : String) :
    handedFrom name ⟨jq, c, post⟩ = (fifoOp name ⟨jq, c, post⟩).takes (pendingIds jq name) := by
  obtain ⟨name', size⟩ | ⟨⟨handler, env, msg⟩⟩ := c
  · rfl
  cases handler with
  | submit =>
    simp only [handedFrom, fifoOp]
    split
    · split_ifs <;> rfl
    · rfl
  | getWork =>
    simp only [handedFrom, fifoOp]
    by_cases he : moduleOf msg = name
    · subst he
      cases getWork_cases jq msg with
      | noQueue _ _ h | waits _ _ _ _ h | noList _ _ _ h | parked _ _ _ _ _ h =>
        simp [handedIn, okIn, sentIn, handle, handleRequest, h, Fifo.Op.takes]
      | handed q job rest hq ho hj h =>
        simp [handedIn, okIn, sentIn, handle, handleRequest, h, Fifo.Op.takes, pendingIds, idsIn,
          hq, hj]
    · simp [he, Fifo.Op.takes]
  | manage =>
    simp only [handedFrom, fifoOp]
    split_ifs <;> rfl
  | setProgress | setResult | getResult | status => rfl

/-- The jobs dropped are those `fifoOp` flushes. -/
theorem droppedFrom_eq (m : Move) (name : String) :
    droppedFrom name m = (fifoOp name m).flushes (pendingIds m.pre name) := by
  obtain ⟨pre, ⟨name', size⟩ | ⟨⟨handler, env, msg⟩⟩, post⟩ := m
  · rfl
  cases handler with
  | submit =>
    simp only [droppedFrom, fifoOp]
    split
    · split_ifs <;> rfl
    · rfl
  | getWork | manage =>
    simp only [droppedFrom, fifoOp]
    split_ifs <;> rfl
  | setProgress | setResult | getResult | status => rfl

/-- **The queues of the module are first-in first-out**: `pendingIds` is what the operations of the
run leave, and what is handed out and dropped is what they take and flush. -/
theorem pendingIds_of_run {tr : List Move} {jq : JobQueue} (hr : Run system tr jq)
    (name : String) :
    pendingIds jq name = Fifo.content (fifoOp name) tr ∧
    tr.flatMap (handedFrom name) = Fifo.taken (fifoOp name) tr ∧
    tr.flatMap (droppedFrom name) = Fifo.flushed (fifoOp name) tr := by
  induction hr with
  | nil h => cases h; exact ⟨rfl, rfl, rfl⟩
  | @snoc tr s s' c hr hs ih =>
    obtain ⟨hfin, rfl⟩ := step_iff.mp hs
    obtain ⟨hpend, hhand, hdrop⟩ := ih
    refine ⟨?_, ?_, ?_⟩
    · rw [Fifo.content_snoc, ← hpend]
      exact pendingIds_handle hfin name
    · rw [List.flatMap_append, List.flatMap_singleton, Fifo.taken_snoc, hhand, ← hpend,
        handedFrom_eq]
    · rw [List.flatMap_append, List.flatMap_singleton, Fifo.flushed_snoc, hdrop, ← hpend,
        droppedFrom_eq]

end NixSrv.JobQueue
