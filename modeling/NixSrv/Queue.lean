import Mathlib.Data.List.Basic

/-!
# `nix::Queue`

A bounded queue with an open flag. Its capacity is positive and never exceeded by construction.

* `Queue.new`, `push`, `setEnabled`, `clear`: the members of the class, each run alone;
* `Queue.pop`: one pass of the loop of `pop` without a timeout, which takes the front element,
  leaves the loop on a closed queue, or waits.
-/

namespace NixSrv

structure Queue (α : Type*) where
  q : List α
  queueSize : ℕ
  isClosed : Bool
  size_pos : 0 < queueSize
  length_le : q.length ≤ queueSize

namespace Queue

variable {α : Type*}

/-- `Queue(queue_size)`. -/
def new (queueSize : ℕ) : Queue α where
  q := []
  queueSize := if queueSize ≠ 0 then queueSize else 50
  isClosed := false
  size_pos := by split_ifs <;> omega
  length_le := Nat.zero_le _

def size (s : Queue α) : ℕ := s.q.length

/-- What one pass of the loop of `pop` comes to. -/
inductive Popped (α : Type*) where
  | item (ptr : α) (rest : Queue α)
  | closed
  | waits

/-- The queue without its front element. -/
def dropFront (s : Queue α) : Queue α :=
  { s with
    q := s.q.tail
    length_le := by
      rw [List.length_tail]
      exact Nat.le_trans (Nat.sub_le _ _) s.length_le }

/-- One pass of the loop of `pop` with the default timeout. -/
def pop (s : Queue α) : Popped α :=
  if s.isClosed then .closed
  else match s.q with
    | [] => .waits
    | ptr :: _ => .item ptr s.dropFront

/-- The test `push` makes. -/
def HasRoom (s : Queue α) : Prop := s.isClosed = false ∧ s.q.length < s.queueSize

instance (s : Queue α) : Decidable s.HasRoom := by unfold HasRoom; infer_instance

/-- The queue with an element added at its end. -/
def enqueue (s : Queue α) (elem : α) (h : s.HasRoom) : Queue α :=
  { s with
    q := s.q ++ [elem]
    length_le := by
      rw [List.length_append, List.length_singleton]
      exact h.2 }

/-- `push`: the queue afterwards and the flag `success`. -/
def push (s : Queue α) (elem : α) : Queue α × Bool :=
  if h : s.HasRoom then (s.enqueue elem h, true) else (s, false)

def setEnabled (s : Queue α) (state : Bool) : Queue α := { s with isClosed := !state }

def clear (s : Queue α) : Queue α := { s with q := [], length_le := Nat.zero_le _ }

/-! ## What each member does -/

@[simp] theorem q_new (n : ℕ) : (new n : Queue α).q = [] := rfl
@[simp] theorem isClosed_new (n : ℕ) : (new n : Queue α).isClosed = false := rfl
@[simp] theorem q_dropFront (s : Queue α) : s.dropFront.q = s.q.tail := rfl
@[simp] theorem isClosed_dropFront (s : Queue α) : s.dropFront.isClosed = s.isClosed := rfl
@[simp] theorem q_enqueue (s : Queue α) (x : α) (h) : (s.enqueue x h).q = s.q ++ [x] := rfl
@[simp] theorem isClosed_enqueue (s : Queue α) (x : α) (h) :
    (s.enqueue x h).isClosed = s.isClosed := rfl
@[simp] theorem q_setEnabled (s : Queue α) (b : Bool) : (s.setEnabled b).q = s.q := rfl
@[simp] theorem isClosed_setEnabled (s : Queue α) (b : Bool) : (s.setEnabled b).isClosed = !b := rfl
@[simp] theorem q_clear (s : Queue α) : s.clear.q = [] := rfl
@[simp] theorem isClosed_clear (s : Queue α) : s.clear.isClosed = s.isClosed := rfl
@[simp] theorem queueSize_dropFront (s : Queue α) : s.dropFront.queueSize = s.queueSize := rfl
@[simp] theorem queueSize_enqueue (s : Queue α) (x : α) (h) :
    (s.enqueue x h).queueSize = s.queueSize := rfl
@[simp] theorem queueSize_setEnabled (s : Queue α) (b : Bool) :
    (s.setEnabled b).queueSize = s.queueSize := rfl
@[simp] theorem queueSize_clear (s : Queue α) : s.clear.queueSize = s.queueSize := rfl

theorem pop_closed {s : Queue α} : s.pop = .closed ↔ s.isClosed = true := by
  unfold pop
  split_ifs with hc
  · simp [hc]
  · split <;> simp [hc]

theorem pop_waits {s : Queue α} : s.pop = .waits ↔ s.isClosed = false ∧ s.q = [] := by
  unfold pop
  split_ifs with hc
  · simp [hc]
  · split <;> simp_all

theorem pop_cons {s : Queue α} {x : α} {xs : List α} (ho : s.isClosed = false)
    (hq : s.q = x :: xs) : s.pop = .item x s.dropFront := by
  unfold pop
  rw [if_neg (by simp [ho])]
  split <;> simp_all

theorem mem_of_pop {s : Queue α} {x : α} {rest : Queue α} (h : s.pop = .item x rest) :
    x ∈ s.q := by
  cases hc : s.isClosed with
  | true =>
    rw [pop_closed.mpr hc] at h
    cases h
  | false =>
  cases hq : s.q with
  | nil =>
    rw [pop_waits.mpr ⟨hc, hq⟩] at h
    cases h
  | cons y ys =>
    rw [pop_cons hc hq] at h
    cases h
    exact List.mem_cons_self

theorem push_of_hasRoom {s : Queue α} (h : s.HasRoom) (x : α) : s.push x = (s.enqueue x h, true) :=
  dif_pos h

theorem push_of_not_hasRoom {s : Queue α} (h : ¬ s.HasRoom) (x : α) : s.push x = (s, false) :=
  dif_neg h

@[simp] theorem isClosed_push (s : Queue α) (x : α) : (s.push x).1.isClosed = s.isClosed := by
  unfold push
  split_ifs <;> rfl

end Queue

end NixSrv
