import Mathlib.Data.Nat.Notation

/-!
# Dialogues

A dialogue puts questions to its surroundings, goes on with the answers and comes to a result or to
an error.

* `Dialogue`, `put`: dialogues and their composition;
* `run`: what a dialogue comes to when each question is answered by what it is and by the number of
  questions before it;
* `run_bind_of_ok`, `run_bind_of_error`: a composition is run part by part;
* `Returns`, **`returns_bind`**: when there is a result.
-/

/-- A dialogue with questions in `Q`, answers in `A` and errors in `E`. -/
inductive Dialogue (Q A E α : Type) where
  | result (a : α)
  | error (e : E)
  | ask (q : Q) (k : A → Dialogue Q A E α)

namespace Dialogue

variable {Q A E α β : Type}

/-- The first dialogue, then the one that its result gives. -/
def andThen : Dialogue Q A E α → (α → Dialogue Q A E β) → Dialogue Q A E β
  | result a, f => f a
  | error e, _ => error e
  | ask q k, f => ask q fun a => (k a).andThen f

instance : Monad (Dialogue Q A E) where
  pure := result
  bind := andThen

/-- One question. -/
def put (q : Q) : Dialogue Q A E A := ask q result

/-! ## Running a dialogue -/

/-- The number of questions put and what the dialogue comes to, after `n` questions. -/
def run (answer : ℕ → Q → A) : ℕ → Dialogue Q A E α → ℕ × Except E α
  | n, result a => (n, .ok a)
  | n, error e => (n, .error e)
  | n, ask q k => (k (answer n q)).run answer (n + 1)

variable {answer : ℕ → Q → A} {n n' : ℕ} {d : Dialogue Q A E α} {f : α → Dialogue Q A E β}

@[simp] theorem run_pure (n : ℕ) (a : α) :
    run answer n (pure a : Dialogue Q A E α) = (n, .ok a) := rfl

/-- The composition goes on where the first part has stopped. -/
theorem run_bind (n : ℕ) (d : Dialogue Q A E α) (f : α → Dialogue Q A E β) :
    run answer n (d >>= f) =
      match run answer n d with
      | (n', .ok a) => run answer n' (f a)
      | (n', .error e) => (n', .error e) := by
  change run answer n (d.andThen f) = _
  induction d generalizing n with
  | result a => rfl
  | error e => rfl
  | ask q k ih => exact ih (answer n q) (n + 1)

theorem run_bind_of_ok {a : α} (h : run answer n d = (n', .ok a)) :
    run answer n (d >>= f) = run answer n' (f a) := by
  rw [run_bind, h]

theorem run_bind_of_error {e : E} (h : run answer n d = (n', .error e)) :
    run answer n (d >>= f) = (n', .error e) := by
  rw [run_bind, h]

/-- A function of the result. -/
theorem run_bind_pure (n : ℕ) (d : Dialogue Q A E α) (g : α → β) :
    run answer n (d >>= fun a => pure (g a)) =
      ((run answer n d).1, (run answer n d).2.map g) := by
  rw [run_bind]
  rcases run answer n d with ⟨n', e | a⟩ <;> rfl

/-! ## Coming to a result -/

/-- The dialogue comes to a result. -/
def Returns (answer : ℕ → Q → A) (n : ℕ) (d : Dialogue Q A E α) : Prop :=
  ∃ a, (run answer n d).2 = .ok a

@[simp] theorem returns_pure (n : ℕ) (a : α) : Returns answer n (pure a : Dialogue Q A E α) :=
  ⟨a, rfl⟩

@[simp] theorem not_returns_error (n : ℕ) (e : E) :
    ¬ Returns answer n (error e : Dialogue Q A E α) := by
  rintro ⟨a, h⟩
  cases h

/-- **A composition comes to a result when both of its parts do.** -/
theorem returns_bind : Returns answer n (d >>= f) ↔
    ∃ n' a, run answer n d = (n', .ok a) ∧ Returns answer n' (f a) := by
  constructor
  · rintro ⟨b, hb⟩
    rcases h : run answer n d with ⟨n', e | a⟩
    · rw [run_bind_of_error h] at hb
      cases hb
    · rw [run_bind_of_ok h] at hb
      exact ⟨n', a, rfl, b, hb⟩
  · rintro ⟨n', a, h, b, hb⟩
    exact ⟨b, by rw [run_bind_of_ok h, hb]⟩

/-- The same with the run of the first part known. -/
theorem returns_bind_of_run {x : Except E α} (h : run answer n d = (n', x)) :
    Returns answer n (d >>= f) ↔ ∃ a, x = .ok a ∧ Returns answer n' (f a) := by
  rw [returns_bind, h]
  constructor
  · rintro ⟨_, a, h', hf⟩
    cases h'
    exact ⟨a, rfl, hf⟩
  · rintro ⟨a, rfl, hf⟩
    exact ⟨n', a, rfl, hf⟩

end Dialogue
