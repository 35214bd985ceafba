import Mathlib.Data.List.Induction

/-!
# Failures in a row

Each event of a history is a failure, ends the failures before it, or is neither.

* `streak`: the number of failures in a row at the end of a history;
* **`streak_snoc`**: what one more event does to it;
* **`exists_failure`**: a failure of the streak.
-/

namespace Streak

variable {ε : Type*}

/-- What an event is to a streak. -/
inductive Kind where
  | failure
  | reset
  | other

def Kind.apply : Kind → ℕ → ℕ
  | failure, n => n + 1
  | reset, _ => 0
  | other, n => n

/-- An event that does not end a streak makes it no shorter. -/
theorem Kind.le_apply {k : Kind} (hk : k ≠ .reset) (n : ℕ) : n ≤ k.apply n := by
  cases k with
  | failure => exact Nat.le_succ n
  | reset => exact absurd rfl hk
  | other => exact Nat.le_refl n

/-- The number of failures since the last reset. -/
def streak (kind : ε → Kind) (h : List ε) : ℕ := h.foldl (fun n e => (kind e).apply n) 0

variable {kind : ε → Kind}

@[simp] theorem streak_nil : streak kind [] = 0 := rfl

/-- **What one more event does to a streak.** -/
@[simp] theorem streak_snoc (h : List ε) (e : ε) :
    streak kind (h ++ [e]) = (kind e).apply (streak kind h) := by
  simp [streak]

/-- **A streak has a failure in it.** -/
theorem exists_failure {h : List ε} (hs : 0 < streak kind h) :
    ∃ h₁ e h₂, h = h₁ ++ e :: h₂ ∧ kind e = .failure := by
  induction h using List.reverseRecOn with
  | nil => cases hs
  | append_singleton h e ih =>
    rw [streak_snoc] at hs
    cases hk : kind e with
    | failure => exact ⟨h, e, [], rfl, hk⟩
    | reset =>
      rw [hk] at hs
      cases hs
    | other =>
      rw [hk] at hs
      obtain ⟨h₁, e₁, h₂, rfl, hf⟩ := ih hs
      exact ⟨h₁, e₁, h₂ ++ [e], by simp, hf⟩

end Streak
