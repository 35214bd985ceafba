import Mathlib.Data.List.Nodup
import Mathlib.Logic.Function.Basic
import NixSrv.Lib.Streak
import NixSrv.Lib.Transition

/-!
# A watchdog

In each round a watchdog probes some keys one after another, counts the failures in a row of each
key, and acts on a key after every failure from a threshold on.

* `State`, `Label`, `Step`, **`system`**: states, labels, steps and runs;
* `rounds`, `acts`: rounds with a key and acts on it since a probe of the key has last succeeded;
* **`rounds_of_run`**: a round with a key is a failure, or the probe is still to come;
* **`acts_of_run`**: how often it has acted on a key.
-/

namespace Watchdog

open Transition Streak

variable {κ : Type*} [DecidableEq κ]

structure State (κ : Type*) where
  /-- The keys to be probed in this round. -/
  left : List κ := []
  /-- The key to act on next. -/
  acting : Option κ := none
  fails : κ → ℕ := fun _ => 0

inductive Label (κ : Type*) where
  | round (keys : List κ)
  | probe (key : κ) (succeeded : Bool)
  | act (key : κ)
  /-- The watchdog does nothing. -/
  | other

/-- What a step of the watchdog does. -/
inductive Step (threshold : ℕ) (w : State κ) : Label κ → State κ → Prop
  | round (keys : List κ) (hl : w.left = []) (ha : w.acting = none) (hk : keys.Nodup) :
      Step threshold w (.round keys) { w with left := keys }
  | succeeded (key : κ) (left : List κ) (hl : w.left = key :: left) (ha : w.acting = none) :
      Step threshold w (.probe key true)
        { w with left := left, fails := Function.update w.fails key 0 }
  | failed (key : κ) (left : List κ) (hl : w.left = key :: left) (ha : w.acting = none) :
      Step threshold w (.probe key false)
        { left := left
          acting := if threshold ≤ w.fails key + 1 then some key else none
          fails := Function.update w.fails key (w.fails key + 1) }
  | act (key : κ) (ha : w.acting = some key) :
      Step threshold w (.act key) { w with acting := none }
  | other : Step threshold w .other w

/-- A probe, whether it succeeds or fails. -/
theorem Step.probe {threshold : ℕ} {w : State κ} {key : κ} {left : List κ}
    (hl : w.left = key :: left) (ha : w.acting = none) (succeeded : Bool) :
    Step threshold w (.probe key succeeded)
      { left := left
        acting := if succeeded = false ∧ threshold ≤ w.fails key + 1 then some key else none
        fails := Function.update w.fails key (if succeeded then 0 else w.fails key + 1) } := by
  cases succeeded with
  | true =>
    have h : Step threshold w _ _ := .succeeded key left hl ha
    rwa [ha] at h
  | false =>
    have h : Step threshold w _ _ := .failed key left hl ha
    simpa using h

theorem Step.idle {threshold : ℕ} {w w' : State κ} (h : w' = w) : Step threshold w .other w' :=
  h ▸ .other

/-- **The watchdog.** -/
def system (κ : Type*) [DecidableEq κ] (threshold : ℕ) : System (State κ) (Label κ) where
  init w := w = {}
  step := Step threshold

/-- Rounds with the key. -/
def roundKind (key : κ) : Label κ → Kind
  | .round keys => if key ∈ keys then .failure else .other
  | .probe key' succeeded => if key' = key ∧ succeeded = true then .reset else .other
  | _ => .other

/-- Acts on the key. -/
def actKind (key : κ) : Label κ → Kind
  | .act key' => if key' = key then .failure else .other
  | .probe key' succeeded => if key' = key ∧ succeeded = true then .reset else .other
  | _ => .other

/-- The rounds with the key since a probe of it has last succeeded. -/
def rounds (key : κ) (labels : List (Label κ)) : ℕ := streak (roundKind key) labels

/-- The acts on the key since a probe of it has last succeeded. -/
def acts (key : κ) (labels : List (Label κ)) : ℕ := streak (actKind key) labels

variable {threshold : ℕ} {tr : List (Move (State κ) (Label κ))} {w : State κ}

/-- The labels of a run. -/
def labels (tr : List (Move (State κ) (Label κ))) : List (Label κ) := tr.map Move.event

omit [DecidableEq κ] in
theorem labels_snoc (tr : List (Move (State κ) (Label κ))) (m : Move (State κ) (Label κ)) :
    labels (tr ++ [m]) = labels tr ++ [m.event] := by
  simp [labels]

omit [DecidableEq κ] in
/-- The labels of a run of another system, seen as one of the watchdog. -/
theorem labels_via {σ ε : Type*} (f : σ → State κ) (g : Move σ ε → Label κ)
    (tr : List (Move σ ε)) : labels (tr.map (Move.via f g)) = tr.map g := by
  rw [labels, List.map_map]
  rfl

theorem nodup_left (hr : Run (system κ threshold) tr w) : w.left.Nodup := by
  refine hr.state_invariant (I := fun w => w.left.Nodup) ?_ ?_
  · rintro _ rfl
    exact List.nodup_nil
  · intro w l w' h hs
    cases hs with
    | round keys _ _ hk => exact hk
    | succeeded key left hl | failed key left hl =>
      rw [hl] at h
      exact (List.nodup_cons.mp h).2
    | act | other => exact h

theorem rounds_eq_count (hr : Run (system κ threshold) tr w) (key : κ) :
    rounds key (labels tr) = w.fails key + w.left.count key := by
  induction hr with
  | nil h =>
    cases h
    rfl
  | @snoc tr w w' l hr hs ih =>
    have hnodup := nodup_left hr
    rw [labels_snoc, rounds, streak_snoc]
    change (roundKind key l).apply (rounds key (labels tr)) = _
    rw [ih]
    cases hs with
    | round keys hl ha hk =>
      rw [hl, List.count_nil, roundKind]
      split_ifs with hmem
      · rw [List.count_eq_one_of_mem hk hmem]
        rfl
      · rw [List.count_eq_zero_of_not_mem hmem]
        rfl
    | succeeded key' left hl ha =>
      rw [hl] at hnodup ⊢
      simp only [roundKind, and_true]
      by_cases hkey : key' = key
      · subst hkey
        rw [if_pos rfl, Function.update_self,
          List.count_eq_zero_of_not_mem (List.nodup_cons.mp hnodup).1]
        rfl
      · rw [if_neg hkey, Function.update_of_ne (Ne.symm hkey), List.count_cons_of_ne hkey]
        rfl
    | failed key' left hl ha =>
      rw [hl, roundKind, if_neg (by simp)]
      dsimp only
      by_cases hkey : key' = key
      · subst hkey
        rw [Function.update_self, List.count_cons_self]
        change _ + (_ + 1) = _ + 1 + _
        omega
      · rw [Function.update_of_ne (Ne.symm hkey), List.count_cons_of_ne hkey]
        rfl
    | act | other => rfl

/-- **Each round with a key ends with a failure, or the probe is still to come.** -/
theorem rounds_of_run (hr : Run (system κ threshold) tr w) (key : κ) :
    rounds key (labels tr) = w.fails key + (if key ∈ w.left then 1 else 0) := by
  rw [rounds_eq_count hr, (nodup_left hr).count]

/-- **How often the watchdog has acted on a key**: once for each failure from the threshold on,
unless it is about to. -/
theorem acts_of_run (hr : Run (system κ threshold) tr w) (key : κ) :
    acts key (labels tr) + (if w.acting = some key then 1 else 0) =
      w.fails key + 1 - max 1 threshold := by
  induction hr with
  | nil h =>
    cases h
    change 0 + 0 = 0 + 1 - max 1 threshold
    omega
  | @snoc tr w w' l hr hs ih =>
    rw [labels_snoc, acts, streak_snoc]
    change (actKind key l).apply (acts key (labels tr)) + _ = _
    cases hs with
    | round keys hl ha hk =>
      rw [ha] at ih ⊢
      exact ih
    | succeeded key' left hl ha =>
      rw [ha] at ih ⊢
      simp only [actKind, and_true]
      by_cases hkey : key' = key
      · subst hkey
        rw [if_pos rfl, Function.update_self]
        change 0 + 0 = 0 + 1 - max 1 threshold
        omega
      · rw [if_neg hkey, Function.update_of_ne (Ne.symm hkey)]
        exact ih
    | failed key' left hl ha =>
      rw [ha] at ih
      rw [actKind, if_neg (by simp)]
      change acts key (labels tr) + _ = _
      simp only [reduceCtorEq, if_false, Nat.add_zero] at ih
      rw [ih]
      dsimp only
      by_cases hkey : key' = key
      · subst hkey
        rw [Function.update_self]
        by_cases hle : threshold ≤ w.fails key' + 1
        · rw [if_pos hle, if_pos rfl]
          omega
        · rw [if_neg hle, if_neg (by simp)]
          omega
      · rw [Function.update_of_ne (Ne.symm hkey), if_neg]
        · rfl
        · split_ifs
          · simpa using hkey
          · simp
    | act key' ha =>
      rw [ha] at ih
      rw [actKind]
      by_cases hkey : key' = key
      · subst hkey
        rw [if_pos rfl] at ih ⊢
        change acts key' (labels tr) + 1 + 0 = _
        exact ih
      · rw [if_neg (by simpa using hkey)] at ih
        rw [if_neg hkey]
        exact ih
    | other => exact ih

end Watchdog
