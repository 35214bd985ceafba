import Mathlib.Data.List.Nodup

/-!
# Loops over a container that their body changes

A loop visits the elements of a container one after another. After its body it goes on from the
element it is at, which has no next one when the body has erased it.

* `next`, `Result`, `loop`: the element after another one, what a loop comes to, the loop;
* **`loop_eq_done`**: a loop whose body changes nothing;
* **`eq_of_loop_eq_done`**: a loop that comes to its end, where the body can erase elements only.
-/

namespace Traversal

variable {σ κ : Type*} [DecidableEq κ]

/-- What a loop comes to. -/
inductive Result (σ : Type*) where
  | done (s : σ)
  /-- The loop goes on from an element that has been erased. -/
  | invalidated (s : σ)
  | outOfFuel

/-- The element after `k`. -/
def next (l : List κ) (k : κ) : Option κ := (l.dropWhile fun k' => k' ≠ k).tail.head?

/-- The loop from a position on, which is none after the last element. -/
def loop (elems : σ → List κ) (body : κ → σ → σ) : ℕ → Option κ → σ → Result σ
  | 0, _, _ => .outOfFuel
  | _ + 1, none, s => .done s
  | n + 1, some k, s =>
    if k ∈ elems (body k s) then loop elems body n (next (elems (body k s)) k) (body k s)
    else .invalidated (body k s)

theorem next_append {l l' : List κ} {k : κ} (hk : k ∉ l) : next (l ++ k :: l') k = l'.head? := by
  have hl : ∀ k' ∈ l, decide (k' ≠ k) = true := by
    rintro k' hk'
    exact decide_eq_true fun h => hk (h ▸ hk')
  rw [next, List.dropWhile_append_of_pos hl, List.dropWhile_cons_of_neg (by simp), List.tail_cons]

variable {elems : σ → List κ} {body : κ → σ → σ} {s : σ}

/-- A step of the loop whose body changes nothing. -/
theorem loop_of_eq {l l' : List κ} {k : κ} (hs : elems s = l ++ k :: l') (hnd : (elems s).Nodup)
    (hk : body k s = s) (n : ℕ) :
    loop elems body (n + 1) (some k) s = loop elems body n l'.head? s := by
  have hnot : k ∉ l := by
    rw [hs] at hnd
    exact fun h => (List.disjoint_of_nodup_append hnd) h List.mem_cons_self
  rw [loop, hk, if_pos (by rw [hs]; simp), hs, next_append hnot]

/-- A loop from any element on whose body changes nothing. -/
theorem loop_suffix (hnd : (elems s).Nodup) {l l' : List κ} (hs : elems s = l ++ l')
    (h : ∀ k ∈ l', body k s = s) {n : ℕ} (hn : l'.length < n) :
    loop elems body n l'.head? s = .done s := by
  obtain ⟨n, rfl⟩ : ∃ m, n = m + 1 := ⟨n - 1, by omega⟩
  induction l' generalizing l n with
  | nil => rfl
  | cons k l' ih =>
    obtain ⟨n, rfl⟩ : ∃ m, n = m + 1 := ⟨n - 1, by simp only [List.length_cons] at hn; omega⟩
    rw [List.head?_cons, loop_of_eq hs hnd (h k List.mem_cons_self)]
    refine ih (List.append_cons l k l' ▸ hs) (fun k' hk' => h k' (List.mem_cons_of_mem _ hk')) n ?_
    simp only [List.length_cons] at hn
    omega

/-- **A loop whose body changes nothing visits all elements and comes to its end.** -/
theorem loop_eq_done (hnd : (elems s).Nodup) (h : ∀ k ∈ elems s, body k s = s) :
    loop elems body ((elems s).length + 1) (elems s).head? s = .done s :=
  loop_suffix hnd (List.nil_append _).symm h (Nat.lt_succ_self _)

/-- A loop from any element on that comes to its end. -/
theorem eq_of_loop_suffix (hnd : (elems s).Nodup) {l l' : List κ} (hs : elems s = l ++ l')
    (h : ∀ k ∈ l', body k s = s ∨ k ∉ elems (body k s)) {n : ℕ} {s' : σ}
    (hdone : loop elems body n l'.head? s = .done s') : (∀ k ∈ l', body k s = s) ∧ s' = s := by
  induction l' generalizing l n with
  | nil =>
    cases n with
    | zero => cases hdone
    | succ n =>
      cases hdone
      exact ⟨fun k hk => absurd hk List.not_mem_nil, rfl⟩
  | cons k l' ih =>
    cases n with
    | zero => cases hdone
    | succ n =>
      rw [List.head?_cons] at hdone
      have hk : body k s = s := by
        refine (h k List.mem_cons_self).resolve_right fun hk => ?_
        rw [loop, if_neg hk] at hdone
        cases hdone
      rw [loop_of_eq hs hnd hk] at hdone
      obtain ⟨hl, rfl⟩ := ih (List.append_cons l k l' ▸ hs)
        (fun k' hk' => h k' (List.mem_cons_of_mem _ hk')) hdone
      refine ⟨fun k' hk' => ?_, rfl⟩
      rcases List.mem_cons.mp hk' with rfl | hk'
      · exact hk
      · exact hl k' hk'

/-- **A loop comes to its end only if its body has changed nothing**, where the body erases the
element it is at or changes nothing. -/
theorem eq_of_loop_eq_done (hnd : (elems s).Nodup)
    (h : ∀ k ∈ elems s, body k s = s ∨ k ∉ elems (body k s)) {n : ℕ} {s' : σ}
    (hdone : loop elems body n (elems s).head? s = .done s') :
    (∀ k ∈ elems s, body k s = s) ∧ s' = s :=
  eq_of_loop_suffix hnd (List.nil_append _).symm h hdone

end Traversal
