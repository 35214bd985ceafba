import Mathlib.Data.List.Induction

/-!
# The content of a cell after a history of writes

A cell holds at most one value. Each event of a history puts a value into it, drops the value it
holds or leaves it alone.

* `content`: the value after a history;
* **`exists_put_of_content`**: a value that is there was put by the last event that touched the
  cell;
* **`exists_put_between`**: after a drop, a value is there only if one has been put since;
* `Stands`, **`stands_snoc`**: a value put by an event and ended by none since, where what ends a
  value may depend on the value.
-/

namespace Cell

variable {ε α : Type*}

/-- What an event does to a cell. -/
inductive Write (α : Type*) where
  | put (a : α)
  | drop
  | keep

def Write.apply : Write α → Option α → Option α
  | put a, _ => some a
  | drop, _ => none
  | keep, c => c

/-- The value a cell holds after the events of `h`, oldest first. -/
def content (w : ε → Write α) (h : List ε) : Option α := h.foldl (fun c e => (w e).apply c) none

variable {w : ε → Write α}

@[simp] theorem content_nil : content w [] = none := rfl

@[simp] theorem content_snoc (h : List ε) (e : ε) :
    content w (h ++ [e]) = (w e).apply (content w h) := by
  simp [content]

/-- The content of a cell whose writes depend on a part of the events. -/
theorem content_map {ε' : Type*} (f : ε' → ε) (h : List ε') :
    content w (h.map f) = content (fun e => w (f e)) h := by
  rw [content, List.foldl_map, content]

theorem content_append_of_keep (h : List ε) {h' : List ε} (hk : ∀ e ∈ h', w e = .keep) :
    content w (h ++ h') = content w h := by
  induction h' using List.reverseRecOn with
  | nil => rw [List.append_nil]
  | append_singleton h' e ih =>
    rw [← List.append_assoc, content_snoc, hk e (by simp), Write.apply]
    exact ih fun e' he' => hk e' (List.mem_append_left _ he')

/-- **A value in the cell was put there by the last event that touched it.** -/
theorem exists_put_of_content {h : List ε} {a : α} (hc : content w h = some a) :
    ∃ h₁ e h₂, h = h₁ ++ e :: h₂ ∧ w e = .put a ∧ ∀ e' ∈ h₂, w e' = .keep := by
  induction h using List.reverseRecOn with
  | nil => cases hc
  | append_singleton h e ih =>
    rw [content_snoc] at hc
    cases hw : w e with
    | put b =>
      rw [hw] at hc
      cases hc
      exact ⟨h, e, [], rfl, hw, by simp⟩
    | drop => rw [hw] at hc; cases hc
    | keep =>
      rw [hw] at hc
      obtain ⟨h₁, e₁, h₂, rfl, hp, hk⟩ := ih hc
      refine ⟨h₁, e₁, h₂ ++ [e], by simp, hp, fun e' he' => ?_⟩
      rcases List.mem_append.mp he' with he' | he'
      · exact hk e' he'
      · rw [List.mem_singleton.mp he', hw]

/-- **After a drop, a value is in the cell only if one has been put since.** -/
theorem exists_put_between {h₁ h₂ : List ε} {e : ε} (he : w e = .drop)
    (hc : content w (h₁ ++ e :: h₂) ≠ none) : ∃ e' ∈ h₂, ∃ a, w e' = .put a := by
  by_contra hn
  have hnone : ∀ h, (∀ e' ∈ h, ¬ ∃ a, w e' = .put a) → content w (h₁ ++ [e] ++ h) = none := by
    intro h
    induction h using List.reverseRecOn with
    | nil => intro _; rw [List.append_nil, content_snoc, he]; rfl
    | append_singleton h e' ih =>
      intro hp
      rw [← List.append_assoc, content_snoc, ih fun x hx => hp x (List.mem_append_left _ hx)]
      cases hw : w e' with
      | put a => exact absurd ⟨a, hw⟩ (hp e' (by simp))
      | drop | keep => rfl
  refine hc ?_
  rw [List.append_cons]
  exact hnone h₂ fun e' he' hp => hn ⟨e', he', hp⟩

/-! ## Values that stand -/

section Stands

variable {put ends : ε → α → Prop}

/-- Some event of the history puts the value, and no later one ends it. -/
def Stands (put ends : ε → α → Prop) (h : List ε) (a : α) : Prop :=
  ∃ h₁ e h₂, h = h₁ ++ e :: h₂ ∧ put e a ∧ ∀ e' ∈ h₂, ¬ ends e' a

theorem not_stands_nil (a : α) : ¬ Stands put ends [] a := by
  rintro ⟨h₁, e, h₂, h, -⟩
  simp at h

/-- The values that stand where what puts and ends them depends on a part of the events. -/
theorem stands_map {ε' : Type*} (f : ε' → ε) (h : List ε') (a : α) :
    Stands put ends (h.map f) a ↔ Stands (fun e => put (f e)) (fun e => ends (f e)) h a := by
  constructor
  · rintro ⟨h₁, e, h₂, he, hp, hk⟩
    obtain ⟨l₁, l, rfl, rfl, hl⟩ := List.map_eq_append_iff.mp he
    obtain ⟨e', l₂, rfl, rfl, rfl⟩ := List.map_eq_cons_iff.mp hl
    exact ⟨l₁, e', l₂, rfl, hp, fun x hx => hk _ (List.mem_map_of_mem hx)⟩
  · rintro ⟨h₁, e, h₂, rfl, hp, hk⟩
    refine ⟨h₁.map f, f e, h₂.map f, by simp, hp, fun x hx => ?_⟩
    obtain ⟨x', hx', rfl⟩ := List.mem_map.mp hx
    exact hk x' hx'

/-- **What one more event does to the values that stand.** -/
theorem stands_snoc (h : List ε) (e : ε) (a : α) :
    Stands put ends (h ++ [e]) a ↔ put e a ∨ Stands put ends h a ∧ ¬ ends e a := by
  constructor
  · rintro ⟨h₁, e₁, h₂, he, hp, hk⟩
    rcases List.eq_nil_or_concat h₂ with rfl | ⟨h₂', e', rfl⟩
    · obtain ⟨-, he⟩ := List.append_inj' he rfl
      obtain rfl : e = e₁ := by simpa using he
      exact Or.inl hp
    · rw [List.concat_eq_append, ← List.cons_append, ← List.append_assoc] at he
      obtain ⟨hh, he⟩ := List.append_inj' he rfl
      obtain rfl : e = e' := by simpa using he
      subst hh
      refine Or.inr ⟨⟨h₁, e₁, h₂', rfl, hp, fun e' he' => hk e' ?_⟩, hk e ?_⟩ <;> simp [*]
  · rintro (hp | ⟨⟨h₁, e₁, h₂, rfl, hp, hk⟩, he⟩)
    · exact ⟨h, e, [], rfl, hp, by simp⟩
    · refine ⟨h₁, e₁, h₂ ++ [e], by simp, hp, fun e' he' => ?_⟩
      rcases List.mem_append.mp he' with he' | he'
      · exact hk e' he'
      · rwa [List.mem_singleton.mp he']

end Stands

end Cell
