import Mathlib.Data.List.Induction

/-!
# Dictionaries in order of insertion

Lists of pairs, as a dictionary keeps them: a key that is there keeps its place when it is assigned
to.

* `Dict`, `mapVal`, `lookup_mapVal`: a function applied to every value;
* `assign`, `lookup_assign`, `mem_assign`: assignment to a key;
* `assignAll`, `lastUnder`, **`lookup_assignAll`**: after several assignments the last one to a key
  counts.
-/

/-- A dictionary with its pairs in order of insertion. -/
abbrev Dict (κ α : Type*) := List (κ × α)

namespace Dict

variable {κ α β : Type*}

/-- Apply `g` to every value. -/
def mapVal (g : α → β) (d : Dict κ α) : Dict κ β := d.map fun p => (p.1, g p.2)

theorem mapVal_append (g : α → β) (d d' : Dict κ α) :
    mapVal g (d ++ d') = mapVal g d ++ mapVal g d' := List.map_append

variable [DecidableEq κ]

theorem lookup_cons (a k : κ) (v : α) (d : Dict κ α) :
    List.lookup k ((a, v) :: d) = if k = a then some v else d.lookup k := by
  by_cases h : k = a
  · rw [h, List.lookup_cons_self, if_pos rfl]
  · rw [List.lookup_cons, beq_false_of_ne h, if_neg h]

theorem lookup_mapVal (g : α → β) (d : Dict κ α) (k : κ) :
    (mapVal g d).lookup k = (d.lookup k).map g := by
  induction d with
  | nil => rfl
  | cons p d ih =>
    obtain ⟨a, v⟩ := p
    change List.lookup k ((a, g v) :: mapVal g d) = _
    rw [lookup_cons, lookup_cons, ih]
    split_ifs <;> rfl

/-- `d[k] = v`. -/
def assign (k : κ) (v : α) : Dict κ α → Dict κ α
  | [] => [(k, v)]
  | (k', v') :: d => if k' = k then (k, v) :: d else (k', v') :: assign k v d

theorem lookup_assign (k k' : κ) (v : α) (d : Dict κ α) :
    (assign k v d).lookup k' = if k' = k then some v else d.lookup k' := by
  induction d with
  | nil => exact lookup_cons k k' v []
  | cons p d ih =>
    obtain ⟨a, w⟩ := p
    by_cases ha : a = k
    · rw [assign, if_pos ha, lookup_cons, lookup_cons, ha]
      split_ifs <;> rfl
    · rw [assign, if_neg ha, lookup_cons, lookup_cons, ih]
      by_cases hk : k' = a
      · rw [if_pos hk, if_pos hk, if_neg (hk ▸ ha)]
      · rw [if_neg hk, if_neg hk]

theorem mem_assign {k : κ} {v : α} {d : Dict κ α} {p : κ × α} (h : p ∈ assign k v d) :
    p = (k, v) ∨ p ∈ d := by
  induction d with
  | nil => exact Or.inl (List.mem_singleton.mp h)
  | cons q d ih =>
    obtain ⟨a, w⟩ := q
    rw [assign] at h
    split_ifs at h with ha
    · exact (List.mem_cons.mp h).imp_right (List.mem_cons_of_mem _)
    · rcases List.mem_cons.mp h with rfl | h
      · exact Or.inr List.mem_cons_self
      · exact (ih h).imp_right (List.mem_cons_of_mem _)

/-- The assignments of a list of pairs, first one first. -/
def assignAll (ps : List (κ × α)) (d : Dict κ α) : Dict κ α :=
  ps.foldl (fun d p => assign p.1 p.2 d) d

/-- The last value that a list of pairs gives to a key. -/
def lastUnder (k : κ) (ps : List (κ × α)) : Option α := ps.reverse.lookup k

@[simp] theorem assignAll_nil (d : Dict κ α) : assignAll [] d = d := rfl

theorem assignAll_snoc (ps : List (κ × α)) (k : κ) (v : α) (d : Dict κ α) :
    assignAll (ps ++ [(k, v)]) d = assign k v (assignAll ps d) := by
  rw [assignAll, List.foldl_append]
  rfl

theorem mem_assignAll {ps : List (κ × α)} {d : Dict κ α} {p : κ × α} (h : p ∈ assignAll ps d) :
    p ∈ ps ∨ p ∈ d := by
  induction ps using List.reverseRecOn with
  | nil => exact Or.inr h
  | append_singleton ps q ih =>
    obtain ⟨k, v⟩ := q
    rw [assignAll_snoc] at h
    rcases mem_assign h with rfl | h
    · exact Or.inl (List.mem_append_right _ (List.mem_singleton_self _))
    · exact (ih h).imp_left (List.mem_append_left _)

theorem lastUnder_mapVal (g : α → β) (k : κ) (ps : List (κ × α)) :
    lastUnder k (mapVal g ps) = (lastUnder k ps).map g := by
  rw [lastUnder, mapVal, ← List.map_reverse]
  exact lookup_mapVal g ps.reverse k

theorem lastUnder_snoc (ps : List (κ × α)) (k k' : κ) (v : α) :
    lastUnder k' (ps ++ [(k, v)]) = if k' = k then some v else lastUnder k' ps := by
  rw [lastUnder, List.reverse_append, List.reverse_singleton, List.singleton_append, lookup_cons]
  rfl

/-- **The last assignment to a key counts.** -/
theorem lookup_assignAll (ps : List (κ × α)) (d : Dict κ α) (k : κ) :
    (assignAll ps d).lookup k = (lastUnder k ps).or (d.lookup k) := by
  induction ps using List.reverseRecOn with
  | nil => rfl
  | append_singleton ps p ih =>
    obtain ⟨a, v⟩ := p
    rw [assignAll_snoc, lookup_assign, lastUnder_snoc, ih]
    split_ifs <;> rfl

end Dict
