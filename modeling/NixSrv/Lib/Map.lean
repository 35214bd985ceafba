import Mathlib.Algebra.Order.BigOperators.Group.List
import Mathlib.Algebra.Order.Ring.Nat
import Mathlib.Data.List.AList

/-!
# Finite maps

Mathlib's association lists with distinct keys, used as the maps of a program whose order of
iteration is not specified.

* `Map`, `Map.size`, `Map.emplace`, `Map.modify`, `Map.mapVal`: size, insertion of a new key, a
  change of the value of a key, a loop over the values;
* `lookup_insert`, `lookup_erase`, `lookup_emplace`, `lookup_modify`, `lookup_mapVal`: what each
  finds;
* `size_insert_le`, `size_erase_le`: how the size changes;
* `total`, **`total_erase`**, **`total_insert`**, `total_modify`: a sum over the values.
-/

/-- A finite map. -/
abbrev Map (κ α : Type*) := AList fun _ : κ => α

namespace Map

variable {κ α β : Type*}

/-- The number of keys. -/
def size (m : Map κ α) : ℕ := m.keys.length

/-- Apply `f` to every value. -/
def mapVal (f : α → β) (m : Map κ α) : Map κ β where
  entries := m.entries.map fun e => ⟨e.1, f e.2⟩
  nodupKeys := by
    have h := m.nodupKeys
    rwa [List.NodupKeys, List.keys, List.map_map] at *

theorem keys_mapVal (f : α → β) (m : Map κ α) : (mapVal f m).keys = m.keys := by
  simp [mapVal, AList.keys, List.keys]

@[simp] theorem mem_mapVal {f : α → β} {m : Map κ α} {k : κ} : k ∈ mapVal f m ↔ k ∈ m := by
  rw [AList.mem_keys, AList.mem_keys, keys_mapVal]

variable [DecidableEq κ]

theorem lookup_mapVal (f : α → β) (m : Map κ α) (k : κ) :
    (mapVal f m).lookup k = (m.lookup k).map f := by
  obtain ⟨l, hl⟩ := m
  simp only [mapVal, AList.lookup]
  clear hl
  induction l with
  | nil => rfl
  | cons e l ih =>
    obtain ⟨k', v⟩ := e
    by_cases h : k = k'
    · subst h
      rw [List.map_cons, List.dlookup_cons_eq, List.dlookup_cons_eq, Option.map_some]
    · rw [List.map_cons, List.dlookup_cons_ne _ _ h, List.dlookup_cons_ne _ _ h, ih]

/-- Insert a value unless the key is there already. -/
def emplace (k : κ) (v : α) (m : Map κ α) : Map κ α :=
  if k ∈ m then m else m.insert k v

/-- Change the value under a key, if it has one. -/
def modify (k : κ) (f : α → α) (m : Map κ α) : Map κ α :=
  match m.lookup k with
  | some v => m.insert k (f v)
  | none => m

theorem mem_of_lookup {m : Map κ α} {k : κ} {v : α} (h : m.lookup k = some v) : k ∈ m :=
  AList.lookup_isSome.mp (by rw [h]; rfl)

theorem exists_lookup {m : Map κ α} {k : κ} (h : k ∈ m) : ∃ v, m.lookup k = some v :=
  Option.isSome_iff_exists.mp (AList.lookup_isSome.mpr h)

/-- **What an insertion leaves to be found.** -/
theorem lookup_insert (k k' : κ) (v : α) (m : Map κ α) :
    (m.insert k v).lookup k' = if k' = k then some v else m.lookup k' := by
  split_ifs with h
  · rw [h, AList.lookup_insert]
  · exact AList.lookup_insert_ne h

/-- **What an erasure leaves to be found.** -/
theorem lookup_erase (k k' : κ) (m : Map κ α) :
    (m.erase k).lookup k' = if k' = k then none else m.lookup k' := by
  split_ifs with h
  · rw [h, AList.lookup_erase]
  · exact AList.lookup_erase_ne h

theorem erase_insert (k : κ) (v : α) (m : Map κ α) : (m.insert k v).erase k = m.erase k :=
  AList.ext (List.kerase_cons_eq rfl)

theorem lookup_emplace (k k' : κ) (v : α) (m : Map κ α) :
    (emplace k v m).lookup k' = if k' = k then some ((m.lookup k).getD v) else m.lookup k' := by
  unfold emplace
  split_ifs with hk h h
  · obtain ⟨w, hw⟩ := exists_lookup hk
    rw [h, hw, Option.getD_some]
  · rfl
  · rw [h, AList.lookup_insert, AList.lookup_eq_none.mpr hk, Option.getD_none]
  · exact AList.lookup_insert_ne h

theorem modify_of_lookup {m : Map κ α} {k : κ} {v : α} (h : m.lookup k = some v) (f : α → α) :
    modify k f m = m.insert k (f v) := by
  simp only [modify, h]

theorem modify_of_notMem {m : Map κ α} {k : κ} (h : k ∉ m) (f : α → α) : modify k f m = m := by
  simp only [modify, AList.lookup_eq_none.mpr h]

/-- **What a change leaves to be found.** -/
theorem lookup_modify (k k' : κ) (f : α → α) (m : Map κ α) :
    (modify k f m).lookup k' = if k' = k then (m.lookup k).map f else m.lookup k' := by
  by_cases hk : k ∈ m
  · obtain ⟨v, hv⟩ := exists_lookup hk
    rw [modify_of_lookup hv, lookup_insert, hv, Option.map_some]
  · rw [modify_of_notMem hk]
    split_ifs with h
    · rw [h, AList.lookup_eq_none.mpr hk, Option.map_none]
    · rfl

@[simp] theorem mem_modify {k k' : κ} {f : α → α} {m : Map κ α} :
    k' ∈ modify k f m ↔ k' ∈ m := by
  rw [← AList.lookup_isSome, lookup_modify, ← AList.lookup_isSome]
  split_ifs with h
  · rw [h, Option.isSome_map]
  · rfl

@[simp] theorem mem_emplace {k k' : κ} {v : α} {m : Map κ α} :
    k' ∈ emplace k v m ↔ k' = k ∨ k' ∈ m := by
  unfold emplace
  split_ifs with h
  · exact ⟨Or.inr, fun h' => h'.elim (fun e => e ▸ h) id⟩
  · exact AList.mem_insert m

theorem size_erase_le (k : κ) (m : Map κ α) : size (m.erase k) ≤ size m := by
  rw [size, AList.keys_erase]
  exact List.length_erase_le

theorem size_insert_le (k : κ) (v : α) (m : Map κ α) : size (m.insert k v) ≤ size m + 1 := by
  rw [size, AList.keys_insert, List.length_cons]
  exact Nat.succ_le_succ List.length_erase_le

/-! ## Sums over the values -/

/-- The sum of `f` over the values. -/
def total (f : α → ℕ) (m : Map κ α) : ℕ := (m.entries.map fun e => f e.2).sum

/-- What the value under a key adds to a sum. -/
def share (f : α → ℕ) (m : Map κ α) (k : κ) : ℕ := (m.lookup k).elim 0 f

theorem share_of_lookup {f : α → ℕ} {m : Map κ α} {k : κ} {v : α} (h : m.lookup k = some v) :
    share f m k = f v := by
  rw [share, h, Option.elim_some]

theorem share_of_notMem {f : α → ℕ} {m : Map κ α} {k : κ} (h : k ∉ m) : share f m k = 0 := by
  rw [share, AList.lookup_eq_none.mpr h, Option.elim_none]

/-- **An erasure takes the share of its key out of a sum.** -/
theorem total_erase (f : α → ℕ) (k : κ) (m : Map κ α) :
    total f (m.erase k) + share f m k = total f m := by
  by_cases hk : k ∈ m
  · obtain ⟨v, hv⟩ := exists_lookup hk
    obtain ⟨w, l₁, l₂, hl₁, hl, he⟩ := List.exists_of_kerase (AList.mem_keys.mp hk)
    have hw : w = v := by
      have hd : List.dlookup k m.entries = some w := by
        rw [hl, List.dlookup_append, List.dlookup_eq_none.mpr hl₁, List.dlookup_cons_eq]
        rfl
      exact Option.some.inj (hd.symm.trans hv)
    have he' : (m.erase k).entries = l₁ ++ l₂ := he
    rw [share_of_lookup hv, ← hw, total, total, he', hl]
    simp only [List.map_append, List.map_cons, List.sum_append, List.sum_cons]
    omega
  · have he : m.erase k = m := AList.ext (List.kerase_of_notMem_keys hk)
    rw [he, share_of_notMem hk, Nat.add_zero]

/-- **An insertion replaces the share of its key in a sum.** -/
theorem total_insert (f : α → ℕ) (k : κ) (v : α) (m : Map κ α) :
    total f (m.insert k v) + share f m k = total f m + f v := by
  have hi : total f (m.insert k v) = f v + total f (m.erase k) := by
    rw [total, AList.entries_insert, List.map_cons, List.sum_cons]
    rfl
  have he := total_erase f k m
  omega

/-- Two keys share at most the whole sum. -/
theorem share_add_share_le (f : α → ℕ) (m : Map κ α) {k k' : κ} (hk : k' ≠ k) :
    share f m k + share f m k' ≤ total f m := by
  have h := total_erase f k m
  have h' := total_erase f k' (m.erase k)
  have hs : share f (m.erase k) k' = share f m k' := by
    rw [share, lookup_erase, if_neg hk, share]
  omega

/-- A change replaces what the value of its key adds to a sum. -/
theorem total_modify {m : Map κ α} {k : κ} {v : α} (h : m.lookup k = some v) (f : α → α)
    (g : α → ℕ) : total g (modify k f m) + g v = total g m + g (f v) := by
  have hi := total_insert g k (f v) m
  rwa [share_of_lookup h, ← modify_of_lookup h] at hi

theorem total_emplace {f : α → ℕ} {v : α} (hv : f v = 0) (k : κ) (m : Map κ α) :
    total f (emplace k v m) = total f m := by
  unfold emplace
  split_ifs with hk
  · rfl
  · have hi := total_insert f k v m
    rw [share_of_notMem hk, hv] at hi
    exact hi

/-- A sum is zero when every share is. -/
theorem total_eq_zero {f : α → ℕ} {m : Map κ α} :
    total f m = 0 ↔ ∀ k v, m.lookup k = some v → f v = 0 := by
  constructor
  · intro h k v hv
    have he := total_erase f k m
    rw [share_of_lookup hv] at he
    omega
  · intro h
    refine List.sum_eq_zero fun n hn => ?_
    obtain ⟨⟨k, v⟩, he, rfl⟩ := List.mem_map.mp hn
    exact h k v (AList.mem_lookup_iff.mpr he)

omit [DecidableEq κ] in
theorem total_mono {f g : α → ℕ} (h : ∀ a, f a ≤ g a) (m : Map κ α) : total f m ≤ total g m :=
  List.sum_le_sum fun e _ => h e.2

omit [DecidableEq κ] in
theorem total_mapVal (f : β → ℕ) (g : α → β) (m : Map κ α) :
    total f (mapVal g m) = total (fun a => f (g a)) m := by
  simp [total, mapVal, Function.comp_def]

end Map
