import Mathlib.Data.Finmap

/-!
# Tables of slots with an index

Named values in a list of slots, some of which may be free, with an index from names to slots. That
the index and the slots agree is part of the table.

* `putAt`, `firstFree`: a list that is written at a position, and the position a new name gets;
* `Slots`, `set`, `del`, `get`, `items`: tables and their operations;
* `ext`: the slots determine the table;
* `mem_items`, `nodup_names`, **`size_index`**: what is in a table, and how much;
* **`get_set`**, `get_del`, `len_set`, **`length_entries_set`**: what the operations change;
* `setAll`, `ofItems`, **`items_ofItems`**, **`ofItems_items_ofItems`**, **`eq_of_ofItems_eq`**:
  tables made of a list of pairs.
-/

/-! ## Writing a list at a position -/

/-- The list with `a` at position `i`, which is at most its length. -/
def putAt {α : Type*} (l : List α) (i : ℕ) (a : α) : List α :=
  if i < l.length then l.set i a else l ++ [a]

theorem getElem?_putAt {α : Type*} {l : List α} {i : ℕ} (hi : i ≤ l.length) (a : α) (j : ℕ) :
    (putAt l i a)[j]? = if j = i then some a else l[j]? := by
  unfold putAt
  split_ifs with h hj hj
  · rw [hj, List.getElem?_set_self h]
  · rw [List.getElem?_set_ne (Ne.symm hj)]
  · rw [hj, show i = l.length by omega, List.getElem?_concat_length]
  · by_cases hlt : j < l.length
    · rw [List.getElem?_append_left hlt]
    · rw [List.getElem?_eq_none (by rw [List.length_append, List.length_singleton]; omega),
        List.getElem?_eq_none (by omega)]

/-- The position of the first free slot, or the end of the list. -/
def firstFree {α : Type*} (l : List (Option α)) : ℕ := l.findIdx Option.isNone

theorem firstFree_le {α : Type*} (l : List (Option α)) : firstFree l ≤ l.length :=
  List.findIdx_le_length

/-- The first free slot is free. -/
theorem getElem?_firstFree {α : Type*} (l : List (Option α)) (a : α) :
    l[firstFree l]? ≠ some (some a) := by
  intro h
  obtain ⟨hlt, he⟩ := List.getElem?_eq_some_iff.mp h
  have hnone : (l.get ⟨firstFree l, hlt⟩).isNone = true := List.findIdx_getElem
  rw [List.get_eq_getElem] at hnone
  simp only [he, Option.isNone_some, Bool.false_eq_true] at hnone

/-- Without a free slot the list is full of items. -/
theorem length_filterMap_of_firstFree {α : Type*} {l : List (Option α)}
    (h : firstFree l = l.length) : (l.filterMap id).length = l.length := by
  rw [firstFree, List.findIdx_eq_length] at h
  rw [List.filterMap_length_eq_length]
  intro a ha
  have := h a ha
  cases a with
  | none => cases this
  | some a => rfl

/-! ## Finite maps -/

theorem Finmap.lookup_insert_eq_ite {κ α : Type*} [DecidableEq κ] (k k' : κ) (v : α)
    (m : Finmap fun _ : κ => α) :
    (m.insert k v).lookup k' = if k' = k then some v else m.lookup k' := by
  split_ifs with h
  · rw [h, Finmap.lookup_insert]
  · rw [Finmap.lookup_insert_of_ne m h]

theorem Finmap.lookup_erase_eq_ite {κ α : Type*} [DecidableEq κ] (k k' : κ)
    (m : Finmap fun _ : κ => α) :
    (m.erase k).lookup k' = if k' = k then none else m.lookup k' := by
  split_ifs with h
  · rw [h, Finmap.lookup_erase]
  · rw [Finmap.lookup_erase_ne h]

/-! ## Tables -/

/-- A table of named values; the index holds the slot of each name. -/
structure Slots (κ α : Type) [DecidableEq κ] where
  entries : List (Option (κ × α)) := []
  index : Finmap fun _ : κ => ℕ := ∅
  index_iff : ∀ (k : κ) (i : ℕ), index.lookup k = some i ↔ ∃ v, entries[i]? = some (some (k, v))

namespace Slots

variable {κ α γ : Type} [DecidableEq κ]

def empty : Slots κ α where
  index_iff k i := by simp

instance : EmptyCollection (Slots κ α) := ⟨empty⟩

variable (s : Slots κ α)

/-- The slot that an assignment to `k` writes: that of `k`, the first free one, or a new one. -/
def slotFor (k : κ) : ℕ := (s.index.lookup k).getD (firstFree s.entries)

theorem slotFor_le (k : κ) : s.slotFor k ≤ s.entries.length := by
  unfold slotFor
  cases h : s.index.lookup k with
  | none => exact firstFree_le _
  | some i =>
    obtain ⟨v, hv⟩ := (s.index_iff k i).mp h
    exact (List.getElem?_eq_some_iff.mp hv).1.le

/-- The slot that an assignment writes holds no other name. -/
theorem name_of_slotFor {k k' : κ} {v : α} (h : s.entries[s.slotFor k]? = some (some (k', v))) :
    k' = k := by
  have hk' := (s.index_iff k' _).mpr ⟨v, h⟩
  unfold slotFor at h hk'
  cases hk : s.index.lookup k with
  | none =>
    rw [hk, Option.getD_none] at h
    exact absurd h (getElem?_firstFree _ _)
  | some i =>
    rw [hk, Option.getD_some] at hk'
    obtain ⟨w, hw⟩ := (s.index_iff k i).mp hk
    obtain ⟨w', hw'⟩ := (s.index_iff k' i).mp hk'
    rw [hw] at hw'
    simp only [Option.some.injEq, Prod.mk.injEq] at hw'
    exact hw'.1.symm

/-- `table[k] = v`. -/
def set (k : κ) (v : α) : Slots κ α where
  entries := putAt s.entries (s.slotFor k) (some (k, v))
  index := if k ∈ s.index then s.index else s.index.insert k (s.slotFor k)
  index_iff k' i := by
    have hput := getElem?_putAt (s.slotFor_le k) (some (k, v)) i
    have hlookup : (if k ∈ s.index then s.index else s.index.insert k (s.slotFor k)).lookup k' =
        if k' = k then some (s.slotFor k) else s.index.lookup k' := by
      by_cases hk : k ∈ s.index
      · obtain ⟨j, hj⟩ := Finmap.mem_iff.mp hk
        rw [if_pos hk]
        split_ifs with he
        · rw [he, slotFor, hj, Option.getD_some]
        · rfl
      · rw [if_neg hk, Finmap.lookup_insert_eq_ite]
    rw [hlookup, hput]
    by_cases hi : i = s.slotFor k
    · by_cases he : k' = k
      · simp [hi, he]
      · simp only [if_neg he, if_pos hi, Option.some.injEq, Prod.mk.injEq]
        constructor
        · intro h
          obtain ⟨w, hw⟩ := (s.index_iff k' i).mp h
          rw [hi] at hw
          exact absurd (s.name_of_slotFor hw) he
        · rintro ⟨w, hw, -⟩
          exact absurd hw.symm he
    · rw [if_neg hi]
      by_cases he : k' = k
      · rw [if_pos he, Option.some.injEq, ← s.index_iff, he, slotFor]
        constructor
        · exact fun h => absurd h.symm hi
        · intro h
          rw [slotFor, h] at hi
          exact absurd rfl hi
      · rw [if_neg he, s.index_iff]

/-- `del table[k]`; `none` when there is no such name. -/
def del (k : κ) : Option (Slots κ α) :=
  match h : s.index.lookup k with
  | none => none
  | some i => some {
      entries := s.entries.set i none
      index := s.index.erase k
      index_iff := fun k' j => by
        obtain ⟨v, hv⟩ := (s.index_iff k i).mp h
        have hlt := (List.getElem?_eq_some_iff.mp hv).1
        rw [Finmap.lookup_erase_eq_ite]
        by_cases hj : j = i
        · rw [hj, List.getElem?_set_self hlt]
          split_ifs with he
          · simp
          · constructor
            · intro hi
              obtain ⟨w, hw⟩ := (s.index_iff k' i).mp hi
              rw [hv] at hw
              simp only [Option.some.injEq, Prod.mk.injEq] at hw
              exact absurd hw.1.symm he
            · rintro ⟨w, hw⟩
              cases hw
        · rw [List.getElem?_set_ne (Ne.symm hj)]
          split_ifs with he
          · rw [he, ← s.index_iff k j, h]
            simp [Ne.symm hj]
          · exact s.index_iff k' j }

/-- `table[k]`; `none` when there is no such name. -/
def get (k : κ) : Option α :=
  (s.index.lookup k).bind fun i => (s.entries[i]?.bind id).map Prod.snd

/-- The items, slot by slot. -/
def items : List (κ × α) := s.entries.filterMap id

/-- `len(table)`. -/
def len : ℕ := s.index.keys.card

variable {s}

/-- **The slots determine the table.** -/
theorem ext {s s' : Slots κ α} (h : s.entries = s'.entries) : s = s' := by
  have hindex : s.index = s'.index := by
    refine Finmap.ext_lookup fun k => Option.ext fun i => ?_
    rw [s.index_iff, s'.index_iff, h]
  cases s
  cases s'
  cases h
  cases hindex
  rfl

/-! ## What is in a table -/

theorem get_eq_some {k : κ} {v : α} :
    s.get k = some v ↔ ∃ i : ℕ, s.entries[i]? = some (some (k, v)) := by
  unfold get
  constructor
  · intro h
    obtain ⟨i, hi, hv⟩ := Option.bind_eq_some_iff.mp h
    obtain ⟨w, hw⟩ := (s.index_iff k i).mp hi
    refine ⟨i, ?_⟩
    rw [hw] at hv ⊢
    cases hv
    rfl
  · rintro ⟨i, hi⟩
    rw [(s.index_iff k i).mpr ⟨v, hi⟩, Option.bind_some, hi]
    rfl

/-- **The items are the names with their values.** -/
theorem mem_items {k : κ} {v : α} : (k, v) ∈ s.items ↔ s.get k = some v := by
  rw [get_eq_some, items, List.mem_filterMap]
  constructor
  · rintro ⟨e, he, rfl⟩
    exact List.getElem?_of_mem he
  · rintro ⟨i, hi⟩
    exact ⟨_, List.mem_of_getElem? hi, rfl⟩

theorem mem_index {k : κ} : k ∈ s.index ↔ (s.get k).isSome = true := by
  constructor
  · intro h
    obtain ⟨i, hi⟩ := Finmap.mem_iff.mp h
    obtain ⟨v, hv⟩ := (s.index_iff k i).mp hi
    rw [get_eq_some.mpr ⟨i, hv⟩]
    rfl
  · intro h
    obtain ⟨v, hv⟩ := Option.isSome_iff_exists.mp h
    obtain ⟨i, hi⟩ := get_eq_some.mp hv
    exact Finmap.mem_of_lookup_eq_some ((s.index_iff k i).mpr ⟨v, hi⟩)

/-- **No name has two slots.** -/
theorem nodup_names (s : Slots κ α) : (s.items.map Prod.fst).Nodup := by
  have hpair : s.entries.Pairwise fun a b =>
      ∀ x ∈ a, ∀ y ∈ b, (x : κ × α).1 ≠ (y : κ × α).1 := by
    rw [List.pairwise_iff_getElem]
    intro i j hi hj hij x hx y hy he
    obtain ⟨k, v⟩ := x
    obtain ⟨k', w⟩ := y
    have hkk : k = k' := he
    subst hkk
    have h₁ := (s.index_iff k i).mpr ⟨v, List.getElem?_eq_some_iff.mpr ⟨hi, hx⟩⟩
    have h₂ := (s.index_iff k j).mpr ⟨w, List.getElem?_eq_some_iff.mpr ⟨hj, hy⟩⟩
    rw [h₁] at h₂
    exact absurd (Option.some.inj h₂) hij.ne
  rw [List.Nodup, List.pairwise_map, items, List.pairwise_filterMap]
  refine hpair.imp fun h x hx y hy => h x hx y hy

/-- **The index has one name for each item.** -/
theorem size_index (s : Slots κ α) : s.len = s.items.length := by
  have hkeys : s.index.keys = (s.items.map Prod.fst).toFinset := by
    ext k
    rw [Finmap.mem_keys, mem_index, Option.isSome_iff_exists, List.mem_toFinset, List.mem_map]
    constructor
    · rintro ⟨v, hv⟩
      exact ⟨(k, v), mem_items.mpr hv, rfl⟩
    · rintro ⟨⟨k', v⟩, hm, rfl⟩
      exact ⟨v, mem_items.mp hm⟩
  rw [len, hkeys, List.toFinset_card_of_nodup s.nodup_names, List.length_map]

/-! ## What the operations change -/

theorem entries_set (k : κ) (v : α) (j : ℕ) : (s.set k v).entries[j]? =
    if j = s.slotFor k then some (some (k, v)) else s.entries[j]? :=
  getElem?_putAt (s.slotFor_le k) _ j

/-- **What an assignment leaves to be found.** -/
theorem get_set (k k' : κ) (v : α) :
    (s.set k v).get k' = if k' = k then some v else s.get k' := by
  have hself : (s.set k v).get k = some v :=
    get_eq_some.mpr ⟨s.slotFor k, by rw [entries_set, if_pos rfl]⟩
  by_cases he : k' = k
  · rw [if_pos he, he, hself]
  · rw [if_neg he]
    refine Option.ext fun w => ?_
    rw [get_eq_some, get_eq_some]
    refine exists_congr fun i => ?_
    rw [entries_set]
    split_ifs with hi
    · simp only [Option.some.injEq, Prod.mk.injEq]
      constructor
      · rintro ⟨h, -⟩
        exact absurd h.symm he
      · intro h
        rw [hi] at h
        exact absurd (s.name_of_slotFor h) he
    · rfl

theorem del_eq_none {k : κ} : s.del k = none ↔ s.get k = none := by
  rw [← Option.not_isSome_iff_eq_none (o := s.get k), ← mem_index, ← Finmap.lookup_eq_none]
  unfold del
  split
  · next h => simp [h]
  · next i h => simp [h]

/-- **What a deletion leaves to be found.** -/
theorem get_del {s' : Slots κ α} {k : κ} (h : s.del k = some s') (k' : κ) :
    s'.get k' = if k' = k then none else s.get k' := by
  unfold del at h
  split at h
  · cases h
  · next i hi =>
    obtain ⟨v, hv⟩ := (s.index_iff k i).mp hi
    have hlt := (List.getElem?_eq_some_iff.mp hv).1
    cases h
    refine Option.ext fun w => ?_
    rw [get_eq_some]
    constructor
    · rintro ⟨j, hj⟩
      by_cases hij : j = i
      · rw [hij, List.getElem?_set_self hlt] at hj
        cases hj
      · rw [List.getElem?_set_ne (Ne.symm hij)] at hj
        have hne : k' ≠ k := by
          rintro rfl
          exact hij (Option.some.inj (((s.index_iff k' j).mpr ⟨w, hj⟩).symm.trans hi))
        rw [if_neg hne]
        exact get_eq_some.mpr ⟨j, hj⟩
    · intro hw
      split_ifs at hw with he
      obtain ⟨j, hj⟩ := get_eq_some.mp hw
      have hij : j ≠ i := by
        rintro rfl
        rw [hv] at hj
        simp only [Option.some.injEq, Prod.mk.injEq] at hj
        exact he hj.1.symm
      exact ⟨j, by rw [List.getElem?_set_ne (Ne.symm hij)]; exact hj⟩

/-- A deletion keeps the slots. -/
theorem length_entries_del {s' : Slots κ α} {k : κ} (h : s.del k = some s') :
    s'.entries.length = s.entries.length := by
  unfold del at h
  split at h
  · cases h
  · cases h
    exact List.length_set

/-- A deletion keeps the items of other names where they are. -/
theorem slot_del {s' : Slots κ α} {k k' : κ} {i : ℕ} (h : s.del k = some s') (hk : k' ≠ k)
    (hi : ∃ v, s.entries[i]? = some (some (k', v))) :
    ∃ v, s'.entries[i]? = some (some (k', v)) := by
  rw [← index_iff] at hi ⊢
  unfold del at h
  split at h
  · cases h
  · cases h
    rw [Finmap.lookup_erase_eq_ite, if_neg hk, hi]

/-- **A new name counts, a known one does not.** -/
theorem len_set (k : κ) (v : α) : (s.set k v).len = if k ∈ s.index then s.len else s.len + 1 := by
  unfold len set
  dsimp only
  split_ifs with hk
  · rfl
  · have hkeys : (s.index.insert k (s.slotFor k)).keys = insert k s.index.keys := by
      ext k'
      rw [Finmap.mem_keys, Finmap.mem_insert, Finset.mem_insert, Finmap.mem_keys]
    rw [hkeys, Finset.card_insert_of_notMem (fun h => hk (Finmap.mem_keys.mp h))]

theorem len_le_length (s : Slots κ α) : s.len ≤ s.entries.length := by
  rw [size_index]
  exact List.length_filterMap_le id s.entries

/-- **The table grows only when no slot is free.** -/
theorem length_entries_set (k : κ) (v : α) :
    (s.set k v).entries.length = max s.entries.length (s.set k v).len := by
  have hle := len_le_length (s.set k v)
  have hput : (s.set k v).entries.length =
      if s.slotFor k < s.entries.length then s.entries.length else s.entries.length + 1 := by
    change (putAt _ _ _).length = _
    unfold putAt
    split_ifs
    · rw [List.length_set]
    · rw [List.length_append, List.length_singleton]
  split_ifs at hput with hlt
  · omega
  · -- no slot of `k` and no free one: every slot holds an item
    have hk : k ∉ s.index := by
      intro hk
      obtain ⟨i, hi⟩ := Finmap.mem_iff.mp hk
      obtain ⟨w, hw⟩ := (s.index_iff k i).mp hi
      rw [slotFor, hi, Option.getD_some] at hlt
      exact hlt (List.getElem?_eq_some_iff.mp hw).1
    have hfree : firstFree s.entries = s.entries.length := by
      have := firstFree_le s.entries
      rw [slotFor, Finmap.lookup_eq_none.mpr hk, Option.getD_none] at hlt
      omega
    have hfull := length_filterMap_of_firstFree hfree
    rw [len_set, if_neg hk, size_index, items, hfull]
    omega

/-! ## Tables made of a list of pairs -/

/-- The pairs are assigned one after another. -/
def setAll (s : Slots κ α) (l : List (κ × α)) : Slots κ α :=
  l.foldl (fun s p => s.set p.1 p.2) s

def ofItems (l : List (κ × α)) : Slots κ α := setAll ∅ l

/-- A table holds the names that were assigned. -/
theorem mem_index_setAll (l : List (κ × α)) : ∀ (s : Slots κ α) (k : κ),
    k ∈ (s.setAll l).index ↔ k ∈ s.index ∨ k ∈ l.map Prod.fst := by
  induction l with
  | nil => simp [setAll]
  | cons p l ih =>
    intro s k
    have hset : k ∈ (s.set p.1 p.2).index ↔ k = p.1 ∨ k ∈ s.index := by
      rw [mem_index, get_set, mem_index]
      split_ifs with h <;> simp [h]
    rw [setAll, List.foldl_cons, ← setAll, ih, hset, List.map_cons, List.mem_cons]
    tauto

/-- A table without a free slot, to which new names are assigned. -/
theorem entries_setAll (l : List (κ × α)) : ∀ (s : Slots κ α) (m : List (κ × α)),
    s.entries = m.map some → ((m ++ l).map Prod.fst).Nodup →
    (s.setAll l).entries = (m ++ l).map some := by
  induction l with
  | nil =>
    intro s m hs _
    rw [List.append_nil]
    exact hs
  | cons p l ih =>
    intro s m hs hnd
    have hitems : s.items = m := by
      rw [items, hs, List.filterMap_map]
      exact List.filterMap_some
    have hk : p.1 ∉ s.index := by
      rw [mem_index, Bool.not_eq_true, Option.isSome_eq_false_iff, Option.isNone_iff_eq_none,
        Option.eq_none_iff_forall_ne_some]
      intro v hv
      have hm := mem_items.mpr hv
      rw [hitems] at hm
      rw [List.map_append, List.nodup_append] at hnd
      exact hnd.2.2 _ (List.mem_map_of_mem (f := Prod.fst) hm) p.1 (by simp) rfl
    have hfree : firstFree s.entries = s.entries.length := by
      rw [firstFree, List.findIdx_eq_length, hs]
      intro x hx
      obtain ⟨a, -, rfl⟩ := List.mem_map.mp hx
      rfl
    have hentries : (s.set p.1 p.2).entries = (m ++ [p]).map some := by
      change putAt _ _ _ = _
      rw [slotFor, Finmap.lookup_eq_none.mpr hk, Option.getD_none, hfree, putAt,
        if_neg (lt_irrefl _), hs, List.map_append]
      rfl
    have hrest := ih (s.set p.1 p.2) (m ++ [p]) hentries (by simpa using hnd)
    rw [List.append_assoc, List.singleton_append] at hrest
    exact hrest

/-- **The items of a list of pairs with names of their own are the pairs.** -/
theorem items_ofItems {l : List (κ × α)} (h : (l.map Prod.fst).Nodup) : (ofItems l).items = l := by
  rw [items, ofItems, entries_setAll l ∅ [] rfl (by simpa using h), List.nil_append,
    List.filterMap_map]
  exact List.filterMap_some

theorem len_ofItems (l : List (κ × α)) : (ofItems l).len = (l.map Prod.fst).dedup.length := by
  have hkeys : (ofItems l).index.keys = (l.map Prod.fst).toFinset := by
    ext k
    rw [Finmap.mem_keys, ofItems, mem_index_setAll, List.mem_toFinset]
    exact or_iff_right Finmap.notMem_empty
  rw [len, hkeys, List.card_toFinset]

theorem len_ofItems_le (l : List (κ × α)) : (ofItems l).len ≤ l.length := by
  rw [len_ofItems]
  exact (List.dedup_sublist _).length_le.trans_eq (List.length_map _)

/-- **What is assigned hides what was in the table.** -/
theorem get_setAll (l : List (κ × α)) (s : Slots κ α) (k : κ) :
    (s.setAll l).get k = ((ofItems l).get k).or (s.get k) := by
  induction l using List.reverseRecOn with
  | nil => rfl
  | append_singleton l p ih =>
    have hlast : ∀ s : Slots κ α, s.setAll (l ++ [p]) = (s.setAll l).set p.1 p.2 := fun s => by
      rw [setAll, List.foldl_append]
      rfl
    rw [ofItems, hlast, hlast, get_set, get_set, ih]
    split_ifs with hk
    · rfl
    · rfl

/-- The items of a table were in it before or were assigned. -/
theorem mem_items_setAll {l : List (κ × α)} {e : κ × α} : ∀ {s : Slots κ α},
    e ∈ (s.setAll l).items → e ∈ s.items ∨ e ∈ l := by
  induction l with
  | nil => exact fun h => .inl h
  | cons p l ih =>
    intro s h
    obtain ⟨k, v⟩ := e
    rcases ih (s := s.set p.1 p.2) h with h | h
    · rw [mem_items, get_set] at h
      split_ifs at h with hk
      · cases h
        exact .inr (hk ▸ List.mem_cons_self)
      · exact .inl (mem_items.mpr h)
    · exact .inr (List.mem_cons_of_mem p h)

/-- **A table made of a list of pairs is made of its items.** -/
theorem ofItems_items_ofItems (l : List (κ × α)) : ofItems (ofItems l).items = ofItems l := by
  have hfull : ∀ s : Slots κ α, none ∉ s.entries → s.entries = s.items.map some := by
    intro s
    unfold items
    induction s.entries with
    | nil => exact fun _ => rfl
    | cons e es ih =>
      intro hs
      cases e with
      | none => exact absurd List.mem_cons_self hs
      | some a => exact congrArg (some a :: ·) (ih fun h => hs (List.mem_cons_of_mem _ h))
  have hset : ∀ (l : List (κ × α)) (s : Slots κ α), none ∉ s.entries →
      none ∉ (s.setAll l).entries := by
    intro l
    induction l with
    | nil => exact fun s h => h
    | cons p l ih =>
      intro s h
      refine ih _ fun hmem => ?_
      obtain ⟨j, hj⟩ := List.getElem?_of_mem hmem
      rw [entries_set] at hj
      split_ifs at hj with hi
      · cases hj
      · exact h (List.mem_of_getElem? hj)
  refine ext ?_
  have hnd : (([] ++ (ofItems l).items).map Prod.fst).Nodup := nodup_names _
  rw [hfull (ofItems l) (hset l ∅ List.not_mem_nil)]
  exact entries_setAll _ ∅ [] rfl hnd

/-- **A list of pairs is known from its table, when the table has as many items.** -/
theorem eq_of_ofItems_eq {l l' : List (κ × α)} (hl' : (l'.map Prod.fst).Nodup)
    (hlen : l.length = l'.length) (h : ofItems l = ofItems l') : l = l' := by
  have hnd : (l.map Prod.fst).Nodup := by
    have hn : (l.map Prod.fst).dedup.length = (l.map Prod.fst).length := by
      rw [← len_ofItems, h, len_ofItems, List.dedup_eq_self.mpr hl', List.length_map,
        List.length_map, hlen]
    rw [← List.dedup_eq_self]
    exact (List.dedup_sublist _).eq_of_length hn
  rw [← items_ofItems hnd, h, items_ofItems hl']

end Slots
