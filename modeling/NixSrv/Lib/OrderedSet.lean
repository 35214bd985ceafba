import Mathlib.Data.List.Sort

/-!
# Ordered sets

A finite set kept as the sorted list of its elements, in which a program visits them.

* `OrderedSet`, `insert`, `erase`: the list is sorted and free of duplicates by construction;
* `mem_insert`, `mem_erase`: the elements afterwards;
* **`sorted_lt`**: the list is strictly increasing;
* `collect`, **`mem_collect`**: the set of the images of a list.
-/

/-- A finite set with its elements in order. -/
structure OrderedSet (α : Type*) [LinearOrder α] where
  toList : List α
  sorted : toList.Pairwise (· ≤ ·)
  nodup : toList.Nodup

namespace OrderedSet

variable {α β : Type*} [LinearOrder α]

instance : EmptyCollection (OrderedSet α) := ⟨⟨[], .nil, .nil⟩⟩

instance : Membership α (OrderedSet α) := ⟨fun s a => a ∈ s.toList⟩

instance (a : α) (s : OrderedSet α) : Decidable (a ∈ s) :=
  inferInstanceAs (Decidable (a ∈ s.toList))

theorem toList_injective : Function.Injective (toList : OrderedSet α → List α) := by
  rintro ⟨l, _, _⟩ ⟨l', _, _⟩ rfl
  rfl

instance : DecidableEq (OrderedSet α) := fun s t =>
  decidable_of_iff (s.toList = t.toList) toList_injective.eq_iff

@[simp] theorem notMem_empty (a : α) : a ∉ (∅ : OrderedSet α) := List.not_mem_nil

theorem mem_toList {a : α} {s : OrderedSet α} : a ∈ s.toList ↔ a ∈ s := Iff.rfl

/-- **The elements are in strictly increasing order.** -/
theorem sorted_lt (s : OrderedSet α) : s.toList.Pairwise (· < ·) :=
  (s.sorted.and s.nodup).imp fun h => lt_of_le_of_ne h.1 h.2

/-- Insert an element unless it is there already. -/
def insert (a : α) (s : OrderedSet α) : OrderedSet α :=
  if h : a ∈ s then s
  else
    { toList := s.toList.orderedInsert (· ≤ ·) a
      sorted := s.sorted.orderedInsert a _
      nodup := (List.perm_orderedInsert _ a s.toList).nodup_iff.mpr
        (List.nodup_cons.mpr ⟨h, s.nodup⟩) }

def erase (a : α) (s : OrderedSet α) : OrderedSet α where
  toList := s.toList.erase a
  sorted := s.sorted.sublist List.erase_sublist
  nodup := s.nodup.erase a

@[simp] theorem mem_insert {a b : α} {s : OrderedSet α} : b ∈ s.insert a ↔ b = a ∨ b ∈ s := by
  unfold insert
  split_ifs with h
  · exact ⟨Or.inr, fun h' => h'.elim (fun e => e ▸ h) id⟩
  · exact List.mem_orderedInsert (· ≤ ·)

@[simp] theorem mem_erase {a b : α} {s : OrderedSet α} : b ∈ s.erase a ↔ b ≠ a ∧ b ∈ s :=
  s.nodup.mem_erase_iff

/-- The set of the images of a list. -/
def collect (f : β → α) (l : List β) : OrderedSet α := l.foldl (fun s b => s.insert (f b)) ∅

theorem mem_foldl_insert {f : β → α} {l : List β} {s : OrderedSet α} {a : α} :
    a ∈ l.foldl (fun s b => s.insert (f b)) s ↔ a ∈ s ∨ ∃ b ∈ l, f b = a := by
  induction l generalizing s with
  | nil => simp
  | cons b l ih =>
    rw [List.foldl_cons, ih, mem_insert]
    simp only [List.mem_cons, exists_eq_or_imp]
    constructor
    · rintro ((rfl | h) | h)
      · exact Or.inr (Or.inl rfl)
      · exact Or.inl h
      · exact Or.inr (Or.inr h)
    · rintro (h | rfl | h)
      · exact Or.inl (Or.inr h)
      · exact Or.inl (Or.inl rfl)
      · exact Or.inr h

/-- **The elements of the set of the images of a list.** -/
@[simp] theorem mem_collect {f : β → α} {l : List β} {a : α} :
    a ∈ collect f l ↔ ∃ b ∈ l, f b = a := by
  rw [collect, mem_foldl_insert]
  simp

end OrderedSet
