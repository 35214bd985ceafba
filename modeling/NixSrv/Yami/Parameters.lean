import NixSrv.Lib.Slots
import NixSrv.Yami.Buffer

/-!
# Collections of message parameters

The class `Parameters` over nested collections of a type `P`: named values in slots, where a removed
entry leaves a hole that the next new entry fills.

* `ValueOver`, `Obj`, `validateValue`: the values of a collection, what a caller passes, and the
  check;
* `Collection`, `setItem`, `getItem`, `delItem`: collections and their operations;
* `EntryIterator`, `visited`, **`visited_eq`**: an iteration over a collection visits each used
  slot;
* `Call`, `run`, `Dictionary`, **`run_refines`**: collections are dictionaries in every run;
* `peak`, **`layout_run`**: how many slots there are, and which one an entry has.
-/

namespace NixSrv.Yami

/-! ## Values -/

/-- The accepted values; an array has a first element. -/
inductive ValueOver (P : Type) where
  | basic (t : Basic) (v : t.Carrier)
  | array (t : Basic) (v : t.Carrier) (vs : List t.Carrier)
  | parameters (p : P)
  | parametersArray (p : P) (ps : List P)

/-- A Python object that is no sequence; of an unaccepted one the name of its type is known. -/
inductive Elem (P : Type) where
  | basic (t : Basic) (v : t.Carrier)
  | parameters (p : P)
  | other (type : String)

/-- A Python object that is assigned. -/
inductive Obj (P : Type) where
  | elem (e : Elem P)
  | sequence (es : List (Elem P))

section Validate

variable {P : Type}

def unsupported (type : String) : Error :=
  .typeError ("The type \"" ++ type ++ "' is not supported.")

def notHomogenous : Error := .typeError "Sequences must be homogenous."

/-- The value of an element of type `t`. -/
def Elem.toBasic (t : Basic) : Elem P → Option t.Carrier
  | .basic t' v => if h : t' = t then some (h ▸ v) else none
  | .parameters _ | .other _ => none

def Elem.toParameters : Elem P → Option P
  | .parameters p => some p
  | .basic _ _ | .other _ => none

/-- The copy of a sequence, whose elements have the type that `same` reads. -/
def deepCopy {α : Type} (same : Elem P → Option α) : List (Elem P) → Except Error (List α)
  | [] => .ok []
  | e :: es =>
    match same e with
    | none => .error notHomogenous
    | some v => (deepCopy same es).map (v :: ·)

/-- `__validate_value` -/
def validateValue : Obj P → Except Error (ValueOver P)
  | .elem (.basic t v) => .ok (.basic t v)
  | .elem (.parameters p) => .ok (.parameters p)
  | .elem (.other type) => .error (unsupported type)
  | .sequence [] => .error (.typeError "Empty sequences are not supported.")
  | .sequence (.basic t v :: es) => (deepCopy (Elem.toBasic t) es).map (.array t v)
  | .sequence (.parameters p :: es) => (deepCopy Elem.toParameters es).map (.parametersArray p)
  | .sequence (.other type :: _) => .error (unsupported type)

/-- The object that a value is made of. -/
def ValueOver.toObj : ValueOver P → Obj P
  | .basic t v => .elem (.basic t v)
  | .array t v vs => .sequence ((v :: vs).map (.basic t))
  | .parameters p => .elem (.parameters p)
  | .parametersArray p ps => .sequence ((p :: ps).map .parameters)

theorem toBasic_eq_some {t : Basic} {e : Elem P} {v : t.Carrier} :
    e.toBasic t = some v ↔ e = .basic t v := by
  cases e with
  | basic t' w =>
    by_cases h : t' = t
    · subst h
      rw [Elem.toBasic, dif_pos rfl]
      simp
    · rw [Elem.toBasic, dif_neg h]
      simp [h]
  | parameters p => simp [Elem.toBasic]
  | other type => simp [Elem.toBasic]

theorem toParameters_eq_some {e : Elem P} {p : P} :
    e.toParameters = some p ↔ e = .parameters p := by
  cases e <;> simp [Elem.toParameters]

theorem deepCopy_eq_ok {α : Type} {same : Elem P → Option α} {mk : α → Elem P}
    (hsame : ∀ e v, same e = some v ↔ e = mk v) {es : List (Elem P)} {vs : List α} :
    deepCopy same es = .ok vs ↔ es = vs.map mk := by
  induction es generalizing vs with
  | nil => cases vs <;> simp [deepCopy]
  | cons e es ih =>
    rw [deepCopy]
    cases he : same e with
    | none =>
      have hne : ∀ v, e ≠ mk v := fun v h => by simp [(hsame e v).mpr h] at he
      cases vs with
      | nil => simp
      | cons w ws => simp [hne w]
    | some v =>
      have hv := (hsame e v).mp he
      have hinj : ∀ w, mk v = mk w ↔ v = w := fun w => by
        rw [← hv, ← hsame, he, Option.some.injEq]
      cases hes : deepCopy same es with
      | error err =>
        cases vs with
        | nil => simp [Except.map]
        | cons w ws => simp [Except.map, ← ih, hes]
      | ok us =>
        cases vs with
        | nil => simp [Except.map]
        | cons w ws => simp [Except.map, ← ih, hes, hv, hinj]

/-- **The accepted objects are those that values are made of.** -/
theorem validateValue_eq_ok {o : Obj P} {v : ValueOver P} :
    validateValue o = .ok v ↔ o = v.toObj := by
  have hcopy {α : Type} {same : Elem P → Option α} {mk : α → Elem P}
      (hsame : ∀ e v, same e = some v ↔ e = mk v) {es : List (Elem P)} {f : List α → ValueOver P} :
      (deepCopy same es).map f = .ok v ↔ ∃ vs, es = vs.map mk ∧ f vs = v := by
    simp only [← deepCopy_eq_ok hsame]
    cases deepCopy same es with
    | error err => simp [Except.map]
    | ok us => simp [Except.map]
  cases o with
  | elem e => cases e <;> cases v <;> simp [validateValue, ValueOver.toObj]
  | sequence es =>
    cases es with
    | nil => cases v <;> simp [validateValue, ValueOver.toObj]
    | cons e es =>
      cases e with
      | other type => cases v <;> simp [validateValue, ValueOver.toObj]
      | basic t w =>
        rw [validateValue, hcopy fun e v => toBasic_eq_some]
        cases v with
        | array t' w' ws =>
          simp only [ValueOver.toObj, ValueOver.array.injEq, Obj.sequence.injEq, List.map_cons,
            List.cons.injEq, Elem.basic.injEq]
          constructor
          · rintro ⟨vs, rfl, rfl, hw, hws⟩
            cases hw
            cases hws
            exact ⟨⟨rfl, HEq.rfl⟩, rfl⟩
          · rintro ⟨⟨rfl, hw⟩, rfl⟩
            cases hw
            exact ⟨ws, rfl, rfl, HEq.rfl, HEq.rfl⟩
        | basic _ _ | parameters _ | parametersArray _ _ => simp [ValueOver.toObj]
      | parameters p =>
        rw [validateValue, hcopy fun e v => toParameters_eq_some]
        cases v with
        | parametersArray q ps =>
          simp only [ValueOver.toObj, ValueOver.parametersArray.injEq, Obj.sequence.injEq,
            List.map_cons, List.cons.injEq, Elem.parameters.injEq]
          constructor
          · rintro ⟨vs, rfl, rfl, rfl⟩
            exact ⟨rfl, rfl⟩
          · rintro ⟨rfl, rfl⟩
            exact ⟨ps, rfl, rfl, rfl⟩
        | basic _ _ | parameters _ | array _ _ _ => simp [ValueOver.toObj]

end Validate

/-! ## Operations -/

/-- The entries of a collection and its index of entries. -/
abbrev Collection (P : Type) := Slots String (ValueOver P)

section Operations

variable {P : Type}

def noEntry (name : String) : Error :=
  .keyError ("Entry or object named '" ++ name ++ "' does not exist.")

/-- `p[name] = value` -/
def setItem (p : Collection P) (name : String) (value : Obj P) : Except Error (Collection P) :=
  (validateValue value).map (p.set name)

/-- `p[name]` -/
def getItem (p : Collection P) (name : String) : Except Error (ValueOver P) :=
  (p.get name).elim (.error (noEntry name)) .ok

/-- `del p[name]` -/
def delItem (p : Collection P) (name : String) : Except Error (Collection P) :=
  (p.del name).elim (.error (noEntry name)) .ok

/-- An assignment of what a value is made of. -/
theorem setItem_eq_ok {p p' : Collection P} {name : String} {o : Obj P} :
    setItem p name o = .ok p' ↔ ∃ v : ValueOver P, o = v.toObj ∧ p' = p.set name v := by
  simp only [← validateValue_eq_ok, setItem]
  cases validateValue o with
  | error e => simp [Except.map]
  | ok v => simp [Except.map, eq_comm]

end Operations

/-! ## Iteration -/

/-- `Parameters.__EntryIterator`; the mode only says which part of an entry is returned. -/
structure EntryIterator (α : Type) where
  entries : List (Option α)
  nextIndex : ℕ

namespace EntryIterator

variable {α : Type}

/-- `__skip_unused`: the first used slot from `i` on, or the end. -/
def skipUnused (entries : List (Option α)) (i : ℕ) : ℕ :=
  i + (entries.drop i).findIdx Option.isSome

def init (entries : List (Option α)) : EntryIterator α where
  entries := entries
  nextIndex := skipUnused entries 0

/-- `__next__`; `none` for `StopIteration`. -/
def next (it : EntryIterator α) : Option (Option α × EntryIterator α) :=
  it.entries[it.nextIndex]?.map fun entry =>
    (entry, { it with nextIndex := skipUnused it.entries (it.nextIndex + 1) })

/-- What `n` rounds of a loop over the iterator visit. -/
def collect : ℕ → EntryIterator α → List (Option α)
  | 0, _ => []
  | n + 1, it =>
    match it.next with
    | none => []
    | some (entry, it) => entry :: collect n it

theorem filter_drop_skipUnused (entries : List (Option α)) (i : ℕ) :
    (entries.drop (skipUnused entries i)).filter Option.isSome =
      (entries.drop i).filter Option.isSome := by
  have hskip : ∀ l : List (Option α),
      (l.drop (l.findIdx Option.isSome)).filter Option.isSome = l.filter Option.isSome := by
    intro l
    induction l with
    | nil => rfl
    | cons e l ih =>
      rw [List.findIdx_cons]
      cases e with
      | none => exact ih
      | some a => rfl
  rw [skipUnused, ← List.drop_drop, hskip]

/-- The iterator stands at a used slot or at the end. -/
theorem isSome_getElem?_skipUnused {entries : List (Option α)} {i : ℕ} {e : Option α}
    (h : entries[skipUnused entries i]? = some e) : e.isSome = true := by
  rw [skipUnused, ← List.getElem?_drop] at h
  obtain ⟨hlt, he⟩ := List.getElem?_eq_some_iff.mp h
  rw [← he]
  exact List.findIdx_getElem

theorem collect_skipUnused (entries : List (Option α)) : ∀ (n i : ℕ), entries.length ≤ i + n →
    collect n ⟨entries, skipUnused entries i⟩ = (entries.drop i).filter Option.isSome := by
  intro n
  induction n with
  | zero =>
    intro i h
    rw [List.drop_eq_nil_of_le (by omega)]
    rfl
  | succ n ih =>
    intro i h
    rw [collect, next, ← filter_drop_skipUnused entries i]
    dsimp only
    cases he : entries[skipUnused entries i]? with
    | none =>
      rw [List.drop_eq_nil_of_le (List.getElem?_eq_none_iff.mp he)]
      rfl
    | some e =>
      have hsome := isSome_getElem?_skipUnused he
      obtain ⟨hlt, hget⟩ := List.getElem?_eq_some_iff.mp he
      rw [List.drop_eq_getElem_cons hlt, hget, List.filter_cons_of_pos hsome]
      simp only [Option.map_some]
      rw [ih _ (by have : i ≤ skipUnused entries i := Nat.le_add_right _ _; omega)]

end EntryIterator

section Run

variable {P : Type}

/-- The entries that a loop over `p.items()` visits. -/
def visited (p : Collection P) : List (Option (String × ValueOver P)) :=
  (EntryIterator.init p.entries).collect p.entries.length

/-- **A loop over a collection visits its used slots in order.** -/
theorem visited_eq (p : Collection P) : visited p = p.items.map some := by
  have hsome : ∀ l : List (Option (String × ValueOver P)),
      l.filter Option.isSome = (l.filterMap id).map some := by
    intro l
    induction l with
    | nil => rfl
    | cons e l ih =>
      cases e with
      | none => exact ih
      | some a => exact congrArg (some a :: ·) ih
  have h := EntryIterator.collect_skipUnused p.entries p.entries.length 0 (by omega)
  rw [List.drop_zero, hsome] at h
  exact h

/-! ## Runs -/

inductive Call (P : Type) where
  | setItem (name : String) (value : Obj P)
  | getItem (name : String)
  | delItem (name : String)

/-- What a call returns or raises. -/
abbrev Result (P : Type) := Except Error (Option (ValueOver P))

/-- A call that raises leaves the collection as it is. -/
def exec (p : Collection P) : Call P → Collection P × Result P
  | .setItem name value =>
    match setItem p name value with
    | .ok p' => (p', .ok none)
    | .error e => (p, .error e)
  | .getItem name => (p, (getItem p name).map some)
  | .delItem name =>
    match delItem p name with
    | .ok p' => (p', .ok none)
    | .error e => (p, .error e)

/-- What a collection is for: a value for each name. -/
abbrev Dictionary (P : Type) := String → Option (ValueOver P)

def Dictionary.exec (d : Dictionary P) : Call P → Dictionary P × Result P
  | .setItem name value =>
    match validateValue value with
    | .ok v => (Function.update d name (some v), .ok none)
    | .error e => (d, .error e)
  | .getItem name => (d, (d name).elim (.error (noEntry name)) fun v => .ok (some v))
  | .delItem name =>
    (d name).elim (d, .error (noEntry name)) fun _ => (Function.update d name none, .ok none)

/-- The calls one after another. -/
def run {σ : Type} (exec : σ → Call P → σ × Result P) : σ → List (Call P) → σ × List (Result P)
  | s, [] => (s, [])
  | s, c :: cs =>
    let (s, r) := exec s c
    let (s, rs) := run exec s cs
    (s, r :: rs)

theorem exec_refines (p : Collection P) (c : Call P) :
    (exec p c).2 = (Dictionary.exec p.get c).2 ∧
      (exec p c).1.get = (Dictionary.exec p.get c).1 := by
  cases c with
  | setItem name value =>
    simp only [exec, setItem, Dictionary.exec]
    cases validateValue value with
    | error e => exact ⟨rfl, rfl⟩
    | ok v =>
      refine ⟨rfl, ?_⟩
      funext name'
      change (p.set name v).get name' = Function.update p.get name (some v) name'
      rw [Slots.get_set, Function.update_apply]
  | getItem name =>
    simp only [exec, getItem, Dictionary.exec]
    cases p.get name <;> exact ⟨rfl, trivial⟩
  | delItem name =>
    simp only [exec, delItem, Dictionary.exec]
    cases hdel : p.del name with
    | none =>
      rw [Slots.del_eq_none.mp hdel]
      exact ⟨rfl, rfl⟩
    | some p' =>
      obtain ⟨v, hv⟩ := Option.ne_none_iff_exists'.mp
        (mt Slots.del_eq_none.mpr (by rw [hdel]; exact Option.some_ne_none p'))
      rw [hv]
      refine ⟨rfl, ?_⟩
      funext name'
      change p'.get name' = Function.update p.get name none name'
      rw [Slots.get_del hdel, Function.update_apply]

theorem run_get (cs : List (Call P)) : ∀ p : Collection P,
    (run exec p cs).2 = (run Dictionary.exec p.get cs).2 ∧
      (run exec p cs).1.get = (run Dictionary.exec p.get cs).1 := by
  induction cs with
  | nil => exact fun p => ⟨rfl, rfl⟩
  | cons c cs ih =>
    intro p
    obtain ⟨hr, hget⟩ := exec_refines p c
    obtain ⟨hrs, hrun⟩ := ih (exec p c).1
    rw [hget] at hrs hrun
    exact ⟨congrArg₂ List.cons hr hrs, hrun⟩

/-- **In every run a collection is a dictionary**: each call returns or raises what it would of a
dictionary, and the loop over the collection visits each name of the dictionary once, with its
value. -/
theorem run_refines (cs : List (Call P)) :
    let p := run exec ∅ cs
    let d := run Dictionary.exec (fun _ => none) cs
    p.2 = d.2 ∧ p.1.get = d.1 ∧ p.1.len = (visited p.1).length ∧
      ∃ l : List (String × ValueOver P), visited p.1 = l.map some ∧ (l.map Prod.fst).Nodup ∧
        ∀ name v, (name, v) ∈ l ↔ d.1 name = some v := by
  have hempty : (∅ : Collection P).get = fun _ => none := by
    funext name
    rfl
  obtain ⟨hr, hget⟩ := run_get cs (∅ : Collection P)
  rw [hempty] at hr hget
  refine ⟨hr, hget, ?_, _, visited_eq _, Slots.nodup_names _, fun name v => ?_⟩
  · rw [visited_eq, List.length_map, Slots.size_index]
  · rw [Slots.mem_items, hget]

/-- The most entries that a collection has had. -/
def peak : Collection P → List (Call P) → ℕ
  | p, [] => p.len
  | p, c :: cs => max p.len (peak (exec p c).1 cs)

theorem length_entries_exec (p : Collection P) (c : Call P) :
    (exec p c).1.entries.length = max p.entries.length (exec p c).1.len := by
  have hle := Slots.len_le_length p
  cases c with
  | setItem name value =>
    simp only [exec, setItem]
    cases validateValue value with
    | error e => exact (Nat.max_eq_left hle).symm
    | ok v => exact Slots.length_entries_set name v
  | getItem name => exact (Nat.max_eq_left hle).symm
  | delItem name =>
    simp only [exec, delItem]
    cases hdel : p.del name with
    | none => exact (Nat.max_eq_left hle).symm
    | some p' =>
      have hlen := Slots.length_entries_del hdel
      have hle' := Slots.len_le_length p'
      change p'.entries.length = max p.entries.length p'.len
      omega

theorem length_entries_run (cs : List (Call P)) : ∀ p : Collection P,
    (run exec p cs).1.entries.length = max p.entries.length (peak p cs) := by
  induction cs with
  | nil =>
    intro p
    exact (Nat.max_eq_left (Slots.len_le_length p)).symm
  | cons c cs ih =>
    intro p
    have hle := Slots.len_le_length p
    have hpeak : (exec p c).1.len ≤ peak (exec p c).1 cs := by
      cases cs with
      | nil => exact le_rfl
      | cons c' cs => exact le_max_left _ _
    change (run exec (exec p c).1 cs).1.entries.length = max _ (max _ (peak (exec p c).1 cs))
    rw [ih, length_entries_exec]
    omega

theorem slot_exec {p : Collection P} {c : Call P} {name : String} {i : ℕ}
    (h : ∃ v, p.entries[i]? = some (some (name, v))) (hc : c ≠ .delItem name) :
    ∃ v, (exec p c).1.entries[i]? = some (some (name, v)) := by
  cases c with
  | setItem name' value =>
    simp only [exec, setItem]
    cases validateValue value with
    | error e => exact h
    | ok v =>
      change ∃ w, (p.set name' v).entries[i]? = some (some (name, w))
      rw [Slots.entries_set]
      split_ifs with hi
      · obtain ⟨w, hw⟩ := h
        rw [hi] at hw
        exact ⟨v, by rw [p.name_of_slotFor hw]⟩
      · exact h
  | getItem name' => exact h
  | delItem name' =>
    have hne : name ≠ name' := fun he => hc (by rw [he])
    simp only [exec, delItem]
    cases hdel : p.del name' with
    | none => exact h
    | some p' => exact Slots.slot_del hdel hne h

/-- An entry that is not removed keeps its slot. -/
theorem slot_run {cs : List (Call P)} {name : String} {i : ℕ} (hcs : Call.delItem name ∉ cs) :
    ∀ p : Collection P, (∃ v, p.entries[i]? = some (some (name, v))) →
      ∃ v, (run exec p cs).1.entries[i]? = some (some (name, v)) := by
  induction cs with
  | nil => exact fun p h => h
  | cons c cs ih =>
    intro p h
    rw [List.mem_cons, not_or] at hcs
    exact ih hcs.2 (exec p c).1 (slot_exec h (Ne.symm hcs.1))

theorem run_append {σ : Type} (exec : σ → Call P → σ × Result P) (cs₁ cs₂ : List (Call P)) :
    ∀ s : σ, (run exec s (cs₁ ++ cs₂)).1 = (run exec (run exec s cs₁).1 cs₂).1 := by
  induction cs₁ with
  | nil => exact fun s => rfl
  | cons c cs₁ ih => exact fun s => ih (exec s c).1

/-- **The layout of a collection in every run**: there are as many slots as the collection has ever
had entries at once, a new entry takes the first hole, and an entry keeps its slot until it is
removed. -/
theorem layout_run (cs : List (Call P)) :
    let p := (run exec ∅ cs).1
    p.entries.length = peak (∅ : Collection P) cs ∧
      (∀ name (v : ValueOver P), p.get name = none →
        (exec p (.setItem name v.toObj)).1.entries = putAt p.entries (firstFree p.entries)
          (some (name, v))) ∧
      ∀ (name : String) (v : ValueOver P) (i : ℕ) (cs' : List (Call P)),
        p.entries[i]? = some (some (name, v)) → Call.delItem name ∉ cs' →
        ∃ w, (run exec ∅ (cs ++ cs')).1.entries[i]? = some (some (name, w)) := by
  refine ⟨?_, fun name v hnew => ?_, fun name v i cs' hv hcs' => ?_⟩
  · rw [length_entries_run]
    exact Nat.zero_max _
  · have hset : setItem (run exec ∅ cs).1 name v.toObj = .ok ((run exec ∅ cs).1.set name v) :=
      setItem_eq_ok.mpr ⟨v, rfl, rfl⟩
    have hslot : (run exec ∅ cs).1.slotFor name = firstFree (run exec ∅ cs).1.entries := by
      have hnot : name ∉ (run exec ∅ cs).1.index := by
        rw [Slots.mem_index, hnew]
        exact Bool.false_ne_true
      rw [Slots.slotFor, Finmap.lookup_eq_none.mpr hnot, Option.getD_none]
    rw [exec, hset, ← hslot]
    rfl
  · rw [run_append]
    exact slot_run hcs' _ ⟨v, hv⟩

end Run

end NixSrv.Yami
