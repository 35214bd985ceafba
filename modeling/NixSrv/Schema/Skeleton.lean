import NixSrv.Schema.Model
import NixSrv.Lib.Acyclic

/-!
# Skeletons

What a schema is to give is said in terms of the calls that built it: what was put into which field,
and under which names the fields were stored.

* `Doc`, `denote`: documents whose objects are maps, and the document that a value denotes;
* `Field.Accepts`, `Field.byContent`: fields that something can be added to;
* `addedTo`, `Within`, `stores`, `lastStored`, `Fits`: the calls as what they put where;
* `skeleton`, **`skeleton_eq`**: the document of a field, from those of the fields within it.
-/

namespace NixSrv.Schema

open Json

/-! ## Documents -/

/-- A document as it is decoded, where the members of an object have no order. -/
inductive Doc where
  | null
  | int (n : ℤ)
  | real (q : ℚ)
  | string (s : String)
  | bool (b : Bool)
  | array (xs : List Doc)
  | object (members : String → Option Doc)

mutual

/-- The document that is decoded from a value. -/
def denote : Value → Doc
  | .null => .null
  | .int n => .int n
  | .real q => .real q
  | .string s => .string s
  | .bool b => .bool b
  | .array xs => .array (denoteAll xs)
  | .object ms => .object (denoteMembers ms)

def denoteAll : List Value → List Doc
  | [] => []
  | v :: vs => denote v :: denoteAll vs

def denoteMembers : List (String × Value) → String → Option Doc
  | [], _ => none
  | (k', v) :: ms, k => if k = k' then some (denote v) else denoteMembers ms k

end

theorem denoteAll_eq_map (vs : List Value) : denoteAll vs = vs.map denote := by
  induction vs with
  | nil => rfl
  | cons v vs ih => rw [denoteAll, ih, List.map_cons]

theorem denoteMembers_eq (ms : List (String × Value)) (k : String) :
    denoteMembers ms k = (ms.lookup k).map denote := by
  induction ms with
  | nil => rfl
  | cons m ms ih =>
    obtain ⟨a, v⟩ := m
    rw [denoteMembers, ih, Dict.lookup_cons]
    split_ifs <;> rfl

/-! ## Fields that something can be added to -/

namespace Field

/-- Something can be added to the field: it is an `Array` with a list or an `Object` with a
dictionary. -/
def Accepts (f : Field) : Prop :=
  match f.type with
  | .array => f.initial.isArray = true
  | .object => f.initial.isObject = true
  | _ => False

instance (f : Field) : Decidable f.Accepts := by
  unfold Accepts; split <;> infer_instance

/-- A choice by what can be added to a field: elements to a list, members to a dictionary, or
nothing. -/
def byContent {α : Type} (f : Field) (list : List Value → α) (dict : List (String × Value) → α)
    (other : Value → α) : α :=
  match f.type, f.initial with
  | .array, .array xs => list xs
  | .object, .object ms => dict ms
  | _, v => other v

/-- The three kinds of fields. -/
theorem cases (f : Field) :
    (f.type = .array ∧ ∃ xs, f.initial = .array xs) ∨
    (f.type = .object ∧ ∃ ms, f.initial = .object ms) ∨ ¬ f.Accepts := by
  unfold Accepts
  cases ht : f.type with
  | array =>
    cases hi : f.initial with
    | array xs => exact Or.inl ⟨rfl, xs, rfl⟩
    | null | int | real | string | bool | object => exact Or.inr (Or.inr Bool.false_ne_true)
  | object =>
    cases hi : f.initial with
    | object ms => exact Or.inr (Or.inl ⟨rfl, ms, rfl⟩)
    | null | int | real | string | bool | array => exact Or.inr (Or.inr Bool.false_ne_true)
  | int | double | bool | null | string => exact Or.inr (Or.inr not_false)

section Choice

variable {α : Type} {f : Field} {list : List Value → α} {dict : List (String × Value) → α}
  {other : Value → α}

theorem byContent_of_array (ht : f.type = .array) {xs : List Value} (hi : f.initial = .array xs) :
    f.byContent list dict other = list xs := by
  rw [byContent, ht, hi]

theorem byContent_of_object (ht : f.type = .object) {ms : List (String × Value)}
    (hi : f.initial = .object ms) : f.byContent list dict other = dict ms := by
  rw [byContent, ht, hi]

theorem byContent_of_not_accepts (hf : ¬ f.Accepts) :
    f.byContent list dict other = other f.initial := by
  unfold byContent
  unfold Accepts at hf
  split
  · next ht hi =>
    rw [ht, hi] at hf
    exact absurd rfl hf
  · next ht hi =>
    rw [ht, hi] at hf
    exact absurd rfl hf
  · rfl

end Choice

end Field

/-! ## What the calls put where -/

variable {n : ℕ} (fields : Fin n → Field)

/-- The fields that a call puts into another one. -/
def Call.adds : Call n → List (Fin n × Fin n)
  | .addField c f => [(c, f)]
  | .append c fs => fs.map fun f => (c, f)
  | .addToSchema _ | .setContent _ => []

/-- The fields that a call stores in the schema, with their names. -/
def Call.stores : Call n → List (String × Fin n)
  | .addToSchema f => [((fields f).ident, f)]
  | .setContent f => [("content", f)]
  | .addField _ _ | .append _ _ => []

/-- The fields put into `c`, first one first. -/
def addedIn (adds : List (Fin n × Fin n)) (c : Fin n) : List (Fin n) :=
  (adds.filter fun p => p.1 = c).map Prod.snd

abbrev addedTo (calls : List (Call n)) (c : Fin n) : List (Fin n) :=
  addedIn (calls.flatMap Call.adds) c

/-- Fields under their own names. -/
def named (fs : List (Fin n)) : List (String × Fin n) := fs.map fun f => ((fields f).ident, f)

/-- Field `f` has been put into `c`. -/
def Within (calls : List (Call n)) (f c : Fin n) : Prop := f ∈ addedTo calls c

/-- The last field that was stored in the schema under a name. -/
def lastStored (calls : List (Call n)) (k : String) : Option (Fin n) :=
  Dict.lastUnder k (calls.flatMap (Call.stores fields))

/-! ## Skeletons -/

/-- The document of a field, from those of the fields that were put into it: the elements of an
`Array` come after those of its default, and the last one under a name counts in an `Object`. Other
contents are a default or null. -/
def assemble (calls : List (Call n)) (c : Fin n) (doc : ∀ f, Within calls f c → Doc) : Doc :=
  (fields c).byContent
    (fun xs => .array (denoteAll xs ++ (addedTo calls c).attach.map fun f => doc f.1 f.2))
    (fun ms => .object fun k =>
      (Dict.lastUnder k ((addedTo calls c).attach.map fun f =>
        ((fields f.1).ident, doc f.1 f.2))).or (denoteMembers ms k))
    denote

/-- The skeleton of a field, where no field is contained in itself. -/
noncomputable def skeleton {calls : List (Call n)} (h : Acyclic (Within calls)) : Fin n → Doc :=
  h.wellFounded.fix fun c doc => assemble fields calls c doc

variable {fields}

theorem skeleton_eq {calls : List (Call n)} (h : Acyclic (Within calls)) (c : Fin n) :
    skeleton fields h c = assemble fields calls c fun f _ => skeleton fields h f :=
  h.wellFounded.fix_eq _ c

variable (fields) in
/-- The call adds to fields that accept it. -/
def Call.Fits : Call n → Prop
  | .addField c _ => (fields c).Accepts
  | .append c fs => (fields c).type = .array ∧ (fs ≠ [] → (fields c).Accepts)
  | .addToSchema _ | .setContent _ => True

instance (call : Call n) : Decidable (call.Fits fields) := by
  cases call <;> (unfold Call.Fits; infer_instance)

section Skeleton

variable {calls : List (Call n)} (h : Acyclic (Within calls)) {c : Fin n}

theorem skeleton_of_array (ht : (fields c).type = .array) {xs : List Value}
    (hi : (fields c).initial = .array xs) :
    skeleton fields h c = .array (denoteAll xs ++ (addedTo calls c).map (skeleton fields h)) := by
  rw [skeleton_eq, assemble, Field.byContent_of_array ht hi, List.attach_map_val]

theorem skeleton_of_object (ht : (fields c).type = .object) {ms : List (String × Value)}
    (hi : (fields c).initial = .object ms) :
    skeleton fields h c = .object fun k =>
      ((Dict.lastUnder k (named fields (addedTo calls c))).map (skeleton fields h)).or
        (denoteMembers ms k) := by
  have hpairs : (addedTo calls c).attach.map (fun f =>
      ((fields f.1).ident, skeleton fields h f.1)) =
        Dict.mapVal (skeleton fields h) (named fields (addedTo calls c)) := by
    rw [Dict.mapVal, named, List.map_map]
    exact List.attach_map_val (f := fun f => ((fields f).ident, skeleton fields h f))
  rw [skeleton_eq, assemble, Field.byContent_of_object ht hi]
  simp only [hpairs, Dict.lastUnder_mapVal]

theorem skeleton_of_not_accepts (hc : ¬ (fields c).Accepts) :
    skeleton fields h c = denote (fields c).initial := by
  rw [skeleton_eq, assemble, Field.byContent_of_not_accepts hc]

end Skeleton

end NixSrv.Schema
