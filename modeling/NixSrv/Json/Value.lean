import Mathlib.Algebra.Group.Int.Defs
import Mathlib.Algebra.Group.Nat.Defs
import Mathlib.Data.Rat.Defs
import Mathlib.Data.List.Basic

/-!
# JSON values

What the sources use of jsoncpp's `Json::Value`. Numbers are exact, and the text of a document is
kept as the value it denotes: writing a value and reading it back is taken to give the same value.

* `Value`, `Members`: values and the members of an object;
* `Members.put`, `lookup_put`: assignment to a member of an object;
* `Value.asString?`, `asInt?`, `asDouble?`, `asBool?`: the conversions, where they are defined.
-/

namespace NixSrv.Json

/-- What jsoncpp adds that the sources do not show: the decimal text of a real number. -/
class Jsoncpp where
  valueToString : ℚ → String

/-- Integral numbers written without a fraction, as jsoncpp does. -/
@[reducible] def Jsoncpp.integral : Jsoncpp := ⟨fun q => toString q.num⟩

inductive Value where
  | null
  | int (n : ℤ)
  | real (q : ℚ)
  | string (s : String)
  | bool (b : Bool)
  | array (xs : List Value)
  | object (members : List (String × Value))

instance : Inhabited Value := ⟨.null⟩

/-- The members of an object. -/
abbrev Members := List (String × Value)

namespace Members

/-- `root_[k] = v` on an object. -/
def put (k : String) (v : Value) (ms : Members) : Members :=
  ms.filter (fun m => m.1 ≠ k) ++ [(k, v)]

theorem lookup_filter_self (k : String) (ms : Members) :
    List.lookup k (ms.filter fun m => m.1 ≠ k) = none := by
  rw [List.lookup_eq_none_iff]
  intro m hm
  have hk : m.1 ≠ k := by simpa using (List.mem_filter.mp hm).2
  exact bne_iff_ne.mpr hk.symm

theorem lookup_filter_ne {k k' : String} (h : k' ≠ k) (ms : Members) :
    List.lookup k' (ms.filter fun m => m.1 ≠ k) = ms.lookup k' := by
  induction ms with
  | nil => rfl
  | cons m ms ih =>
    obtain ⟨a, v⟩ := m
    by_cases ha : a = k
    · subst ha
      rw [List.filter_cons_of_neg (by simp), ih, List.lookup_cons, beq_false_of_ne h]
    · rw [List.filter_cons_of_pos (by simpa using ha), List.lookup_cons, List.lookup_cons, ih]

@[simp] theorem lookup_put_self (k : String) (v : Value) (ms : Members) :
    (ms.put k v).lookup k = some v := by
  rw [put, List.lookup_append, lookup_filter_self, Option.none_or, List.lookup_cons_self]

theorem lookup_put_ne {k k' : String} (h : k' ≠ k) (v : Value) (ms : Members) :
    (ms.put k v).lookup k' = ms.lookup k' := by
  rw [put, List.lookup_append, lookup_filter_ne h, List.lookup_cons, beq_false_of_ne h,
    List.lookup_nil, Option.or_none]

/-- **Assignment changes the assigned member only.** -/
theorem lookup_put (k k' : String) (v : Value) (ms : Members) :
    (ms.put k v).lookup k' = if k' = k then some v else ms.lookup k' := by
  split_ifs with h
  · rw [h, lookup_put_self]
  · exact lookup_put_ne h v ms

/-- The last assignment to a member counts. -/
theorem put_put (k : String) (v v' : Value) (ms : Members) :
    (ms.put k v).put k v' = ms.put k v' := by
  simp [put, List.filter_append, List.filter_filter]

end Members

namespace Value

/-- Is the value an array? -/
def isArray : Value → Bool
  | array _ => true
  | _ => false

/-- Is the value an object? -/
def isObject : Value → Bool
  | object _ => true
  | _ => false

@[simp] theorem isObject_object (ms : List (String × Value)) : (object ms).isObject = true := rfl

/-- The member of a value under a key; `none` where `isObject` or `isMember` fails. -/
def member? (k : String) : Value → Option Value
  | object ms => ms.lookup k
  | _ => none

/-- An integer that fits a C++ `int`. -/
def inInt (n : ℤ) : Prop := -2 ^ 31 ≤ n ∧ n < 2 ^ 31

instance (n : ℤ) : Decidable (inInt n) := by unfold inInt; infer_instance

/-- `asString`, where the value is convertible to a string. -/
def asString? [Jsoncpp] : Value → Option String
  | null => some ""
  | int n => some (toString n)
  | real q => some (Jsoncpp.valueToString q)
  | string s => some s
  | bool b => some (if b then "true" else "false")
  | array _ | object _ => none

/-- `asInt`, where `isInt` holds. -/
def asInt? : Value → Option ℤ
  | int n => if inInt n then some n else none
  | real q => if q.den = 1 ∧ inInt q.num then some q.num else none
  | _ => none

theorem inInt_of_asInt? {v : Value} {n : ℤ} (h : v.asInt? = some n) : inInt n := by
  cases v with
  | int m =>
    simp only [asInt?] at h
    split_ifs at h with hm
    cases h
    exact hm
  | real q =>
    simp only [asInt?] at h
    split_ifs at h with hq
    cases h
    exact hq.2
  | null | string | bool | array | object => cases h

/-- `asDouble`, where `isDouble` holds. -/
def asDouble? : Value → Option ℚ
  | int n => if -2 ^ 63 ≤ n ∧ n < 2 ^ 64 then some n else none
  | real q => some q
  | _ => none

/-- `asBool`, where the value is convertible to a boolean. -/
def asBool? : Value → Option Bool
  | null => some false
  | int n => some (n ≠ 0)
  | real q => some (q ≠ 0)
  | bool b => some b
  | string _ | array _ | object _ => none

end Value

end NixSrv.Json
