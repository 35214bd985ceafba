import NixSrv.Message
import Mathlib.Algebra.Order.Ring.Unbundled.Rat

/-!
# The typed getters

An overload of `Message::get` tests the value it has found before it converts it. The conversions of
jsoncpp throw on a value that does not fit the type of their result.

* `Value.isIntegral`, `isInt`, …, `Value.asInt`, `asLargestInt`, …: the tests and the conversions;
* `Getter`, `Message.get`: the overloads, which differ in the two;
* **`get_eq`**: a getter whose test fits its conversion;
* `GettersReturn`, **`gettersReturn_iff`**: when all of them return.
-/

namespace NixSrv

open Json

namespace Json.Value

/-- An integer that fits a C++ `long long`. -/
def inLongLong (n : ℤ) : Prop := -2 ^ 63 ≤ n ∧ n < 2 ^ 63

instance (n : ℤ) : Decidable (inLongLong n) := by unfold inLongLong; infer_instance

/-- The integer that a number without a fraction is. -/
def integral? : Value → Option ℤ
  | int n => some n
  | real q => if q.den = 1 then some q.num else none
  | _ => none

/-! ## Tests -/

/-- `isIntegral`, which takes signed and unsigned numbers of 64 bits. -/
def isIntegral (v : Value) : Bool :=
  match v.integral? with
  | some n => -2 ^ 63 ≤ n ∧ n < 2 ^ 64
  | none => false

def isInt (v : Value) : Bool :=
  match v.integral? with
  | some n => inInt n
  | none => false

def isDouble : Value → Bool
  | real _ => true
  | v => v.isIntegral

/-- `isConvertibleTo(stringValue)`. -/
def isConvertibleToString : Value → Bool
  | array _ | object _ => false
  | _ => true

/-- `isConvertibleTo(booleanValue)`. -/
def isConvertibleToBool : Value → Bool
  | null | int _ | real _ | bool _ => true
  | _ => false

/-! ## Conversions

`none` stands for an exception. -/

/-- Conversion of a real number to an integer. -/
def truncate (q : ℚ) : ℤ := q.num.tdiv q.den

/-- `InRange`, which compares a real number with two integers. -/
def inRange (lo hi : ℤ) (q : ℚ) : Prop := (lo : ℚ) ≤ q ∧ q ≤ (hi : ℚ)

instance (lo hi : ℤ) (q : ℚ) : Decidable (inRange lo hi q) := by unfold inRange; infer_instance

def asInt : Value → Option ℤ
  | null => some 0
  | int n => if inInt n then some n else none
  | real q => if inRange (-2 ^ 31) (2 ^ 31 - 1) q then some (truncate q) else none
  | bool b => some (if b then 1 else 0)
  | string _ | array _ | object _ => none

def asLargestInt : Value → Option ℤ
  | null => some 0
  | int n => if inLongLong n then some n else none
  | real q => if inRange (-2 ^ 63) (2 ^ 63 - 1) q then some (truncate q) else none
  | bool b => some (if b then 1 else 0)
  | string _ | array _ | object _ => none

def asDouble : Value → Option ℚ
  | null => some 0
  | int n => some n
  | real q => some q
  | bool b => some (if b then 1 else 0)
  | string _ | array _ | object _ => none

def asString [Jsoncpp] : Value → Option String
  | null => some ""
  | int n => some (toString n)
  | real q => some (Jsoncpp.valueToString q)
  | string s => some s
  | bool b => some (if b then "true" else "false")
  | array _ | object _ => none

def asBool : Value → Option Bool
  | null => some false
  | int n => some (n ≠ 0)
  | real q => some (q ≠ 0)
  | bool b => some b
  | string _ | array _ | object _ => none

/-- The elements of `Array(v)`, which is an empty array where `v` is none. -/
def elements : Value → List Value
  | array xs => xs
  | _ => []

/-- `asLargestInt`, where the value is an integer that fits. -/
def asLongLong? (v : Value) : Option ℤ :=
  match v.integral? with
  | some n => if inLongLong n then some n else none
  | none => none

end Json.Value

/-! ## The overloads -/

/-- What an overload of `get` tests, and how it converts. -/
structure Getter (α : Type) where
  fits : Value → Bool
  convert : Value → Option α

namespace Getter

variable {α : Type}

def string [Jsoncpp] : Getter String := ⟨Value.isConvertibleToString, Value.asString⟩
def int : Getter ℤ := ⟨Value.isInt, Value.asInt⟩
def double : Getter ℚ := ⟨Value.isDouble, Value.asDouble⟩
def longLong : Getter ℤ := ⟨Value.isIntegral, Value.asLargestInt⟩
def bool : Getter Bool := ⟨Value.isConvertibleToBool, Value.asBool⟩

/-- What an overload makes of the value it has found; `none` when it throws. -/
def read (g : Getter α) (default : α) (v : Value) : Option α :=
  if g.fits v then g.convert v else some default

end Getter

namespace Message

variable {α : Type} (m : Message) (k : String)

/-- `get(k, default)`; `none` when it throws. -/
def get (g : Getter α) (default : α) : Option α :=
  match m.find k with
  | some v => g.read default v
  | none => some default

def isArray : Bool :=
  match m.find k with
  | some v => v.isArray
  | none => false

/-- `get(k, const Array_t&)`, which looks the key up a second time. -/
def getArrayT (default : List Value) : Option (List Value) :=
  if m.isArray k then some (m.getRawValue k).elements else some default

end Message

/-! ## Tests and conversions that fit -/

namespace Json.Value

variable {q : ℚ} (h : q.den = 1)

include h

theorem inRange_of_den (lo hi : ℤ) : inRange lo hi q ↔ lo ≤ q.num ∧ q.num ≤ hi := by
  have hq : ((q.num : ℤ) : ℚ) = q := (Rat.den_eq_one_iff q).mp h
  rw [inRange, ← hq, Rat.intCast_le_intCast, Rat.intCast_le_intCast, Rat.num_intCast]

theorem truncate_of_den : truncate q = q.num := by
  rw [truncate, h]
  exact Int.tdiv_one q.num

end Json.Value

namespace Getter

theorem read_string [Jsoncpp] (default : String) (v : Value) :
    Getter.string.read default v = some (v.asString?.getD default) := by
  cases v <;> rfl

theorem read_bool (default : Bool) (v : Value) :
    Getter.bool.read default v = some (v.asBool?.getD default) := by
  cases v <;> rfl

theorem read_double (default : ℚ) (v : Value) :
    Getter.double.read default v = some (v.asDouble?.getD default) := by
  cases v with
  | int n =>
    simp only [Getter.read, Getter.double, Value.isDouble, Value.isIntegral, Value.integral?,
      decide_eq_true_eq, Value.asDouble, Value.asDouble?]
    split_ifs <;> rfl
  | _ => rfl

/-- A real number that passes `isInt` is in the range of `asInt`. -/
theorem read_int (default : ℤ) (v : Value) :
    Getter.int.read default v = some (v.asInt?.getD default) := by
  cases v with
  | int n =>
    simp only [Getter.read, Getter.int, Value.isInt, Value.integral?, decide_eq_true_eq,
      Value.asInt, Value.asInt?]
    split_ifs <;> rfl
  | real q =>
    by_cases hq : q.den = 1
    · have hrange : Value.inRange (-2 ^ 31) (2 ^ 31 - 1) q ↔ Value.inInt q.num := by
        rw [Value.inRange_of_den hq, Value.inInt, Int.le_sub_one_iff]
      simp only [Getter.read, Getter.int, Value.isInt, Value.integral?, hq, if_true,
        decide_eq_true_eq, Value.asInt, hrange, Value.asInt?, true_and, Value.truncate_of_den hq]
      split_ifs <;> rfl
    · simp [Getter.read, Getter.int, Value.isInt, Value.integral?, hq, Value.asInt?]
  | _ => rfl

/-- **`isIntegral` lets numbers through that `asLargestInt` throws on.** -/
theorem read_longLong_iff (v : Value) :
    (∀ default, Getter.longLong.read default v = some (v.asLongLong?.getD default)) ↔
      ∀ n ∈ v.integral?, ¬ (2 ^ 63 ≤ n ∧ n < 2 ^ 64) := by
  cases hn : v.integral? with
  | none =>
    refine iff_of_true (fun default => ?_) (by simp)
    simp [Getter.read, Getter.longLong, Value.isIntegral, hn, Value.asLongLong?]
  | some n =>
    have hconvert : v.asLargestInt = if Value.inLongLong n then some n else none := by
      cases v with
      | int n' =>
        cases hn
        rfl
      | real q =>
        by_cases hq : q.den = 1
        · rw [Value.integral?, if_pos hq] at hn
          cases hn
          have hrange : Value.inRange (-2 ^ 63) (2 ^ 63 - 1) q ↔ Value.inLongLong q.num := by
            rw [Value.inRange_of_den hq, Value.inLongLong, Int.le_sub_one_iff]
          simp only [Value.asLargestInt, hrange, Value.truncate_of_den hq]
        · rw [Value.integral?, if_neg hq] at hn
          cases hn
      | _ => cases hn
    simp only [Getter.read, Getter.longLong, Value.isIntegral, hn, decide_eq_true_eq, hconvert,
      Value.asLongLong?, Option.mem_some_iff, forall_eq']
    by_cases hlong : Value.inLongLong n
    · have h64 : -2 ^ 63 ≤ n ∧ n < 2 ^ 64 := ⟨hlong.1, by have := hlong.2; omega⟩
      refine iff_of_true (fun default => ?_) (fun h => ?_)
      · rw [if_pos h64, if_pos hlong, Option.getD_some]
      · have := hlong.2
        omega
    · simp only [if_neg hlong, Option.getD_none]
      have hlong' : ¬ (-2 ^ 63 ≤ n ∧ n < 2 ^ 63) := hlong
      by_cases h64 : -2 ^ 63 ≤ n ∧ n < 2 ^ 64
      · refine iff_of_false (fun h => ?_) (fun h => h ⟨by omega, h64.2⟩)
        have h0 := h 0
        rw [if_pos h64] at h0
        cases h0
      · exact iff_of_true (fun default => if_neg h64) (fun h => h64 ⟨by omega, h.2⟩)

end Getter

/-! ## All getters -/

section Getters

variable (m : Message) (k : String)

/-- **A getter whose test fits its conversion returns** the converted value, or the default. -/
theorem get_eq {α : Type} {g : Getter α} {convert? : Value → Option α} {default : α}
    (h : ∀ v ∈ m.find k, g.read default v = some ((convert? v).getD default)) :
    m.get k g default = some (((m.find k).bind convert?).getD default) := by
  rw [Message.get]
  cases hf : m.find k with
  | none => rfl
  | some v => exact h v hf

theorem getArrayT_eq (default : List Value) :
    m.getArrayT k default = some (m.getArray k default) := by
  rw [Message.getArrayT, Message.isArray, Message.getRawValue, Message.getArray]
  cases m.find k with
  | none => rfl
  | some v => cases v <;> rfl

variable [Jsoncpp]

/-- Every getter returns the converted value found under `k`, or the default where there is none or
it does not fit the type. Integers that fit are returned as they are. -/
structure GettersReturn : Prop where
  string : ∀ default,
    m.get k .string default = some (((m.find k).bind Value.asString?).getD default)
  int : ∀ default, m.get k .int default = some (((m.find k).bind Value.asInt?).getD default)
  double : ∀ default,
    m.get k .double default = some (((m.find k).bind Value.asDouble?).getD default)
  longLong : ∀ default,
    m.get k .longLong default = some (((m.find k).bind Value.asLongLong?).getD default)
  bool : ∀ default, m.get k .bool default = some (((m.find k).bind Value.asBool?).getD default)
  array : ∀ default, m.getArrayT k default = some (m.getArray k default)
  int_exact : ∀ n, (m.find k).bind Value.integral? = some n → Value.inInt n →
    ∀ default, m.get k .int default = some n
  longLong_exact : ∀ n, (m.find k).bind Value.integral? = some n → Value.inLongLong n →
    ∀ default, m.get k .longLong default = some n

omit [Jsoncpp] in
theorem asInt?_of_integral {v : Value} {n : ℤ} (h : v.integral? = some n) (hn : Value.inInt n) :
    v.asInt? = some n := by
  cases v with
  | int n' =>
    cases h
    exact if_pos hn
  | real q =>
    rw [Value.integral?] at h
    split_ifs at h with hq
    cases h
    exact if_pos ⟨hq, hn⟩
  | _ => cases h

omit [Jsoncpp] in
theorem asLongLong?_of_integral {v : Value} {n : ℤ} (h : v.integral? = some n)
    (hn : Value.inLongLong n) : v.asLongLong? = some n := by
  rw [Value.asLongLong?, h]
  exact if_pos hn

/-- **All getters return, what they should, exactly when the value under `k` is no integral number
from 2^63 up to 2^64.** -/
theorem gettersReturn_iff : GettersReturn m k ↔
    ∀ n, (m.find k).bind Value.integral? = some n → ¬ (2 ^ 63 ≤ n ∧ n < 2 ^ 64) := by
  constructor
  · intro h n hn
    obtain ⟨v, hv, hint⟩ := Option.bind_eq_some_iff.mp hn
    refine (Getter.read_longLong_iff v).mp (fun default => ?_) n hint
    have hget := h.longLong default
    rw [Message.get, hv, Option.bind_some] at hget
    exact hget
  · intro h
    have hlong : ∀ default, m.get k .longLong default =
        some (((m.find k).bind Value.asLongLong?).getD default) := fun default =>
      get_eq m k fun v hv => (Getter.read_longLong_iff v).mpr
        (fun n hn => h n (Option.bind_eq_some_iff.mpr ⟨v, hv, hn⟩)) default
    have hint : ∀ default, m.get k .int default =
        some (((m.find k).bind Value.asInt?).getD default) := fun default =>
      get_eq m k fun v _ => Getter.read_int default v
    refine ⟨fun default => get_eq m k fun v _ => Getter.read_string default v, hint,
      fun default => get_eq m k fun v _ => Getter.read_double default v, hlong,
      fun default => get_eq m k fun v _ => Getter.read_bool default v, getArrayT_eq m k,
      fun n hn hin default => ?_, fun n hn hin default => ?_⟩
    · obtain ⟨v, hv, hn'⟩ := Option.bind_eq_some_iff.mp hn
      rw [hint, hv, Option.bind_some, asInt?_of_integral hn' hin, Option.getD_some]
    · obtain ⟨v, hv, hn'⟩ := Option.bind_eq_some_iff.mp hn
      rw [hlong, hv, Option.bind_some, asLongLong?_of_integral hn' hin, Option.getD_some]

end Getters

section Sample

attribute [local instance] Jsoncpp.integral

/-- A document with the first integer that fits an unsigned number of 64 bits only. -/
def unsignedOnly : Message := .ofMembers [("k", .int (2 ^ 63))]

/-- The getter for `long long` throws instead of returning its default. -/
theorem not_gettersReturn_unsignedOnly :
    unsignedOnly.get "k" .longLong 0 = none ∧ ¬ GettersReturn unsignedOnly "k" := by
  have hthrows : unsignedOnly.get "k" .longLong 0 = none := by decide
  refine ⟨hthrows, fun h => ?_⟩
  have hlong := h.longLong 0
  rw [hthrows] at hlong
  cases hlong

end Sample

end NixSrv
