import NixSrv.Cache.Model
import NixSrv.Lib.Traversal

/-!
# Entries that expire

* `CacheEntry.expiredAt`: `expired` with its arithmetic in 64 bits;
* `ExpiresInTime`, **`expiresInTime_iff`**: when an entry expires at its age;
* `Cleaning`, `pass`: a pass of the thread that erases expired entries;
* `CleanPass`, **`cleanPass_iff`**: when a pass does that.
-/

namespace NixSrv

open Json

/-! ## The clock -/

/-- An integer that fits a `time_t`. -/
def inTime (n : ℤ) : Prop := -2 ^ 63 ≤ n ∧ n < 2 ^ 63

instance (n : ℤ) : Decidable (inTime n) := by unfold inTime; infer_instance

/-- `expired` at a time; there is no result when the difference overflows. -/
def CacheEntry.expiredAt (entry : CacheEntry) (now : ℤ) : Option Bool :=
  if inTime (now - entry.ctime) then some (entry.expired now) else none

/-- An entry made at time `t` for `maxAge` seconds. -/
def CacheEntry.madeAt (t maxAge : ℤ) : CacheEntry := { CacheEntry.new t with maxAge }

/-- After `d` seconds, an entry has expired exactly when it is of its age. -/
def ExpiresInTime (t maxAge d : ℤ) : Prop :=
  (CacheEntry.madeAt t maxAge).expiredAt (t + d) = some (decide (maxAge ≤ d))

section Clock

variable {t : ℤ} (ht : 0 ≤ t)

include ht

/-- A time that fits an `int` is stored as it is. -/
theorem toCInt_eq_self (h : t < 2 ^ 31) : toCInt t = t :=
  Int.bmod_eq_of_le (by omega) (by omega)

omit ht in
/-- A later time is stored as one that lies in the past by a multiple of 2^32. -/
theorem toCInt_add_le (h : 2 ^ 31 ≤ t) : toCInt t + 2 ^ 32 ≤ t := by
  have hle : toCInt t < 2 ^ 31 := Int.bmod_lt (by omega)
  have hdvd : (2 ^ 32 : ℤ) ∣ t - toCInt t := Int.dvd_self_sub_bmod
  obtain ⟨n, hn⟩ := hdvd
  omega

variable {maxAge d : ℤ} (hd : 0 ≤ d)

include hd

theorem neg_le_sub_toCInt : -2 ^ 63 ≤ t + d - toCInt t := by
  have hle : toCInt t < 2 ^ 31 := Int.bmod_lt (by omega)
  omega

variable (hpos : 0 < maxAge) (hint : Value.inInt maxAge) (htime : t + d < 2 ^ 63)

include hpos hint htime

/-- **An entry expires at its age exactly when its time of creation fits an `int`, or when it is of
its age already and the difference of the times does not overflow.** -/
theorem expiresInTime_iff :
    ExpiresInTime t maxAge d ↔ t < 2 ^ 31 ∨ maxAge ≤ d ∧ t + d - toCInt t < 2 ^ 63 := by
  have hlow := neg_le_sub_toCInt ht hd
  have hmax : maxAge < 2 ^ 31 := hint.2
  have hin : inTime (t + d - toCInt t) ↔ t + d - toCInt t < 2 ^ 63 := and_iff_right hlow
  have hexp : ExpiresInTime t maxAge d ↔ t + d - toCInt t < 2 ^ 63 ∧
      (maxAge ≤ t + d - toCInt t ↔ maxAge ≤ d) := by
    rw [← hin, ExpiresInTime, CacheEntry.expiredAt]
    change (if inTime (t + d - toCInt t) then some (decide (t + d - toCInt t ≥ maxAge)) else none) =
      _ ↔ _
    split_ifs with h
    · rw [Option.some_inj, decide_eq_decide, and_iff_right h, ge_iff_le]
    · exact iff_of_false (by simp) fun h' => h h'.1
  rw [hexp]
  by_cases h : t < 2 ^ 31
  · have hself := toCInt_eq_self ht h
    rw [hself]
    exact iff_of_true ⟨by omega, by rw [add_sub_cancel_left]⟩ (Or.inl h)
  · have hwrap := toCInt_add_le (not_lt.mp h)
    have hage : maxAge ≤ t + d - toCInt t := by omega
    rw [or_iff_right h, and_comm (a := maxAge ≤ d)]
    exact and_congr_right fun _ => iff_true_left hage

end Clock

section Sample

theorem expiresInTime_wrapped : ExpiresInTime (2 ^ 31) 10 10 :=
  (expiresInTime_iff (by decide) (by decide) (by decide) (by decide) (by decide)).mpr
    (Or.inr (by decide))

/-- An entry made in the first second that does not fit an `int` has expired at once. -/
theorem not_expiresInTime_wrapped :
    (CacheEntry.madeAt (2 ^ 31) 10).expiredAt (2 ^ 31) = some true ∧
      ¬ ExpiresInTime (2 ^ 31) 10 0 :=
  ⟨by decide, by unfold ExpiresInTime; decide⟩

end Sample

namespace Cache

/-! ## A pass of the cleaner -/

/-- The variables of the loop. -/
structure Cleaning where
  cache : Map String CacheEntry
  removed : ℕ := 0

/-- The body of the loop at a key that is there, where `now` is the reading of the clock. -/
def Cleaning.visit (now : String → ℤ) (key : String) (s : Cleaning) : Cleaning :=
  match s.cache.lookup key with
  | some entry =>
    if entry.expired (now key) then { cache := s.cache.erase key, removed := s.removed + 1 } else s
  | none => s

/-- The elements that the loop can visit. -/
abbrev Cleaning.keys (s : Cleaning) : List String := s.cache.keys

/-- One pass of the loop in `cleaner`, of at most `fuel` steps. The clock is read once at each key.
-/
def pass (c : Cache) (now : String → ℤ) (fuel : ℕ) : Traversal.Result Cleaning :=
  Traversal.loop Cleaning.keys (Cleaning.visit now) fuel c.cache.keys.head? { cache := c.cache }

/-- The pass ends without going on from an erased entry. It leaves the entries that have not expired
as they were, and counts those it has erased. -/
def CleanPass (c : Cache) (now : String → ℤ) : Prop :=
  ∃ fuel s, c.pass now fuel = .done s ∧
    (∀ k e, s.cache.lookup k = some e ↔
      c.cache.lookup k = some e ∧ e.expired (now k) = false) ∧
    s.removed + Map.size s.cache = Map.size c.cache

/-- No entry has expired when it is visited. -/
def NoneExpired (c : Cache) (now : String → ℤ) : Prop :=
  ∀ k e, c.cache.lookup k = some e → e.expired (now k) = false

variable {now : String → ℤ}

theorem visit_of_lookup {s : Cleaning} {k : String} {e : CacheEntry}
    (h : s.cache.lookup k = some e) : s.visit now k =
      if e.expired (now k) then { cache := s.cache.erase k, removed := s.removed + 1 } else s := by
  rw [Cleaning.visit, h]

/-- The body erases the entry it is at, or changes nothing. -/
theorem visit_eq_or {s : Cleaning} {k : String} (hk : k ∈ s.keys) :
    s.visit now k = s ∨ k ∉ (s.visit now k).keys := by
  obtain ⟨e, he⟩ := Map.exists_lookup (AList.mem_keys.mpr hk)
  rw [visit_of_lookup he]
  split_ifs with h
  · refine Or.inr fun hk' => ?_
    have hl := AList.lookup_eq_none.mp (AList.lookup_erase k s.cache)
    exact hl (AList.mem_keys.mpr hk')
  · exact Or.inl rfl

/-- **A pass is clean exactly when no entry has expired.** -/
theorem cleanPass_iff (c : Cache) (now : String → ℤ) : c.CleanPass now ↔ c.NoneExpired now := by
  have hnd : (Cleaning.keys { cache := c.cache }).Nodup := c.cache.keys_nodup
  constructor
  · rintro ⟨fuel, s, hdone, -, -⟩ k e he
    have hk : k ∈ Cleaning.keys { cache := c.cache } := AList.mem_keys.mp (Map.mem_of_lookup he)
    obtain ⟨hsame, -⟩ := Traversal.eq_of_loop_eq_done hnd (fun k hk => visit_eq_or hk) hdone
    have hvisit := hsame k hk
    rw [visit_of_lookup he] at hvisit
    by_contra hx
    rw [if_pos (Bool.eq_true_of_not_eq_false hx)] at hvisit
    exact absurd (congrArg Cleaning.removed hvisit) (Nat.succ_ne_zero _)
  · intro h
    refine ⟨_, { cache := c.cache }, Traversal.loop_eq_done hnd fun k hk => ?_, fun k e => ?_, ?_⟩
    · obtain ⟨e, he⟩ := Map.exists_lookup (AList.mem_keys.mpr hk)
      rw [visit_of_lookup he, h k e he]
      rfl
    · exact ⟨fun he => ⟨he, h k e he⟩, And.left⟩
    · exact Nat.zero_add _

section Sample

/-- A cache with one entry, which expires ten seconds after time 0. -/
def oneEntry : Cache := { cache := (∅ : Map String CacheEntry).insert "k" (.madeAt 0 10) }

theorem pass_oneEntry (fuel : ℕ) : oneEntry.pass (fun _ => 10) (fuel + 1) =
    .invalidated { cache := ∅, removed := 1 } := rfl

/-- The entry has expired. The loop erases it and goes on from it. -/
theorem not_cleanPass_oneEntry : ¬ oneEntry.CleanPass fun _ => 10 := by
  rintro ⟨fuel, s, hdone, -⟩
  cases fuel with
  | zero => cases hdone
  | succ fuel =>
    rw [pass_oneEntry] at hdone
    cases hdone

end Sample

end Cache

end NixSrv
