import NixSrv.Cache.Model
import NixSrv.Lib.Cell

/-!
# The cache as a timed map

* `Stored`, `Puts`, `Ends`, `Fresh`: what the requests before a moment say about a key;
* **`lookup_handle`**: the entry of a key after a request;
* **`holds_of_run`**: the map holds what was stored last and has not ended;
* `RefinesTimedMap`, **`refines_timedMap_iff`**: when a request is answered as by a timed map.
-/

namespace NixSrv.Cache

open Json Transition

section Requests

variable [Jsoncpp]

/-- What a request to store asks for: content `content` from `time` on, for less than `age`. -/
structure Stored where
  time : ℤ
  age : ℤ
  content : Value

omit [Jsoncpp] in
/-- The entry that holds it, made at a time that fits an `int`. -/
def Stored.entry (x : Stored) : CacheEntry := ⟨x.time, x.age, some x.content⟩

/-- The request stores `x` under `k`. -/
def Puts (k : String) (call : Call) (x : Stored) : Prop :=
  match call with
  | .store msg now => keyOf msg = k ∧ k ≠ "" ∧ x = ⟨now, ageOf msg, msg.getRawValue "value"⟩
  | _ => False

/-- What was stored under `k` before ends with the request: with the next request to store or to
remove, or when it is found expired. -/
def Ends (k : String) (call : Call) (x : Stored) : Prop :=
  match call with
  | .store msg _ | .remove msg => keyOf msg = k
  | .retrieve msg now => keyOf msg = k ∧ ¬ now - x.time < x.age

/-- Among the requests so far to store or to remove `k`, the last one stored `x`, and no request to
retrieve has found it expired since. -/
abbrev Stands (hist : List Move) (k : String) (x : Stored) : Prop :=
  Cell.Stands (fun m : Move => Puts k m.event) (fun m : Move => Ends k m.event) hist x

/-- Content `v` is to be had under `k` at time `t`. -/
def Fresh (hist : List Move) (k : String) (t : ℤ) (v : Value) : Prop :=
  ∃ x, Stands hist k x ∧ t - x.time < x.age ∧ x.content = v

/-- The clock reading of a request fits an `int`. -/
def Call.ClockFits : Call → Prop
  | .store _ now | .retrieve _ now => Value.inInt now
  | .remove _ => True

instance (call : Call) : Decidable call.ClockFits := by
  unfold Call.ClockFits; split <;> infer_instance

/-- A request is answered as by a timed map. -/
structure RefinesTimedMap (hist : List Move) (c : Cache) (call : Call) : Prop where
  obtains : ∀ msg t, call = .retrieve msg t → keyOf msg ≠ "" → ∀ v,
    Obtains (c.handle call) msg (keyOf msg) v ↔ Fresh hist (keyOf msg) t v
  null_value : ∀ msg t, call = .retrieve msg t → keyOf msg ≠ "" →
    (∀ v, ¬ Fresh hist (keyOf msg) t v) → Refused (c.handle call) msg .nullValue
  gone : ∀ msg t x, call = .retrieve msg t → Stands hist (keyOf msg) x →
    ¬ t - x.time < x.age → keyOf msg ∉ (c.handle call).state.cache
  frame : ∀ k ≠ call.key, (c.handle call).state.cache.lookup k = c.cache.lookup k

/-- A fresh content that is asked for can be read in the answer. -/
def ReadsBack (hist : List Move) (call : Call) : Prop :=
  ∀ msg t, call = .retrieve msg t → ∀ v, Fresh hist (keyOf msg) t v →
    readUnder (keyOf msg) v = some v

/-! ## The entry of a key -/

omit [Jsoncpp] in
theorem toCInt_of_inInt {n : ℤ} (h : Value.inInt n) : toCInt n = n := by
  obtain ⟨hlo, hhi⟩ := h
  exact Int.bmod_eq_of_le (by omega) (by omega)

/-- `Ends`, by the entry that holds what was stored. -/
def EndsEntry (k : String) (call : Call) (e : CacheEntry) : Prop :=
  match call with
  | .store msg _ | .remove msg => keyOf msg = k
  | .retrieve msg now => keyOf msg = k ∧ e.expired now = true

theorem endsEntry_iff (k : String) (call : Call) (x : Stored) :
    EndsEntry k call x.entry ↔ Ends k call x := by
  cases call <;> simp [EndsEntry, Ends, Stored.entry, CacheEntry.expired]

theorem lookup_retrieve {c : Cache} {k : String} (hk : k ≠ "") (msg : IncomingMessage) (now : ℤ)
    (e : CacheEntry) : (c.retrieve msg now).state.cache.lookup k = some e ↔
      c.cache.lookup k = some e ∧ ¬ (keyOf msg = k ∧ e.expired now = true) := by
  unfold retrieve
  split_ifs with hm
  · change c.cache.lookup k = some e ↔ _
    refine ⟨fun h => ⟨h, ?_⟩, fun h => h.1⟩
    rintro ⟨rfl, -⟩
    exact hm.elim hk fun hn => hn (Map.mem_of_lookup h)
  · push Not at hm
    rw [lookup_retrieveFound, lookup_readEntry]
    by_cases he : k = keyOf msg
    · obtain ⟨e', hl⟩ := Map.exists_lookup hm.2
      rw [if_neg (not_not.mpr he), entryAt_of_lookup hl, he, hl]
      split_ifs with hx
      · simp only [true_and, Option.some.injEq, false_iff, not_and, not_not]
        rintro rfl
        exact hx
      · simp only [true_and, Option.some.injEq]
        refine ⟨?_, fun h => h.1⟩
        rintro rfl
        exact ⟨rfl, hx⟩
    · rw [if_pos he]
      simp [Ne.symm he]

/-- `Puts`, by the entry that is made. -/
def PutsEntry (k : String) (call : Call) (e : CacheEntry) : Prop :=
  match call with
  | .store msg now => keyOf msg = k ∧ k ≠ "" ∧ entryOf msg now = e
  | _ => False

theorem putsEntry_iff {k : String} {call : Call} (hfit : call.ClockFits) (e : CacheEntry) :
    PutsEntry k call e ↔ ∃ x, Puts k call x ∧ x.entry = e := by
  cases call with
  | store msg now =>
    have hentry : (⟨now, ageOf msg, msg.getRawValue "value"⟩ : Stored).entry = entryOf msg now := by
      simp only [Stored.entry, entryOf, CacheEntry.new, toCInt_of_inInt hfit]
    simp [PutsEntry, Puts, and_assoc, hentry]
  | retrieve | remove => simp [PutsEntry, Puts]

/-- **The entry of a key after a request**, whatever the clock. -/
theorem lookup_handle_entry {c : Cache} {k : String} {call : Call} (hk : k ≠ "") (e : CacheEntry) :
    (c.handle call).state.cache.lookup k = some e ↔
      PutsEntry k call e ∨ c.cache.lookup k = some e ∧ ¬ EndsEntry k call e := by
  cases call with
  | store msg now =>
    simp only [handle, store, PutsEntry, EndsEntry]
    split_ifs with hm
    · have hne : keyOf msg ≠ k := fun h => hk (h ▸ hm)
      simp [storeFailed, hne]
    · simp only [storeEntry, lookup_putEntry]
      by_cases he : k = keyOf msg
      · simp [he, hm]
      · simp [he, Ne.symm he]
  | retrieve msg now =>
    simp only [handle, PutsEntry, EndsEntry, lookup_retrieve hk]
    simp
  | remove msg =>
    simp only [handle, remove, PutsEntry, EndsEntry, lookup_removeEntry]
    by_cases he : k = keyOf msg
    · simp [he]
    · simp [he, Ne.symm he]

/-- **The entry of a key after a request.** -/
theorem lookup_handle {c : Cache} {k : String} {call : Call} (hk : k ≠ "") (hfit : call.ClockFits)
    (e : CacheEntry) : (c.handle call).state.cache.lookup k = some e ↔
      (∃ x, Puts k call x ∧ x.entry = e) ∨
        c.cache.lookup k = some e ∧ ¬ EndsEntry k call e := by
  rw [lookup_handle_entry hk, putsEntry_iff hfit]

/-! ## Runs -/

theorem step_iff {c c' : Cache} {call : Call} : system.step c call c' ↔
    (c.handle call).ending ≠ .undefined ∧ c' = (c.handle call).state := by
  change next c call = some c' ↔ _
  unfold next
  split_ifs with h
  · simp [h, eq_comm]
  · simp [h]

/-- The map holds what stands, under the keys a request can store to. -/
def Holds (hist : List Move) (c : Cache) : Prop :=
  ∀ k ≠ "", ∀ e, c.cache.lookup k = some e ↔ ∃ x, Stands hist k x ∧ x.entry = e

/-- **After every run the map holds what was stored last and has not ended.** -/
theorem holds_of_run {tr : List Move} {c : Cache} (hr : Run system tr c)
    (hfit : EachMove (fun _ m => m.event.ClockFits) tr) : Holds tr c := by
  refine hr.invariant (I := Holds) ?_ ?_ hfit
  · rintro _ rfl k _ e
    constructor
    · intro h
      cases h
    · rintro ⟨x, hx, -⟩
      exact absurd hx (Cell.not_stands_nil x)
  · intro tr c call c' _ ih hs hfit k hk e
    obtain ⟨-, rfl⟩ := step_iff.mp hs
    rw [lookup_handle hk hfit, ih k hk]
    constructor
    · rintro (⟨x, hp, hx⟩ | ⟨⟨x, hst, hx⟩, hn⟩)
      · exact ⟨x, (Cell.stands_snoc _ _ _).mpr (Or.inl hp), hx⟩
      · refine ⟨x, (Cell.stands_snoc _ _ _).mpr (Or.inr ⟨hst, fun he => hn ?_⟩), hx⟩
        rw [← hx]
        exact (endsEntry_iff k call x).mpr he
    · rintro ⟨x, hst, hx⟩
      rcases (Cell.stands_snoc _ _ _).mp hst with hp | ⟨hst, hn⟩
      · exact Or.inl ⟨x, hp, hx⟩
      · refine Or.inr ⟨⟨x, hst, hx⟩, fun he => hn ?_⟩
        rw [← hx] at he
        exact (endsEntry_iff k call x).mp he

theorem Stands.key_ne {hist : List Move} {k : String} {x : Stored} (h : Stands hist k x) :
    k ≠ "" := by
  obtain ⟨-, m, -, -, hp, -⟩ := h
  revert hp
  cases m.event with
  | store msg now => exact fun hp => hp.2.1
  | retrieve | remove => exact False.elim

omit [Jsoncpp] in
theorem expired_entry (x : Stored) (t : ℤ) : x.entry.expired t = true ↔ ¬ t - x.time < x.age := by
  simp [Stored.entry, CacheEntry.expired]

/-- What is fresh is what the map holds and has not expired. -/
theorem fresh_iff {hist : List Move} {c : Cache} (h : Holds hist c) {k : String} (hk : k ≠ "")
    (t : ℤ) (v : Value) : Fresh hist k t v ↔
      ∃ e, c.cache.lookup k = some e ∧ e.expired t = false ∧ e.content = some v := by
  constructor
  · rintro ⟨x, hx, ht, rfl⟩
    refine ⟨x.entry, (h k hk _).mpr ⟨x, hx, rfl⟩, ?_, rfl⟩
    rw [Bool.eq_false_iff, ne_eq, expired_entry]
    exact not_not.mpr ht
  · rintro ⟨e, hl, hx, hv⟩
    obtain ⟨x, hst, rfl⟩ := (h k hk e).mp hl
    refine ⟨x, hst, ?_, Option.some.inj hv⟩
    rwa [Bool.eq_false_iff, ne_eq, expired_entry, not_not] at hx

/-! ## How a request is answered -/

theorem retrieve_of_fresh {c : Cache} {msg : IncomingMessage} {t : ℤ} {e : CacheEntry} {v : Value}
    (hk : keyOf msg ≠ "") (hl : c.cache.lookup (keyOf msg) = some e) (hx : e.expired t = false)
    (hv : e.content = some v) : ∃ c', c.retrieve msg t = replyUnder c' msg (keyOf msg) v := by
  have hm : ¬ (keyOf msg = "" ∨ keyOf msg ∉ c.cache) := by
    simp [hk, Map.mem_of_lookup hl]
  rw [retrieve, if_neg hm]
  rw [← entryAt_of_lookup hl t] at hx hv
  exact exists_replyUnder hx hv

theorem retrieve_of_not_fresh {c : Cache} {msg : IncomingMessage} {t : ℤ}
    (h : ∀ e, c.cache.lookup (keyOf msg) = some e → e.expired t = true) :
    Refused (c.retrieve msg t) msg .nullValue := by
  unfold retrieve
  split_ifs with hm
  · exact refused_fail _ msg .nullValue
  · push Not at hm
    obtain ⟨e, hl⟩ := Map.exists_lookup hm.2
    refine refused_of_expired ?_
    rw [entryAt_of_lookup hl]
    exact h e hl

/-- A request leaves the entries of other keys alone. -/
theorem lookup_handle_ne (c : Cache) {call : Call} {k : String} (hk : k ≠ call.key) :
    (c.handle call).state.cache.lookup k = c.cache.lookup k := by
  cases call with
  | store msg now =>
    simp only [handle, store]
    split_ifs
    · rfl
    · exact (lookup_putEntry c k (keyOf msg) _).trans (if_neg hk)
  | retrieve msg now =>
    simp only [handle, retrieve]
    split_ifs
    · rfl
    · rw [lookup_retrieveFound, lookup_readEntry]
      exact if_pos hk
  | remove msg => exact (lookup_removeEntry c k (keyOf msg)).trans (if_neg hk)

/-- What `retrieve` should find is read back from its answer. -/
theorem readsBack_of_refines {tr : List Move} {c : Cache} (hr : Run system tr c)
    (hfit : EachMove (fun _ m => m.event.ClockFits) tr) {call : Call}
    (h : RefinesTimedMap tr c call) : ReadsBack tr call := by
  rintro msg t rfl v hf
  obtain ⟨x, hst, -⟩ := id hf
  have hk := Stands.key_ne hst
  obtain ⟨e, hl, hx, hv⟩ := (fresh_iff (holds_of_run hr hfit) hk t v).mp hf
  obtain ⟨c', hret⟩ := retrieve_of_fresh hk hl hx hv
  have ho := (h.obtains msg t rfl hk v).mpr hf
  rw [handle, hret] at ho
  exact (obtains_replyUnder c' msg _ v v).mp ho

/-- **After every run a request is answered as by a timed map exactly when the content it asks for,
if any, can be read in the answer.** -/
theorem refines_timedMap_iff {tr : List Move} {c : Cache} (hr : Run system tr c)
    (hfit : EachMove (fun _ m => m.event.ClockFits) tr) (call : Call) :
    RefinesTimedMap tr c call ↔ ReadsBack tr call := by
  have hholds := holds_of_run hr hfit
  have hrefused : ∀ msg t, keyOf msg ≠ "" → (∀ v, ¬ Fresh tr (keyOf msg) t v) →
      Refused (c.retrieve msg t) msg .nullValue := by
    intro msg t hk hno
    refine retrieve_of_not_fresh fun e hl => ?_
    by_contra hx
    obtain ⟨x, hst, rfl⟩ := (hholds _ hk e).mp hl
    exact hno x.content ((fresh_iff hholds hk t _).mpr ⟨_, hl, by simpa using hx, rfl⟩)
  constructor
  · exact readsBack_of_refines hr hfit
  · intro hread
    refine ⟨?_, ?_, ?_, fun k hk => lookup_handle_ne c hk⟩
    · rintro msg t rfl hk w
      rw [handle]
      by_cases hf : ∃ v, Fresh tr (keyOf msg) t v
      · obtain ⟨v, hf⟩ := hf
        obtain ⟨e, hl, hx, hv⟩ := (fresh_iff hholds hk t v).mp hf
        obtain ⟨c', hret⟩ := retrieve_of_fresh hk hl hx hv
        rw [hret, obtains_replyUnder, hread msg t rfl v hf, fresh_iff hholds hk]
        simp [hl, hx, hv]
      · have hno : ∀ v, ¬ Fresh tr (keyOf msg) t v := fun v h => hf ⟨v, h⟩
        exact iff_of_false ((hrefused msg t hk hno).not_obtains (by decide) _ w) (hno w)
    · rintro msg t rfl hk hno
      exact hrefused msg t hk hno
    · rintro msg t x rfl hst ht hmem
      have hk := Stands.key_ne hst
      obtain ⟨e, hl⟩ := Map.exists_lookup hmem
      obtain ⟨hl, hn⟩ := (lookup_retrieve hk msg t e).mp hl
      have hx := (hholds _ hk x.entry).mpr ⟨x, hst, rfl⟩
      obtain rfl := Option.some.inj (hl.symm.trans hx)
      exact hn ⟨rfl, (expired_entry x t).mpr ht⟩

end Requests

section Sample

attribute [local instance] Jsoncpp.integral

/-- A request about the given key. -/
def requestFor (key : String) (members : Members := []) : IncomingMessage :=
  ⟨⟨.object (("key", .string key) :: members)⟩, 1, rfl⟩

/-- The run of the given requests, and the map after it. -/
abbrev runOf (calls : List Call) : List Move × Cache := traceOf next {} calls

/-- A value is stored under the key at time 10. -/
def storing (key : String) : List Call := [.store (requestFor key [("value", .string "v")]) 10]

theorem refines_timedMap_iff_storing :
    RefinesTimedMap (runOf (storing "k")).1 (runOf (storing "k")).2
      (.retrieve (requestFor "k") 12) := by
  refine (refines_timedMap_iff (run_traceOf (by decide)) (by decide) _).mpr ?_
  rintro _ _ ⟨⟩ v _
  rfl

/-- The status code takes the place of a content stored under its name. -/
theorem not_refines_statusCode : ∃ tr c, Run system tr c ∧
    EachMove (fun _ m => m.event.ClockFits) tr ∧
    Fresh tr "@status_code" 12 (.string "v") ∧
    ¬ RefinesTimedMap tr c (.retrieve (requestFor "@status_code") 12) := by
  have hr : Run system (runOf (storing "@status_code")).1 _ := run_traceOf (by decide)
  have hfresh : Fresh (runOf (storing "@status_code")).1 "@status_code" 12 (.string "v") :=
    ⟨⟨10, 300, .string "v"⟩, ⟨[], _, [], rfl, ⟨by decide, by decide, rfl⟩, by simp⟩, by decide, rfl⟩
  refine ⟨_, _, hr, by decide, hfresh, fun h => ?_⟩
  have hread := readsBack_of_refines hr (by decide) h _ _ rfl _ hfresh
  cases hread

end Sample

end NixSrv.Cache
