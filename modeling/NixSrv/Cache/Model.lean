import NixSrv.Lib.Map
import NixSrv.Lib.Transition
import NixSrv.ReadBack

/-!
# The cache module

`nix::module::Cache` with its handlers run one at a time. Times are readings of `std::time`.

* `CacheEntry`: entries, whose time of creation is an `int`;
* `putEntry`, `readEntry`, `removeEntry`: the sections under the mutex that change the map;
* `store`, `retrieve`, `remove`: the handlers;
* `Call`, `handle`, **`system`**: runs;
* `lookup_putEntry`, `lookup_readEntry`, `lookup_removeEntry`: what each section leaves.
-/

namespace NixSrv

open Json

structure CacheEntry where
  ctime : ℤ
  maxAge : ℤ := 5 * 60
  /-- A JSON text, kept as the value it denotes; `none` is the empty text, which denotes none. -/
  content : Option Value := none

namespace CacheEntry

/-- `CacheEntry()`, at the given time. -/
def new (time : ℤ) : CacheEntry := { ctime := toCInt time }

def expired (entry : CacheEntry) (now : ℤ) : Bool := now - entry.ctime ≥ entry.maxAge

end CacheEntry

structure Cache where
  cache : Map String CacheEntry := ∅
  statWrites : ℕ := 0
  statWritesFailed : ℕ := 0
  statRemovals : ℕ := 0
  statHits : ℕ := 0
  statHitsExpired : ℕ := 0
  statMisses : ℕ := 0

namespace Cache

variable (c : Cache)

/-! ## The sections under the mutex -/

def putEntry (key : String) (entry : CacheEntry) : Cache :=
  { c with cache := c.cache.insert key entry }

/-- The value of `cache_[key]`. `operator[]` makes an entry, at time `created`, if there is none. -/
def entryAt (key : String) (created : ℤ) : CacheEntry := (c.cache.lookup key).getD (.new created)

/-- The section of `retrieve` that reads an entry: what it copies, `none` when the entry has
expired. -/
def readEntry (key : String) (created now : ℤ) : Option (Option Value) × Cache :=
  let cache := Map.emplace key (.new created) c.cache
  if (c.entryAt key created).expired now then (none, { c with cache := cache.erase key })
  else (some (c.entryAt key created).content, { c with cache })

def removeEntry (key : String) : Cache := { c with cache := c.cache.erase key }

/-! ## The handlers -/

section Handlers

variable [Jsoncpp]

/-- The key a request names. -/
abbrev keyOf (msg : IncomingMessage) : String := msg.getString "key" ""

/-- The age a request to store gives its entry. -/
def ageOf (msg : IncomingMessage) : ℤ :=
  let maxAge := msg.getInt "max_age" 0
  if maxAge ≠ 0 then maxAge else 5 * 60

/-- The entry `store` makes of a request before it takes the mutex. -/
def entryOf (msg : IncomingMessage) (now : ℤ) : CacheEntry :=
  { CacheEntry.new now with maxAge := ageOf msg, content := some (msg.getRawValue "value") }

def storeFailed (msg : IncomingMessage) : Handled Cache where
  state := { c with statWritesFailed := c.statWritesFailed + 1 }
  sent := [msg.fail .dataInvalidContent "Cannot cache empty key/value."]

/-- `store` from its section on. -/
def storeEntry (msg : IncomingMessage) (entry : CacheEntry) : Handled Cache where
  state := { c.putEntry (keyOf msg) entry with statWrites := c.statWrites + 1 }
  sent := [msg.replyEmpty]

def store (msg : IncomingMessage) (now : ℤ) : Handled Cache :=
  if keyOf msg = "" then c.storeFailed msg else c.storeEntry msg (entryOf msg now)

/-- `retrieve` when it has not found the key. -/
def missed (msg : IncomingMessage) : Handled Cache where
  state := { c with statMisses := c.statMisses + 1 }
  sent := [msg.fail .nullValue]

/-- `retrieve` from its second section on. -/
def retrieveFound (msg : IncomingMessage) (created now : ℤ) : Handled Cache :=
  match c.readEntry (keyOf msg) created now with
  | (none, c) =>
    { state := { c with statHitsExpired := c.statHitsExpired + 1 }, sent := [msg.fail .nullValue] }
  -- `set_deserialized` throws on a text without a value
  | (some none, c) => { state := c, ending := .thrown }
  | (some (some v), c) => replyUnder { c with statHits := c.statHits + 1 } msg (keyOf msg) v

def retrieve (msg : IncomingMessage) (now : ℤ) : Handled Cache :=
  if keyOf msg = "" ∨ keyOf msg ∉ c.cache then c.missed msg else c.retrieveFound msg now now

def remove (msg : IncomingMessage) : Handled Cache where
  state := { c.removeEntry (keyOf msg) with statRemovals := c.statRemovals + 1 }

/-- A request, with the reading of the clock its handler takes. -/
inductive Call where
  | store (msg : IncomingMessage) (now : ℤ)
  | retrieve (msg : IncomingMessage) (now : ℤ)
  | remove (msg : IncomingMessage)

def Call.key : Call → String
  | store msg _ | retrieve msg _ | remove msg => keyOf msg

def handle : Call → Handled Cache
  | .store msg now => c.store msg now
  | .retrieve msg now => c.retrieve msg now
  | .remove msg => c.remove msg

def next (c : Cache) (call : Call) : Option Cache :=
  if (c.handle call).ending ≠ .undefined then some (c.handle call).state else none

/-- **The module as a transition system**: handlers executed one at a time from the empty map. -/
def system : Transition.System Cache Call := .ofNext {} next

/-- A step of a run. -/
abbrev Move := Transition.Move Cache Call

end Handlers

/-! ## What each section leaves -/

@[simp] theorem lookup_putEntry (k key : String) (entry : CacheEntry) :
    (c.putEntry key entry).cache.lookup k = if k = key then some entry else c.cache.lookup k :=
  Map.lookup_insert key k entry c.cache

@[simp] theorem lookup_removeEntry (k key : String) :
    (c.removeEntry key).cache.lookup k = if k = key then none else c.cache.lookup k :=
  Map.lookup_erase key k c.cache

theorem readEntry_fst (key : String) (created now : ℤ) : (c.readEntry key created now).1 =
    if (c.entryAt key created).expired now then none
    else some (c.entryAt key created).content := by
  simp only [readEntry]
  split_ifs <;> rfl

theorem lookup_readEntry (k key : String) (created now : ℤ) :
    (c.readEntry key created now).2.cache.lookup k = if k ≠ key then c.cache.lookup k
      else if (c.entryAt key created).expired now then none
      else some (c.entryAt key created) := by
  cases hx : (c.entryAt key created).expired now with
  | true =>
    simp only [readEntry, hx, if_true, Map.lookup_erase, Map.lookup_emplace, ite_not]
    split_ifs <;> rfl
  | false =>
    simp only [readEntry, hx, Bool.false_eq_true, if_false, Map.lookup_emplace, ite_not]
    rfl

theorem entryAt_of_lookup {c : Cache} {k : String} {e : CacheEntry} (h : c.cache.lookup k = some e)
    (created : ℤ) : c.entryAt k created = e := by
  rw [entryAt, h, Option.getD_some]

theorem lookup_retrieveFound [Jsoncpp] (msg : IncomingMessage) (created now : ℤ) (k : String) :
    (c.retrieveFound msg created now).state.cache.lookup k =
      (c.readEntry (keyOf msg) created now).2.cache.lookup k := by
  unfold retrieveFound
  split <;> rename_i h <;> simp only [h, state_replyUnder]

section Answers

variable [Jsoncpp] {c : Cache} {msg : IncomingMessage} {created now : ℤ}

/-- An entry that has expired is answered with `null_value`. -/
theorem refused_of_expired (hx : (c.entryAt (keyOf msg) created).expired now = true) :
    Refused (c.retrieveFound msg created now) msg .nullValue := by
  have hread := c.readEntry_fst (keyOf msg) created now
  rw [if_pos hx] at hread
  unfold retrieveFound
  split
  · exact refused_fail _ msg .nullValue
  · rename_i h; rw [h] at hread; cases hread
  · rename_i h; rw [h] at hread; cases hread

/-- The content of an entry that has not expired is written under the key. -/
theorem exists_replyUnder {v : Value}
    (hx : (c.entryAt (keyOf msg) created).expired now = false)
    (hv : (c.entryAt (keyOf msg) created).content = some v) :
    ∃ c', c.retrieveFound msg created now = replyUnder c' msg (keyOf msg) v := by
  have hread := c.readEntry_fst (keyOf msg) created now
  rw [hx, hv] at hread
  unfold retrieveFound
  split
  · rename_i h; rw [h] at hread; cases hread
  · rename_i h; rw [h] at hread; cases hread
  · rename_i h
    rw [h] at hread
    cases hread
    exact ⟨_, rfl⟩

end Answers

end Cache

end NixSrv
