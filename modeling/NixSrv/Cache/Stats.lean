import NixSrv.Cache.TimedMap
import NixSrv.Records

/-!
# The statistics of the cache

* `Figures`, `status`: the route that reports the counters, the number of keys and of bytes;
* `Request`, `serve`, **`serving`**: runs of requests to all routes;
* `Accounts`, `StatusAccounts`: the figures account for the requests of a run;
* `Served`, **`served_of_returned`**: what one request does to the counters;
* **`accounts_of_run`**: they account for every run whose handlers return.
-/

namespace NixSrv.Cache

open Json Message Transition Util

/-- The figures `status` reports. -/
structure Figures where
  writes : ℕ
  writesFailed : ℕ
  removals : ℕ
  hits : ℕ
  hitsExpired : ℕ
  misses : ℕ
  totalCalls : ℕ
  cacheSize : ℕ
  bytes : ℕ

/-- The assignments of `status`. -/
def Figures.fields (f : Figures) : List (String × Value) :=
  [("writes", .int f.writes), ("writes_failed", .int f.writesFailed),
    ("removals", .int f.removals), ("hits", .int f.hits), ("hits_expired", .int f.hitsExpired),
    ("misses", .int f.misses), ("total_calls", .int f.totalCalls),
    ("cache_size", .int f.cacheSize), ("bytes", .int f.bytes)]

section Status

variable [JsonText]

/-- The length of the text of a content. -/
def contentSize (entry : CacheEntry) : ℕ :=
  match entry.content with
  | some v => (JsonText.write v).utf8ByteSize
  | none => 0

variable (c : Cache)

def figures : Figures where
  writes := c.statWrites
  writesFailed := c.statWritesFailed
  removals := c.statRemovals
  hits := c.statHits
  hitsExpired := c.statHitsExpired
  misses := c.statMisses
  totalCalls := c.statWrites + c.statWritesFailed + c.statRemovals +
    (c.statHits + c.statHitsExpired + c.statMisses)
  cacheSize := Map.size c.cache
  bytes := Map.total contentSize c.cache

def status (msg : IncomingMessage) : Handled Cache :=
  replyWritten c msg (writes c.figures.fields [])

/-! ## Runs of requests to all routes -/

variable [Jsoncpp]

/-- A request to a route of the module. -/
inductive Request where
  | call (call : Call)
  | status (msg : IncomingMessage)

def serve : Request → Handled Cache
  | .call call => c.handle call
  | .status msg => c.status msg

def serveNext (c : Cache) (r : Request) : Option Cache :=
  if (c.serve r).ending ≠ .undefined then some (c.serve r).state else none

/-- **The module with all its routes as a transition system.** -/
def serving : System Cache Request := .ofNext {} serveNext

/-- A step of a run. -/
abbrev ServedMove := Transition.Move Cache Request

/-- The handler of the request returns. -/
def Returns (m : ServedMove) : Prop := (m.pre.serve m.event).ending = .returned

instance (m : ServedMove) : Decidable (Returns m) := by unfold Returns; infer_instance

def Request.isStore : Request → Bool
  | .call (.store _ _) => true
  | _ => false

def Request.isRetrieve : Request → Bool
  | .call (.retrieve _ _) => true
  | _ => false

def Request.isRemove : Request → Bool
  | .call (.remove _) => true
  | _ => false

/-- The request is answered `ok`. -/
def answeredOk (m : ServedMove) : Bool := (m.pre.serve m.event).sent.any Sent.isOk

/-- The request makes the entry `e` under `k`. -/
def Request.Puts (k : String) (r : Request) (e : CacheEntry) : Prop :=
  match r with
  | .call it => PutsEntry k it e
  | .status _ => False

/-- The entry `e` under `k` ends with the request. -/
def Request.Ends (k : String) (r : Request) (e : CacheEntry) : Prop :=
  match r with
  | .call it => EndsEntry k it e
  | .status _ => False

/-- Among the requests so far to store or to remove `k`, the last one made the entry `e`, and no
request to retrieve has found it expired since. -/
abbrev StandsEntry (hist : List ServedMove) (k : String) (e : CacheEntry) : Prop :=
  Cell.Stands (fun m : ServedMove => m.event.Puts k) (fun m : ServedMove => m.event.Ends k) hist e

/-- The figures account for the requests of a run that has led to the state `c`. -/
structure Accounts (tr : List ServedMove) (c : Cache) (f : Figures) : Prop where
  stores : f.writes + f.writesFailed = tr.countP fun m => m.event.isStore
  retrieves : f.hits + f.hitsExpired + f.misses = tr.countP fun m => m.event.isRetrieve
  removes : f.removals = tr.countP fun m => m.event.isRemove
  hits : f.hits = tr.countP fun m => m.event.isRetrieve && answeredOk m
  total : f.totalCalls =
    f.writes + f.writesFailed + f.removals + f.hits + f.hitsExpired + f.misses
  present : ∀ k e, c.cache.lookup k = some e ↔ StandsEntry tr k e
  size : f.cacheSize = Map.size c.cache
  size_le : f.cacheSize ≤ f.writes
  bytes : f.bytes = Map.total contentSize c.cache

/-- A request for the status after a run is answered with figures that account for the run, and
changes nothing. -/
structure StatusAccounts (tr : List ServedMove) (c : Cache) (msg : IncomingMessage) : Prop where
  returned : (c.status msg).ending = .returned
  unchanged : (c.status msg).state = c
  reply : ∃ out f, (c.status msg).sent = [⟨msg.handle, .reply out⟩] ∧
    (∀ w ∈ f.fields, (ofMembers out).find w.1 = some w.2) ∧ Accounts tr c f

/-! ## One request -/

omit [JsonText] [Jsoncpp] in
/-- The keys of the reply. -/
theorem flat_fields (f : Figures) : (∀ w ∈ f.fields, segments w.1 = [w.1] ∧ w.1 ≠ "@status_code") ∧
    (f.fields.map Prod.fst).Nodup ∧ ∀ w ∈ f.fields, w.2.membersOf? = none := by
  have hkeys : f.fields.map Prod.fst = ["writes", "writes_failed", "removals", "hits",
      "hits_expired", "misses", "total_calls", "cache_size", "bytes"] := rfl
  have hflat : ∀ k ∈ ["writes", "writes_failed", "removals", "hits", "hits_expired", "misses",
      "total_calls", "cache_size", "bytes"], segments k = [k] ∧ k ≠ "@status_code" := by decide
  refine ⟨fun w hw => hflat _ (hkeys ▸ List.mem_map_of_mem hw), by rw [hkeys]; decide, ?_⟩
  intro w hw
  simp only [Figures.fields, List.mem_cons, List.not_mem_nil, or_false] at hw
  rcases hw with rfl | rfl | rfl | rfl | rfl | rfl | rfl | rfl | rfl <;> rfl

omit [Jsoncpp] in
/-- **A request for the status is answered with all figures.** -/
theorem status_eq (msg : IncomingMessage) : ∃ out, c.status msg =
    { state := c, sent := [msg.reply out] } ∧
      ∀ w ∈ c.figures.fields, (ofMembers (out.setStatusCode .ok)).find w.1 = some w.2 := by
  obtain ⟨hk, hnd, hv⟩ := flat_fields c.figures
  obtain ⟨out, hout, hfound⟩ := find_of_flat hk hnd hv
  exact ⟨out, by rw [status, hout]; rfl, hfound⟩

/-- What a request whose handler returns does to the cache, and whether it is answered `ok`. -/
inductive Served (c : Cache) : Request → Cache → Bool → Prop
  | written (msg : IncomingMessage) (now : ℤ) (cache : Map String CacheEntry)
      (h : Map.size cache ≤ Map.size c.cache + 1) : Served c (.call (.store msg now))
        { c with cache, statWrites := c.statWrites + 1 } true
  | writeFailed (msg : IncomingMessage) (now : ℤ) : Served c (.call (.store msg now))
        { c with statWritesFailed := c.statWritesFailed + 1 } false
  | hit (msg : IncomingMessage) (now : ℤ) (cache : Map String CacheEntry)
      (h : Map.size cache ≤ Map.size c.cache) : Served c (.call (.retrieve msg now))
        { c with cache, statHits := c.statHits + 1 } true
  | hitExpired (msg : IncomingMessage) (now : ℤ) (cache : Map String CacheEntry)
      (h : Map.size cache ≤ Map.size c.cache) : Served c (.call (.retrieve msg now))
        { c with cache, statHitsExpired := c.statHitsExpired + 1 } false
  | missed (msg : IncomingMessage) (now : ℤ) : Served c (.call (.retrieve msg now))
        { c with statMisses := c.statMisses + 1 } false
  | removed (msg : IncomingMessage) (cache : Map String CacheEntry)
      (h : Map.size cache ≤ Map.size c.cache) : Served c (.call (.remove msg))
        { c with cache, statRemovals := c.statRemovals + 1 } false
  | status (msg : IncomingMessage) : Served c (.status msg) c true

variable {c}

omit [JsonText] in
theorem served_retrieveFound {msg : IncomingMessage} {now : ℤ} (hm : keyOf msg ∈ c.cache)
    (h : (c.retrieveFound msg now now).ending = .returned) :
    Served c (.call (.retrieve msg now)) (c.retrieveFound msg now now).state
      ((c.retrieveFound msg now now).sent.any Sent.isOk) := by
  have hemplace : Map.emplace (keyOf msg) (CacheEntry.new now) c.cache = c.cache := if_pos hm
  by_cases hx : (c.entryAt (keyOf msg) now).expired now = true
  · have hread : c.readEntry (keyOf msg) now now =
        (none, { c with cache := c.cache.erase (keyOf msg) }) := by
      simp only [readEntry, hx, if_true, hemplace]
    have heq : c.retrieveFound msg now now =
        { state := { c with
            cache := c.cache.erase (keyOf msg), statHitsExpired := c.statHitsExpired + 1 }
          sent := [msg.fail .nullValue] } := by
      simp only [retrieveFound, hread]
    rw [heq]
    exact .hitExpired msg now _ (Map.size_erase_le _ _)
  · have hread : c.readEntry (keyOf msg) now now =
        (some (c.entryAt (keyOf msg) now).content, c) := by
      simp only [readEntry, hx, hemplace, Bool.false_eq_true, if_false]
    cases hv : (c.entryAt (keyOf msg) now).content with
    | none =>
      rw [hv] at hread
      simp only [retrieveFound, hread] at h
      cases h
    | some v =>
      rw [hv] at hread
      have heq : c.retrieveFound msg now now =
          replyUnder { c with statHits := c.statHits + 1 } msg (keyOf msg) v := by
        simp only [retrieveFound, hread]
      rw [heq] at h ⊢
      unfold replyUnder at h ⊢
      cases hset : Members.set [] (keyOf msg) v with
      | error e =>
        rw [hset] at h
        cases e <;> cases h
      | ok ms =>
        simp only [List.any_cons, List.any_nil, isOk_reply, Bool.or_false, decide_true]
        exact .hit msg now _ le_rfl

/-- **What a request whose handler returns does.** -/
theorem served_of_returned {r : Request} (h : (c.serve r).ending = .returned) :
    Served c r (c.serve r).state ((c.serve r).sent.any Sent.isOk) := by
  cases r with
  | status msg =>
    obtain ⟨out, hout, -⟩ := c.status_eq msg
    rw [serve, hout]
    simp only [List.any_cons, List.any_nil, isOk_reply, Bool.or_false, decide_true]
    exact .status msg
  | call call =>
    cases call with
    | store msg now =>
      simp only [serve, handle, store] at h ⊢
      split_ifs
      · exact .writeFailed msg now
      · simp only [storeEntry, List.any_cons, List.any_nil, isOk_replyEmpty, Bool.or_false]
        exact .written msg now _ (Map.size_insert_le _ _ _)
    | retrieve msg now =>
      simp only [serve, handle, retrieve] at h ⊢
      split_ifs at h ⊢ with hm
      · exact .missed msg now
      · push Not at hm
        exact served_retrieveFound hm.2 h
    | remove msg => exact .removed msg _ (Map.size_erase_le _ _)

/-! ## Runs -/

theorem serving_step_iff {c' : Cache} {r : Request} : serving.step c r c' ↔
    (c.serve r).ending ≠ .undefined ∧ c' = (c.serve r).state := by
  change serveNext c r = some c' ↔ _
  unfold serveNext
  split_ifs with h
  · simp [h, eq_comm]
  · simp [h]

/-- The counters account for the requests of a run. -/
structure Tallied (tr : List ServedMove) (c : Cache) : Prop where
  stores : c.statWrites + c.statWritesFailed = tr.countP fun m => m.event.isStore
  retrieves : c.statHits + c.statHitsExpired + c.statMisses =
    tr.countP fun m => m.event.isRetrieve
  removes : c.statRemovals = tr.countP fun m => m.event.isRemove
  hits : c.statHits = tr.countP fun m => m.event.isRetrieve && answeredOk m
  size_le : Map.size c.cache ≤ c.statWrites

omit [JsonText] [Jsoncpp] in
/-- What a request adds to the counters. -/
theorem Served.counters {c c' : Cache} {r : Request} {ok : Bool} (h : Served c r c' ok) :
    c'.statWrites + c'.statWritesFailed =
        c.statWrites + c.statWritesFailed + (if r.isStore then 1 else 0) ∧
      c'.statHits + c'.statHitsExpired + c'.statMisses =
        c.statHits + c.statHitsExpired + c.statMisses + (if r.isRetrieve then 1 else 0) ∧
      c'.statRemovals = c.statRemovals + (if r.isRemove then 1 else 0) ∧
      c'.statHits = c.statHits + (if r.isRetrieve && ok then 1 else 0) ∧
      Map.size c'.cache + c.statWrites ≤ Map.size c.cache + c'.statWrites := by
  cases h <;> simp [Request.isStore, Request.isRetrieve, Request.isRemove] <;> omega

/-- **A request whose handler returns is accounted for.** -/
theorem Tallied.step {tr : List ServedMove} {m : ServedMove} (h : Tallied tr m.pre)
    (hserved : Served m.pre m.event m.post (answeredOk m)) : Tallied (tr ++ [m]) m.post := by
  have hcount : ∀ p : ServedMove → Bool,
      (tr ++ [m]).countP p = tr.countP p + if p m then 1 else 0 := by
    intro p
    rw [List.countP_append, List.countP_singleton]
  obtain ⟨hstores, hretrieves, hremoves, hhits, hsize⟩ := h
  obtain ⟨hs, hr, hm, hh, hle⟩ := hserved.counters
  exact ⟨by rw [hcount, hs, hstores], by rw [hcount, hr, hretrieves], by rw [hcount, hm, hremoves],
    by rw [hcount, hh, hhits], by omega⟩

theorem tallied_of_run {tr : List ServedMove} (hr : Run serving tr c)
    (hret : EachMove (fun _ m => Returns m) tr) : Tallied tr c := by
  refine hr.invariant (I := Tallied) ?_ ?_ hret
  · rintro _ rfl
    exact ⟨rfl, rfl, rfl, rfl, le_rfl⟩
  · intro tr c r c' _ ih hs hret
    obtain ⟨-, rfl⟩ := serving_step_iff.mp hs
    exact Tallied.step (m := ⟨c, r, _⟩) ih (served_of_returned hret)

/-- No request makes an entry under the empty key. -/
theorem lookup_serve_empty {r : Request} (h : c.cache.lookup "" = none) :
    (c.serve r).state.cache.lookup "" = none := by
  cases r with
  | status msg =>
    obtain ⟨out, hout, -⟩ := c.status_eq msg
    rw [serve, hout]
    exact h
  | call call =>
    by_cases hk : "" = call.key
    · cases call with
      | store msg now =>
        have hempty : keyOf msg = "" := hk.symm
        rw [serve, handle, store, if_pos hempty]
        exact h
      | retrieve msg now =>
        have hempty : keyOf msg = "" := hk.symm
        rw [serve, handle, retrieve, if_pos (Or.inl hempty)]
        exact h
      | remove msg => exact (lookup_removeEntry c "" (keyOf msg)).trans (if_pos hk)
    · exact (lookup_handle_ne c hk).trans h

omit [JsonText] in
theorem Request.Puts.key_ne {k : String} {r : Request} {e : CacheEntry} (h : r.Puts k e) :
    k ≠ "" := by
  cases r with
  | status msg => exact h.elim
  | call call =>
    cases call with
    | store msg now => exact h.2.1
    | retrieve | remove => exact h.elim

/-- The entry of a key after a request to any route. -/
theorem lookup_serve {r : Request} {k : String} (hk : k ≠ "") (e : CacheEntry) :
    (c.serve r).state.cache.lookup k = some e ↔
      r.Puts k e ∨ c.cache.lookup k = some e ∧ ¬ r.Ends k e := by
  cases r with
  | status msg =>
    obtain ⟨out, hout, -⟩ := c.status_eq msg
    rw [serve, hout]
    simp [Request.Puts, Request.Ends]
  | call call => exact lookup_handle_entry hk e

/-- **After every run the map holds the entries that stand.** -/
theorem lookup_iff_stands {tr : List ServedMove} (hr : Run serving tr c) :
    ∀ k e, c.cache.lookup k = some e ↔ StandsEntry tr k e := by
  have hempty : c.cache.lookup "" = none := by
    refine hr.state_invariant (I := fun c => c.cache.lookup "" = none) ?_ ?_
    · rintro _ rfl
      rfl
    · intro c r c' ih hs
      obtain ⟨-, rfl⟩ := serving_step_iff.mp hs
      exact lookup_serve_empty ih
  intro k e
  by_cases hk : k = ""
  · subst hk
    refine iff_of_false (fun h => ?_) ?_
    · cases hempty.symm.trans h
    · rintro ⟨-, m, -, -, hp, -⟩
      exact hp.key_ne rfl
  · clear hempty
    induction hr generalizing e with
    | nil h =>
      cases h
      refine iff_of_false (fun h => ?_) (Cell.not_stands_nil e)
      cases h
    | snoc hr hs ih =>
      obtain ⟨-, rfl⟩ := serving_step_iff.mp hs
      refine Iff.trans ?_ (Cell.stands_snoc _ _ _).symm
      rw [lookup_serve hk, ih]

/-- **The figures account for every run whose handlers return.** -/
theorem accounts_of_run {tr : List ServedMove} (hr : Run serving tr c)
    (hret : EachMove (fun _ m => Returns m) tr) (msg : IncomingMessage) :
    StatusAccounts tr c msg := by
  obtain ⟨hstores, hretrieves, hremoves, hhits, hsize⟩ := tallied_of_run hr hret
  obtain ⟨out, hout, hfound⟩ := c.status_eq msg
  refine ⟨by rw [hout], by rw [hout], out.setStatusCode .ok, c.figures, by rw [hout]; rfl, hfound,
    ?_⟩
  have htotal : c.figures.totalCalls = c.statWrites + c.statWritesFailed + c.statRemovals +
      c.statHits + c.statHitsExpired + c.statMisses := by
    simp only [figures]
    omega
  exact ⟨hstores, hretrieves, hremoves, hhits, htotal, lookup_iff_stands hr, rfl, hsize, rfl⟩

end Status

section Sample

attribute [local instance] Jsoncpp.integral

/-- A writer and a reader that know the text `v` only. -/
@[reducible] def textOfV : JsonText where
  write v := match v with
    | .string s => "\"" ++ s ++ "\"\n"
    | _ => "null\n"
  read s := if s = "\"v\"\n" then some (.string "v") else none

attribute [local instance] textOfV

/-- A store, a store without a key, a hit, an expired hit, a miss, a removal and two requests for
the status. -/
def sampleRequests : List Request :=
  [.call (.store (requestFor "a" [("value", .string "v")]) 10), .call (.store (requestFor "") 10),
    .status (requestFor ""), .call (.retrieve (requestFor "a") 12),
    .call (.retrieve (requestFor "a") 999), .call (.retrieve (requestFor "a") 999),
    .call (.store (requestFor "b" [("value", .string "v")]) 1000), .call (.remove (requestFor "a")),
    .status (requestFor "")]

/-- The run of the sample requests, and the cache after it. -/
abbrev sampleRun : List ServedMove × Cache := traceOf serveNext {} sampleRequests

theorem accounts_sampleRun : StatusAccounts sampleRun.1 sampleRun.2 (requestFor "") :=
  accounts_of_run (run_traceOf (by decide)) (by decide) _

end Sample

end NixSrv.Cache
