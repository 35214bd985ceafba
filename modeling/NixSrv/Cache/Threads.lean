import Mathlib.Logic.Function.Basic
import Mathlib.Data.Fin.Basic
import NixSrv.Cache.Model
import NixSrv.Lib.Cell

/-!
# The cache under several threads

`D` threads handle requests to the cache. A step is a section under the mutex with the code up to
the next one, which touches what is the thread's own and the counters only. `retrieve` counts the
key in one section and reads its entry in another.

* `Pc`, `Threads`, `Event`, `Threads.perform`, **`Threads.system`**: places, states, steps and runs;
* `writeTo`, `standing`: what the steps so far have stored under a key and not ended;
* `Sound`: what is in the map and what is answered was stored;
* `FindsEntry`, **`sound_iff`**: when every step of a run is sound.
-/

namespace NixSrv.Cache

open Json Transition

/-- Where a thread is. -/
inductive Pc where
  | out
  /-- Before the section of `store`, for an entry made at the given time. -/
  | store (msg : IncomingMessage) (now : ℤ)
  /-- Before the first section of `retrieve`. -/
  | retrieve (msg : IncomingMessage)
  /-- Before the second section of `retrieve`. -/
  | found (msg : IncomingMessage)
  | remove (msg : IncomingMessage)

/-- The request to retrieve a thread is at. -/
def Pc.retrieving : Pc → Option IncomingMessage
  | retrieve msg | found msg => some msg
  | _ => none

inductive Event (D : ℕ) where
  /-- A thread gets a request. -/
  | call (t : Fin D) (call : Call)
  /-- A thread makes a step. In the second section of `retrieve` it reads the clock at `created`, if
  an entry is made, and at `now`. -/
  | run (t : Fin D) (created now : ℤ)

structure Threads (D : ℕ) where
  module : Cache := {}
  threads : Fin D → Pc := fun _ => .out

namespace Threads

section Steps

variable [Jsoncpp] {D : ℕ}

/-- The code of a handler before its first section. -/
def start (c : Cache) : Call → Handled Cache × Pc
  | .store msg now =>
    if keyOf msg = "" then (c.storeFailed msg, .out) else ({ state := c }, .store msg now)
  -- the clock is not read before the second section
  | .retrieve msg _ => ({ state := c }, .retrieve msg)
  | .remove msg => ({ state := c }, .remove msg)

/-- A section of a handler and the code after it. -/
def proceed (c : Cache) (created now : ℤ) : Pc → Option (Handled Cache × Pc)
  | .out => none
  | .store msg made => some (c.storeEntry msg (entryOf msg made), .out)
  | .retrieve msg =>
    if keyOf msg = "" ∨ keyOf msg ∉ c.cache then some (c.missed msg, .out)
    else some ({ state := c }, .found msg)
  | .found msg => some (c.retrieveFound msg created now, .out)
  | .remove msg => some (c.remove msg, .out)

/-- What an event comes to: the thread, what its step does, and where it is afterwards. -/
def perform (s : Threads D) : Event D → Option (Fin D × Handled Cache × Pc)
  | .call t call =>
    match s.threads t with
    | .out => some (t, start s.module call)
    | _ => none
  | .run t created now => (proceed s.module created now (s.threads t)).map (t, ·)

def next (s : Threads D) (e : Event D) : Option (Threads D) :=
  (s.perform e).map fun (t, o, pc) => ⟨o.state, Function.update s.threads t pc⟩

/-- **The module under `D` threads**, whose steps are interleaved in any way. -/
def system (D : ℕ) : System (Threads D) (Event D) := .ofNext {} next

/-- A step of a run. -/
abbrev Move (D : ℕ) := Transition.Move (Threads D) (Event D)

/-! ## What was stored -/

/-- What a step does to the content stored under a key. -/
def writeTo (k : String) (m : Move D) : Cell.Write Value :=
  match m.event with
  | .call _ _ => .keep
  | .run t _ now =>
    match m.pre.threads t with
    | .store msg _ => if keyOf msg = k then .put (msg.getRawValue "value") else .keep
    | .remove msg => if keyOf msg = k then .drop else .keep
    | .found msg =>
      if keyOf msg = k ∧ (m.pre.module.cache.lookup k).any (·.expired now) then .drop else .keep
    | _ => .keep

/-- The content of the last store under a key, if no removal or expiry has ended it since. -/
def standing (hist : List (Move D)) (k : String) : Option Value := Cell.content (writeTo k) hist

theorem standing_snoc (hist : List (Move D)) (m : Move D) (k : String) :
    standing (hist ++ [m]) k = (writeTo k m).apply (standing hist k) :=
  Cell.content_snoc hist m

/-- Every entry has the content that stands under its key. -/
def Faithful (hist : List (Move D)) (c : Cache) : Prop :=
  ∀ k e, c.cache.lookup k = some e → ∃ v, e.content = some v ∧ standing hist k = some v

/-- A retrieve is answered with a content that stands, or with `null_value`, and returns. -/
def Answered (hist : List (Move D)) (o : Handled Cache) (msg : IncomingMessage) : Prop :=
  Refused o msg .nullValue ∨
    ∃ v, standing hist (keyOf msg) = some v ∧ Obtains o msg (keyOf msg) v ∧ o.ending = .returned

/-- After the step the map holds what stands, and a retrieve that ends with the step is answered
with what stands before it or with `null_value`. -/
structure Sound (hist : List (Move D)) (m : Move D) : Prop where
  entries : Faithful (hist ++ [m]) m.post.module
  answered : ∀ t o msg, m.pre.perform m.event = some (t, o, .out) →
    (m.pre.threads t).retrieving = some msg → Answered hist o msg

/-- The second section of a retrieve finds the key still there, with a content that can be read in
the answer if it has not expired, or an entry made there expires at once. -/
def FindsEntry (m : Move D) : Prop :=
  match m.event with
  | .run t created now =>
    match m.pre.threads t with
    | .found msg =>
      match m.pre.module.cache.lookup (keyOf msg) with
      | some e => e.expired now = false → ∀ v, e.content = some v →
          readUnder (keyOf msg) v = some v
      | none => (CacheEntry.new created).expired now = true
    | _ => True
  | _ => True

/-! ## One step -/

variable {s s' : Threads D} {e : Event D}

theorem step_iff : (system D).step s e s' ↔
    ∃ t o pc, s.perform e = some (t, o, pc) ∧ s' = ⟨o.state, Function.update s.threads t pc⟩ := by
  change (s.perform e).map _ = some s' ↔ _
  constructor
  · intro h
    obtain ⟨⟨t, o, pc⟩, hp, rfl⟩ := Option.map_eq_some_iff.mp h
    exact ⟨t, o, pc, hp, rfl⟩
  · rintro ⟨t, o, pc, hp, rfl⟩
    rw [hp]
    rfl

/-- Entries that a step makes or keeps as the history of their key says. -/
theorem Faithful.of_lookup {hist : List (Move D)} {m : Move D} {c c' : Cache}
    (h : Faithful hist c) (hl : ∀ k e, c'.cache.lookup k = some e →
      (∃ v, e.content = some v ∧ writeTo k m = .put v) ∨
        c.cache.lookup k = some e ∧ writeTo k m = .keep) : Faithful (hist ++ [m]) c' := by
  intro k e he
  rw [standing_snoc]
  rcases hl k e he with ⟨v, hv, hw⟩ | ⟨he, hw⟩
  · rw [hw]
    exact ⟨v, hv, rfl⟩
  · rw [hw]
    exact h k e he

theorem state_start (c : Cache) (call : Call) : (start c call).1.state.cache = c.cache := by
  cases call with
  | store msg now => simp only [start]; split_ifs <;> rfl
  | retrieve | remove => rfl

/-- **A step that finds its entry keeps what is in the map faithful to the history.** -/
theorem faithful_of_step {hist : List (Move D)} {t : Fin D} {o : Handled Cache} {pc : Pc}
    (hf : Faithful hist s.module) (hp : s.perform e = some (t, o, pc))
    (hfind : FindsEntry ⟨s, e, s'⟩) : Faithful (hist ++ [⟨s, e, s'⟩]) o.state := by
  cases e with
  | call t call =>
    simp only [perform] at hp
    split at hp
    · have ho : (start s.module call).1 = o := congrArg (·.2.1) (Option.some.inj hp)
      refine hf.of_lookup fun k e he => Or.inr ⟨?_, rfl⟩
      rwa [← ho, state_start] at he
    · cases hp
  | run t created now =>
    simp only [perform] at hp
    cases hpc : s.threads t with
    | out => rw [hpc] at hp; cases hp
    | store msg made =>
      rw [hpc] at hp
      cases hp
      refine hf.of_lookup fun k e he => ?_
      simp only [storeEntry, lookup_putEntry] at he
      simp only [writeTo, hpc]
      split_ifs at he with hk
      · cases he
        exact Or.inl ⟨_, rfl, if_pos hk.symm⟩
      · exact Or.inr ⟨he, if_neg (Ne.symm hk)⟩
    | retrieve msg =>
      rw [hpc] at hp
      simp only [proceed] at hp
      refine hf.of_lookup fun k e he => Or.inr ⟨?_, by simp only [writeTo, hpc]⟩
      split_ifs at hp <;> cases hp <;> exact he
    | found msg =>
      rw [hpc] at hp
      cases hp
      refine hf.of_lookup fun k e he => Or.inr ?_
      rw [lookup_retrieveFound, lookup_readEntry] at he
      simp only [writeTo, hpc]
      split_ifs at he with hk hx
      · exact ⟨he, if_neg fun h => hk h.1.symm⟩
      · obtain rfl := not_not.mp hk
        have hread := hfind
        simp only [FindsEntry, hpc] at hread
        cases hl : s.module.cache.lookup (keyOf msg) with
        | none =>
          simp only [hl] at hread
          exact absurd hread (by rwa [entryAt, hl] at hx)
        | some e' =>
          rw [entryAt_of_lookup hl] at he hx
          cases he
          exact ⟨rfl, if_neg fun h => hx h.2⟩
    | remove msg =>
      rw [hpc] at hp
      cases hp
      refine hf.of_lookup fun k e he => Or.inr ?_
      simp only [remove, lookup_removeEntry] at he
      simp only [writeTo, hpc]
      split_ifs at he with hk
      exact ⟨he, if_neg (Ne.symm hk)⟩

/-- A retrieve is answered as it should be by a step that finds its entry. -/
theorem answered_of_step {hist : List (Move D)} {t : Fin D} {o : Handled Cache}
    {msg : IncomingMessage} (hf : Faithful hist s.module) (hp : s.perform e = some (t, o, .out))
    (hmsg : (s.threads t).retrieving = some msg) (hfind : FindsEntry ⟨s, e, s'⟩) :
    Answered hist o msg := by
  cases e with
  | call u call =>
    simp only [perform] at hp
    split at hp
    · rename_i hu
      obtain rfl : u = t := congrArg Prod.fst (Option.some.inj hp)
      rw [hu] at hmsg
      cases hmsg
    · cases hp
  | run u created now =>
    obtain ⟨⟨o', pc⟩, hpr, hp⟩ := Option.map_eq_some_iff.mp hp
    cases hp
    cases hpc : s.threads t with
    | out | store | remove => rw [hpc] at hmsg; cases hmsg
    | retrieve msg' =>
      rw [hpc] at hmsg hpr
      cases hmsg
      simp only [proceed] at hpr
      split_ifs at hpr
      · cases hpr
        exact Or.inl (refused_fail _ msg .nullValue)
      · cases hpr
    | found msg' =>
      have hread := hfind
      simp only [FindsEntry, hpc] at hread
      rw [hpc] at hmsg hpr
      cases hmsg
      cases hpr
      cases hl : s.module.cache.lookup (keyOf msg) with
      | none =>
        simp only [hl] at hread
        exact Or.inl (refused_of_expired (by rwa [entryAt, hl]))
      | some e =>
        simp only [hl] at hread
        cases hx : e.expired now with
        | true => exact Or.inl (refused_of_expired (by rwa [entryAt_of_lookup hl]))
        | false =>
          obtain ⟨v, hv, hst⟩ := hf _ e hl
          have hback := hread hx v hv
          rw [← entryAt_of_lookup hl created] at hx hv
          obtain ⟨c', hret⟩ := exists_replyUnder hx hv
          rw [hret]
          refine Or.inr ⟨v, hst, (obtains_replyUnder c' msg _ v v).mpr hback, ?_⟩
          exact ending_replyUnder c' msg (fun hk => by simp [readUnder, hk] at hback) v

/-- **A sound step finds its entry.** -/
theorem findsEntry_of_sound {hist : List (Move D)} (hf : Faithful hist s.module)
    (h : (system D).step s e s') (hx : Sound hist ⟨s, e, s'⟩) : FindsEntry ⟨s, e, s'⟩ := by
  obtain ⟨u, o, pc, hp, rfl⟩ := step_iff.mp h
  cases e with
  | call => exact trivial
  | run t created now =>
    cases hpc : s.threads t with
    | out | store | retrieve | remove => simp only [FindsEntry, hpc]
    | found msg =>
      simp only [FindsEntry, hpc]
      have hp' : s.perform (.run t created now) =
          some (t, s.module.retrieveFound msg created now, .out) := by
        simp only [perform, hpc]
        rfl
      obtain ⟨rfl, rfl, rfl⟩ : u = t ∧ o = s.module.retrieveFound msg created now ∧ pc = .out := by
        simpa using hp.symm.trans hp'
      have hans := hx.answered u _ msg hp (by simp only [hpc]; rfl)
      cases hl : s.module.cache.lookup (keyOf msg) with
      | none =>
        by_contra hne
        have hentry : s.module.entryAt (keyOf msg) created = CacheEntry.new created := by
          rw [entryAt, hl, Option.getD_none]
        have hleft : (s.module.retrieveFound msg created now).state.cache.lookup (keyOf msg) =
            some (CacheEntry.new created) := by
          rw [lookup_retrieveFound, lookup_readEntry, hentry]
          simp [hne]
        obtain ⟨v, hv, -⟩ := hx.entries _ _ hleft
        cases hv
      | some e =>
        intro hx v hv
        obtain ⟨v', hv', hst⟩ := hf _ e hl
        obtain rfl : v' = v := Option.some.inj (hv'.symm.trans hv)
        rw [← entryAt_of_lookup hl created] at hx hv
        obtain ⟨c', hret⟩ := exists_replyUnder hx hv
        rw [hret] at hans
        rcases hans with hno | ⟨w, hw, hob, -⟩
        · exact absurd hno (not_refused_replyUnder c' msg _ v' (by decide))
        · obtain rfl : v' = w := Option.some.inj (hst.symm.trans hw)
          exact (obtains_replyUnder c' msg _ v' v').mp hob

/-! ## Runs -/

theorem faithful_of_run {tr : List (Move D)} (hr : Run (system D) tr s)
    (hfind : EachMove (fun _ m => FindsEntry m) tr) : Faithful tr s.module := by
  refine hr.invariant (I := fun tr s => Faithful tr s.module) ?_ ?_ hfind
  · rintro _ rfl k e he
    cases he
  · intro tr s e s' _ ih h hfind
    obtain ⟨t, o, pc, hp, rfl⟩ := step_iff.mp h
    exact faithful_of_step ih hp hfind

/-- **Every step of a run is sound exactly when every second section of a retrieve finds the key
still there, with a content that can be read in the answer, or makes an entry that expires at
once.** -/
theorem sound_iff {tr : List (Move D)} (hr : Run (system D) tr s) :
    EachMove Sound tr ↔ EachMove (fun _ m => FindsEntry m) tr := by
  refine hr.eachMove_iff fun tr s e s' hr hfind h => ?_
  have hf := faithful_of_run hr hfind
  refine ⟨findsEntry_of_sound hf h, fun hm => ⟨?_, fun t o msg hp hmsg => ?_⟩⟩
  · obtain ⟨t, o, pc, hp, rfl⟩ := step_iff.mp h
    exact faithful_of_step hf hp hm
  · exact answered_of_step hf hp hmsg hm

end Steps

section Sample

attribute [local instance] Jsoncpp.integral

/-- A request about the key `k`. -/
def requestFor (handle : ℕ) (members : Members := []) : IncomingMessage :=
  ⟨⟨.object (("key", .string "k") :: members)⟩, handle, rfl⟩

/-- The run of two threads with the given events, and its last state. -/
abbrev runOf (es : List (Event 2)) : List (Move 2) × Threads 2 := traceOf next {} es

/-- A value is stored at time 10. -/
def storing : List (Event 2) :=
  [.call 0 (.store (requestFor 1 [("value", .string "v")]) 10), .run 0 0 0]

/-- The value is removed after it has been retrieved. -/
def removeAfter : List (Event 2) :=
  storing ++ [.call 1 (.retrieve (requestFor 2) 11), .call 0 (.remove (requestFor 3)),
    .run 1 11 11, .run 1 11 11, .run 0 11 11]

/-- The value is removed between the two sections of a retrieve. -/
def removeBetween : List (Event 2) :=
  storing ++ [.call 1 (.retrieve (requestFor 2) 11), .call 0 (.remove (requestFor 3)),
    .run 1 11 11, .run 0 11 11, .run 1 11 11]

theorem sound_iff_removeAfter : EachMove Sound (runOf removeAfter).1 := by
  refine (sound_iff (run_traceOf (by decide))).mpr ?_
  refine ⟨trivial, trivial, trivial, trivial, trivial, fun _ v hv => ?_, trivial, trivial⟩
  cases hv
  rfl

/-- The second section makes an entry with no content, on which the handler throws. -/
theorem not_sound_removeBetween : ∃ s, Run (system 2) (runOf removeBetween).1 s ∧
    "k" ∈ s.module.cache ∧ standing (runOf removeBetween).1 "k" = none ∧
    ¬ EachMove Sound (runOf removeBetween).1 := by
  have hr : Run (system 2) (runOf removeBetween).1 _ := run_traceOf (by decide)
  refine ⟨_, hr, by decide, rfl, fun h => ?_⟩
  have hfinds : EachMove (fun _ m => FindsEntry m) (runOf removeBetween).1 :=
    hr.eachMove_imp
      (fun _ _ _ _ hr _ hfind hs => findsEntry_of_sound (faithful_of_run hr hfind) hs) h
  obtain ⟨-, -, -, -, -, -, hlast, -⟩ := hfinds
  have hexpired : (CacheEntry.new 11).expired 11 = true := hlast
  exact absurd hexpired (by decide)

end Sample

end Threads

end NixSrv.Cache
