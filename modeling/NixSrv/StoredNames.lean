import NixSrv.Cache.TimedMap
import NixSrv.Resolver.Registry
import NixSrv.Response

/-!
# Values under names of the client, as it reads them

The client parses the answer of `Cache::retrieve` or `Resolver::resolve` and looks under the name it
has sent.

* `ReadsOk`: the one answer has the status `ok`, and the client reads from it what it should;
* `RawReadable`, `TextReadable`: the names under which that works;
* **`reads_back_iff`**: it works for these names only, after every run of the two modules.
-/

namespace NixSrv

open Json Transition

/-- The sender of `msg` gets one answer, a response with the status `ok` that satisfies `P`. -/
def ReadsOk {σ : Type*} (o : Handled σ) (msg : IncomingMessage) (P : Response → Prop) : Prop :=
  ∃ m, o.sent = [⟨msg.handle, .reply m⟩] ∧ (Message.ofMembers m).response.isStatusOk = true ∧
    P (Message.ofMembers m).response

/-- The name has a segment, the first one is not the name of the status, or `v` is what is found
there in its place. -/
def RawReadable (k : String) (v : Value) : Prop :=
  match Util.split k [] "." with
  | [] => False
  | [s] => s = "@status_code" → v = .int 0
  | s :: _ => s = "@status_code" → v = .null

/-- `RawReadable`, for a text that is not empty. -/
def TextReadable (k a : String) : Prop :=
  match Util.split k [] "." with
  | [] => False
  | [s] => s = "@status_code" → a = "0"
  | s :: _ => s ≠ "@status_code"

/-- What `find` gives in the answer under the name. -/
theorem readsOk_replyUnder {σ : Type*} (state : σ) (msg : IncomingMessage) (k : String) (v : Value)
    (P : Option Value → Prop) :
    ReadsOk (replyUnder state msg k v) msg (fun r => P (r.find k)) ↔
      Util.split k [] "." ≠ [] ∧ P (readUnder k v) := by
  by_cases hk : Util.split k [] "." = []
  · simp [ReadsOk, replyUnder, Members.set, hk, setPath]
  · obtain ⟨ms, hs, hv⟩ := exists_set_valueUnder hk msg v
    rw [valueUnder_reply] at hv
    simp only [ReadsOk, replyUnder, hs, ne_eq, hk, not_false_iff, true_and, ← hv]
    constructor
    · rintro ⟨m, hsent, -, hp⟩
      cases hsent
      exact hp
    · intro hp
      refine ⟨ms.setStatusCode .ok, rfl, ?_, hp⟩
      exact (decodes_of_lookup (lookup_setStatusCode ms .ok)).ok.mpr rfl

theorem rawReadable_iff (k : String) (v : Value) :
    RawReadable k v ↔ Util.split k [] "." ≠ [] ∧ (readUnder k v).getD .null = v := by
  unfold RawReadable readUnder
  split
  · simp [*]
  · rename_i s h
    by_cases hs : s = "@status_code" <;> simp [h, hs, StatusCode.toInt, eq_comm]
  · rename_i s ks hne h
    by_cases hs : s = "@status_code" <;> simp [h, hs, eq_comm]

theorem textReadable_iff [Jsoncpp] (k : String) {a : String} (ha : a ≠ "") :
    TextReadable k a ↔
      Util.split k [] "." ≠ [] ∧
        ((readUnder k (.string a)).bind Value.asString?).getD "" = a := by
  unfold TextReadable readUnder
  split
  · simp [*]
  · rename_i s h
    by_cases hs : s = "@status_code"
    · have hzero : toString StatusCode.ok.toInt = "0" := rfl
      simp [h, hs, Value.asString?, hzero, eq_comm]
    · simp [h, hs, Value.asString?]
  · rename_i s ks hne h
    by_cases hs : s = "@status_code"
    · simp [h, hs, Ne.symm ha]
    · simp [h, hs, Value.asString?]

section Runs

variable [Jsoncpp]

/-- A value that is fresh in the cache, as the client reads it from the answer of `retrieve`. -/
theorem readsOk_retrieve_iff {tr : List Cache.Move} {c : Cache} (hc : Run Cache.system tr c)
    (hfit : EachMove (fun _ m => m.event.ClockFits) tr) {msg : IncomingMessage} {t : ℤ} {v : Value}
    (hfresh : Cache.Fresh tr (Cache.keyOf msg) t v) :
    ReadsOk (c.retrieve msg t) msg (fun r => r.getRawValue (Cache.keyOf msg) = v) ↔
      RawReadable (Cache.keyOf msg) v := by
  obtain ⟨x, hst, -⟩ := id hfresh
  have hk := Cache.Stands.key_ne hst
  obtain ⟨e, hl, hx, hv⟩ := (Cache.fresh_iff (Cache.holds_of_run hc hfit) hk t v).mp hfresh
  obtain ⟨c', hret⟩ := Cache.retrieve_of_fresh hk hl hx hv
  rw [hret, rawReadable_iff]
  exact readsOk_replyUnder c' msg _ v fun o => o.getD .null = v

/-- An address that is bound, as the client reads it from the answer of `resolve`. -/
theorem readsOk_resolve_iff {tr : List Resolver.Move} {r : Resolver}
    (hr : Run Resolver.system tr r) {req : IncomingMessage} {a : String}
    (hbound : Resolver.boundTo tr (Resolver.nodeOf req) = some a) :
    ReadsOk (r.resolve req) req (fun r => r.getString (Resolver.nodeOf req) "" = a) ↔
      TextReadable (Resolver.nodeOf req) a := by
  have hb := (Resolver.boundTo_of_run hr _).symm.trans hbound
  obtain ⟨r', hret⟩ := Resolver.resolve_of_binding hb
  rw [hret, textReadable_iff _ (Resolver.binding_eq_some.mp hb).1]
  exact readsOk_replyUnder r' req _ (.string a) fun o => (o.bind Value.asString?).getD "" = a

/-- **After every run of the cache, a content to be had under a name is read from the answer exactly
when the name is readable for it; after every run of the resolver, so is the address of a bound
node.** -/
theorem reads_back_iff {trc : List Cache.Move} {c : Cache} (hc : Run Cache.system trc c)
    (hfit : EachMove (fun _ m => m.event.ClockFits) trc) {msg : IncomingMessage} {t : ℤ} {v : Value}
    (hfresh : Cache.Fresh trc (Cache.keyOf msg) t v)
    {trr : List Resolver.Move} {r : Resolver} (hr : Run Resolver.system trr r)
    {req : IncomingMessage} {a : String}
    (hbound : Resolver.boundTo trr (Resolver.nodeOf req) = some a) :
    (ReadsOk (c.retrieve msg t) msg (fun r => r.getRawValue (Cache.keyOf msg) = v) ↔
      RawReadable (Cache.keyOf msg) v) ∧
    (ReadsOk (r.resolve req) req (fun r => r.getString (Resolver.nodeOf req) "" = a) ↔
      TextReadable (Resolver.nodeOf req) a) :=
  ⟨readsOk_retrieve_iff hc hfit hfresh, readsOk_resolve_iff hr hbound⟩

end Runs

section Sample

attribute [local instance] Jsoncpp.integral

theorem reads_back_plainNames :
    ReadsOk ((Cache.runOf (Cache.storing "k")).2.retrieve (Cache.requestFor "k") 12)
        (Cache.requestFor "k") (fun r => r.getRawValue "k" = .string "v") ∧
      ReadsOk ((Resolver.runOf [Resolver.bindOf "n"]).2.resolve (Resolver.bindOf "n").msg)
        (Resolver.bindOf "n").msg (fun r => r.getString "n" "" = "a") := by
  have hc : Run Cache.system (Cache.runOf (Cache.storing "k")).1 _ := run_traceOf (by decide)
  have hr : Run Resolver.system (Resolver.runOf [Resolver.bindOf "n"]).1 _ :=
    run_traceOf (by decide)
  have hb : Resolver.boundTo (Resolver.runOf [Resolver.bindOf "n"]).1
      (Resolver.nodeOf (Resolver.bindOf "n").msg) = some "a" := by decide
  have hfresh : Cache.Fresh (Cache.runOf (Cache.storing "k")).1
      (Cache.keyOf (Cache.requestFor "k")) 12 (.string "v") :=
    ⟨⟨10, 300, .string "v"⟩, ⟨[], _, [], rfl, ⟨by decide, by decide, rfl⟩, by simp⟩, by decide, rfl⟩
  have h := reads_back_iff hc (by decide) hfresh hr hb
  have hk : Util.split "k" [] "." = ["k"] := by decide
  have hn : Util.split "n" [] "." = ["n"] := by decide
  refine ⟨h.1.mpr ?_, h.2.mpr ?_⟩
  · change RawReadable "k" (.string "v")
    simp [RawReadable, hk]
  · change TextReadable "n" "a"
    simp [TextReadable, hn]

/-- Under the name of the status the client finds the status. -/
theorem not_reads_back_statusCode :
    (∃ tr c, Run Cache.system tr c ∧ Cache.Fresh tr "@status_code" 12 (.string "v") ∧
      ¬ ReadsOk (c.retrieve (Cache.requestFor "@status_code") 12)
        (Cache.requestFor "@status_code") fun r => r.getRawValue "@status_code" = .string "v") ∧
    ∃ tr r, Run Resolver.system tr r ∧ Resolver.boundTo tr "@status_code" = some "a" ∧
      ¬ ReadsOk (r.resolve (Resolver.bindOf "@status_code").msg)
        (Resolver.bindOf "@status_code").msg fun r => r.getString "@status_code" "" = "a" := by
  have hc : Run Cache.system (Cache.runOf (Cache.storing "@status_code")).1 _ :=
    run_traceOf (by decide)
  have hr : Run Resolver.system (Resolver.runOf [Resolver.bindOf "@status_code"]).1 _ :=
    run_traceOf (by decide)
  have hb : Resolver.boundTo (Resolver.runOf [Resolver.bindOf "@status_code"]).1
      (Resolver.nodeOf (Resolver.bindOf "@status_code").msg) = some "a" := by decide
  have hfresh : Cache.Fresh (Cache.runOf (Cache.storing "@status_code")).1
      (Cache.keyOf (Cache.requestFor "@status_code")) 12 (.string "v") :=
    ⟨⟨10, 300, .string "v"⟩, ⟨[], _, [], rfl, ⟨by decide, by decide, rfl⟩, by simp⟩, by decide, rfl⟩
  have hk : Util.split "@status_code" [] "." = ["@status_code"] := by decide
  refine ⟨⟨_, _, hc, hfresh, fun hn => ?_⟩, _, _, hr, hb, fun hn => ?_⟩
  · have hread : RawReadable "@status_code" (.string "v") :=
      (readsOk_retrieve_iff hc (by decide) hfresh).mp hn
    simp [RawReadable, hk] at hread
  · have hread : TextReadable "@status_code" "a" := (readsOk_resolve_iff hr hb).mp hn
    simp [TextReadable, hk] at hread

end Sample

end NixSrv
