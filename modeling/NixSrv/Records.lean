import Mathlib.Data.List.Nodup
import NixSrv.Paths

/-!
# Tables of records in a document

The services report tables with a record for each name, whose fields are written under the keys
`table.name.field`.

* `recordKey`, `segments_recordKey`: the keys;
* **`find_of_flat`**: documents whose keys have one segment;
* `NamesApart`: no name leads through a field of another one;
* **`noneThrough_of_namesApart`**, **`namesApart_of_read`**: when the fields can be read back;
* `recordWrites`, **`lastWritten_records`**: what is left of records written one after another.
-/

namespace NixSrv

open Json Message Util

/-- The key of a field of the record `name`. -/
def recordKey (table name field : String) : String := table ++ "." ++ name ++ "." ++ field

/-- The key as the services put it together. -/
theorem recordKey_eq (table name field : String) :
    recordKey table name field = table ++ "." ++ name ++ ("." ++ field) := by
  rw [recordKey, String.append_assoc]

/-- No name leads through a field of the record of a name. -/
def NamesApart (fields names : List String) : Prop :=
  ∀ n ∈ names, ∀ n' ∈ names, ∀ f ∈ fields, ¬ segments n ++ [f] <+: segments n'

/-- The assignment is one to a field of a record. -/
def InTable (table : String) (fields names : List String) (w : String × Value) : Prop :=
  ∃ n ∈ names, ∃ f ∈ fields, w.1 = recordKey table n f

/-- The assignment is one under a key outside of the table. -/
def OutsideTable (table : String) (w : String × Value) : Prop :=
  segments w.1 ≠ [] ∧ (segments w.1).head? ≠ some table

/-- Assignments under paths of one length do not lead through one another. -/
theorem noneThrough_of_length {ws : List (String × Value)} {n : ℕ}
    (h : ∀ w ∈ ws, (segments w.1).length = n) : NoneThrough ws := fun w hw w' hw' hpre =>
  hpre.eq_of_length ((h w hw).trans (h w' hw').symm)

/-- The status code of a reply hides nothing but itself. -/
theorem find_setStatusCode {k s : String} {ks : List String} (hk : segments k = s :: ks)
    (hs : s ≠ "@status_code") (ms : Members) (status : StatusCode) :
    (ofMembers (ms.setStatusCode status)).find k = findFrom (segments k) (.object ms) := by
  change findFrom (segments k) _ = _
  rw [hk, findFrom_setStatusCode, if_neg hs]

/-- **Numbers and texts under distinct keys of one segment are all found in a reply.** -/
theorem find_of_flat {ws : List (String × Value)}
    (hk : ∀ w ∈ ws, segments w.1 = [w.1] ∧ w.1 ≠ "@status_code") (hnd : (ws.map Prod.fst).Nodup)
    (hv : ∀ w ∈ ws, w.2.membersOf? = none) :
    ∃ ms, writes ws [] = .ok ms ∧
      ∀ w ∈ ws, (ofMembers (ms.setStatusCode .ok)).find w.1 = some w.2 := by
  have hl : Leaves ws := fun w hw => ⟨by rw [(hk w hw).1]; exact List.cons_ne_nil _ _, hv w hw⟩
  have hn : NoneThrough ws :=
    noneThrough_of_length (n := 1) fun w hw => by rw [(hk w hw).1]; rfl
  obtain ⟨ms, hms, hfound, -⟩ := find_of_writes hl hn
  refine ⟨ms, hms, fun w hw => ?_⟩
  rw [find_setStatusCode (hk w hw).1 (hk w hw).2, hfound w hw]
  refine lastWritten_eq_of_mem hw fun w' hw' hs => ?_
  rw [(hk w hw).1, (hk w' hw').1] at hs
  rw [List.inj_on_of_nodup_map hnd hw' hw (List.cons.inj hs).1]

variable {table : String} (ht : segments table = [table]) {fields names : List String}

include ht in
theorem segments_recordKey {field : String} (hf : segments field = [field]) (name : String) :
    segments (recordKey table name field) = table :: (segments name ++ [field]) := by
  rw [recordKey, segments_append, segments_append, ht, hf]
  rfl

include ht in
/-- Fields have the same path exactly when they have the same name, and their records names with the
same segments. -/
theorem segments_recordKey_inj {field field' : String} (hf : segments field = [field])
    (hf' : segments field' = [field']) {n n' : String} :
    segments (recordKey table n field) = segments (recordKey table n' field') ↔
      segments n = segments n' ∧ field = field' := by
  rw [segments_recordKey ht hf, segments_recordKey ht hf']
  constructor
  · intro h
    obtain ⟨hn, hff⟩ := List.append_inj' (List.cons.inj h).2 rfl
    exact ⟨hn, by simpa using hff⟩
  · rintro ⟨hn, hff⟩
    rw [hn, hff]

theorem not_prefix_of_outsideTable {w : String × Value} (hw : OutsideTable table w)
    (p : List String) : ¬ segments w.1 <+: table :: p ∧ ¬ table :: p <+: segments w.1 := by
  obtain ⟨hne, hhead⟩ := hw
  obtain ⟨s, ks, hs⟩ := List.exists_cons_of_ne_nil hne
  rw [hs] at hhead ⊢
  have hst : s ≠ table := by simpa using hhead
  exact ⟨fun h => hst (List.cons_prefix_cons.mp h).1,
    fun h => hst (List.cons_prefix_cons.mp h).1.symm⟩

variable (hf : ∀ f ∈ fields, segments f = [f])

include ht hf

/-- **Fields of records whose names are apart do not lead through one another.** -/
theorem noneThrough_of_namesApart {heads ws : List (String × Value)} (hh : NoneThrough heads)
    (hout : ∀ w ∈ heads, OutsideTable table w)
    (hws : ∀ w ∈ ws, w ∈ heads ∨ InTable table fields names w) (hn : NamesApart fields names) :
    NoneThrough ws := by
  intro w hw w' hw' hpre
  rcases hws w hw with h | ⟨n, hnm, f, hfm, hk⟩ <;>
    rcases hws w' hw' with h' | ⟨n', hnm', f', hfm', hk'⟩
  · exact hh w h w' h' hpre
  · rw [hk', segments_recordKey ht (hf f' hfm')] at hpre
    exact absurd hpre (not_prefix_of_outsideTable (hout w h) _).1
  · rw [hk, segments_recordKey ht (hf f hfm)] at hpre
    exact absurd hpre (not_prefix_of_outsideTable (hout w' h') _).2
  · rw [hk, hk', segments_recordKey ht (hf f hfm), segments_recordKey ht (hf f' hfm'),
      List.cons_prefix_cons, List.prefix_concat_iff] at hpre
    rw [hk, hk', segments_recordKey ht (hf f hfm), segments_recordKey ht (hf f' hfm')]
    rcases hpre.2 with h | h
    · rw [h]
    · exact absurd h (hn n hnm n' hnm' f hfm)

/-- **The names are apart when a field of each record can be read back.** -/
theorem namesApart_of_read {ws : List (String × Value)} (hl : Leaves ws) {ms : Members}
    (h : writes ws [] = .ok ms)
    (hws : ∀ n ∈ names, ∀ f ∈ fields, ∃ v, (recordKey table n f, v) ∈ ws)
    (hread : ∀ n ∈ names, ∃ f ∈ fields,
      findFrom (segments (recordKey table n f)) (.object ms) ≠ none) :
    NamesApart fields names := by
  intro n hn n' hn' f hfm hpre
  obtain ⟨f', hfm', hfound⟩ := hread n' hn'
  obtain ⟨v, hv⟩ := hws n hn f hfm
  have hkey := segments_recordKey ht (hf f hfm) n
  have hkey' := segments_recordKey ht (hf f' hfm') n'
  refine hfound (find_eq_none_of_writes hl h hv ?_ ?_)
  · rw [hkey, hkey']
    exact List.cons_prefix_cons.mpr ⟨rfl, hpre.trans (List.prefix_append _ _)⟩
  · rw [hkey, hkey']
    intro heq
    have hlen := congrArg List.length heq
    have hle := hpre.length_le
    simp only [List.length_cons, List.length_append, List.length_nil] at hlen hle
    omega

/-! ## Records one after another -/

omit ht hf

variable {α : Type*}

/-- The assignments for the record of `e`, whose fields have the given names and values. -/
def recordWrites (table : String) (name : α → String) (values : List (String × (α → Value)))
    (e : α) : List (String × Value) :=
  values.map fun f => (recordKey table (name e) f.1, f.2 e)

/-- The last element of a list whose name has the given segments. -/
def lastNamed (name : α → String) (es : List α) (p : List String) : Option α :=
  es.reverse.find? fun e => segments (name e) = p

theorem lastNamed_snoc (name : α → String) (es : List α) (e : α) (p : List String) :
    lastNamed name (es ++ [e]) p =
      if segments (name e) = p then some e else lastNamed name es p := by
  simp only [lastNamed, List.reverse_append, List.reverse_singleton, List.singleton_append,
    List.find?_cons]
  split_ifs with h <;> simp [h]

theorem exists_lastNamed (name : α → String) {es : List α} {e : α} (he : e ∈ es) :
    ∃ e' ∈ es, lastNamed name es (segments (name e)) = some e' := by
  have hsome : (lastNamed name es (segments (name e))).isSome = true :=
    List.find?_isSome.mpr ⟨e, List.mem_reverse.mpr he, by simp⟩
  obtain ⟨e', he'⟩ := Option.isSome_iff_exists.mp hsome
  exact ⟨e', List.mem_reverse.mp (List.mem_of_find?_eq_some he'), he'⟩

variable {name : α → String} {values : List (String × (α → Value))}

theorem mem_recordWrites {e : α} {w : String × Value} : w ∈ recordWrites table name values e ↔
    ∃ f ∈ values, w = (recordKey table (name e) f.1, f.2 e) := by
  simp only [recordWrites, List.mem_map, eq_comm]

theorem inTable_of_mem_recordWrites {e : α} {w : String × Value}
    (hw : w ∈ recordWrites table name values e) {es : List α} (he : e ∈ es) :
    InTable table (values.map Prod.fst) (es.map name) w := by
  obtain ⟨f, hfm, rfl⟩ := mem_recordWrites.mp hw
  exact ⟨name e, List.mem_map_of_mem he, f.1, List.mem_map_of_mem hfm, rfl⟩

variable (hv : ∀ f ∈ values, segments f.1 = [f.1])

include ht hv

theorem lastWritten_recordWrites (hnd : (values.map Prod.fst).Nodup) {f : String × (α → Value)}
    (hfm : f ∈ values) (e : α) (n : String) :
    lastWritten (recordWrites table name values e) (segments (recordKey table n f.1)) =
      if segments (name e) = segments n then some (f.2 e) else none := by
  split_ifs with hn
  · have hkey := (segments_recordKey_inj ht (hv f hfm) (hv f hfm)).mpr ⟨hn, rfl⟩
    rw [← hkey]
    refine lastWritten_eq_of_mem (w := (recordKey table (name e) f.1, f.2 e))
      (mem_recordWrites.mpr ⟨f, hfm, rfl⟩) fun w' hw' hs => ?_
    obtain ⟨f', hfm', rfl⟩ := mem_recordWrites.mp hw'
    obtain ⟨-, hff⟩ := (segments_recordKey_inj ht (hv f' hfm') (hv f hfm)).mp hs
    rw [List.inj_on_of_nodup_map hnd hfm' hfm hff]
  · refine lastWritten_eq_none fun w hw hs => ?_
    obtain ⟨f', hfm', rfl⟩ := mem_recordWrites.mp hw
    exact hn ((segments_recordKey_inj ht (hv f' hfm') (hv f hfm)).mp hs).1

/-- **The last record of a name is left**, where names with the same segments count as one. -/
theorem lastWritten_records (hnd : (values.map Prod.fst).Nodup) {heads : List (String × Value)}
    (hout : ∀ w ∈ heads, OutsideTable table w) {f : String × (α → Value)} (hfm : f ∈ values)
    (es : List α) (n : String) :
    lastWritten (heads ++ es.flatMap (recordWrites table name values))
      (segments (recordKey table n f.1)) = (lastNamed name es (segments n)).map f.2 := by
  induction es using List.reverseRecOn with
  | nil =>
    rw [List.flatMap_nil, List.append_nil]
    refine lastWritten_eq_none fun w hw hs => ?_
    refine (not_prefix_of_outsideTable (hout w hw) (segments n ++ [f.1])).1 ?_
    have hseg := hs.trans (segments_recordKey ht (hv f hfm) n)
    exact hseg ▸ List.prefix_rfl
  | append_singleton es e ih =>
    rw [List.flatMap_append, List.flatMap_singleton, ← List.append_assoc, lastWritten_append, ih,
      lastWritten_recordWrites ht hv hnd hfm, lastNamed_snoc]
    split_ifs <;> rfl

end NixSrv
