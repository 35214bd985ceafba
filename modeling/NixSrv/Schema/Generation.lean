import NixSrv.Schema.Skeleton

/-!
# What a schema generates

* `contentAfter`, `memoryAfter`, **`build_of_fits`**: what the calls leave in the memory;
* `itemDoc`, `encodeDict_ok`, **`expand_ok`**: what the encoder writes for a field;
* **`build_isOk_iff`**: when building a schema succeeds;
* `Gives`, `GivesAll`, **`generation`**: what is decoded from the text of a schema.
-/

namespace NixSrv.Schema

open Json

variable {n : ℕ} (fields : Fin n → Field)

/-! ## Building -/

/-- The content of a field after these additions, if it accepts them. -/
def contentAfter (adds : List (Fin n × Fin n)) (c : Fin n) : Content n :=
  (fields c).byContent
    (fun xs => .list (xs.map .value ++ (addedIn adds c).map .field))
    (fun ms => .dict (Dict.assignAll
      (Dict.mapVal .field (named fields (addedIn adds c))) (Dict.mapVal .value ms)))
    .ofValue

/-- The memory after these additions and after storing these fields in the schema. -/
def memoryAfter (ident version : Value) (adds : List (Fin n × Fin n))
    (stores : List (String × Fin n)) : Memory n where
  content := contentAfter fields adds
  root := Dict.assignAll (Dict.mapVal .field stores) (Dict.mapVal .value (header ident version))

variable {fields}

theorem addedIn_snoc (adds : List (Fin n × Fin n)) (c f c' : Fin n) :
    addedIn (adds ++ [(c, f)]) c' = addedIn adds c' ++ if c = c' then [f] else [] := by
  by_cases h : c = c' <;> simp [addedIn, h]

section Contents

variable (adds : List (Fin n × Fin n)) {c : Fin n}

theorem contentAfter_of_array (ht : (fields c).type = .array) {xs : List Value}
    (hi : (fields c).initial = .array xs) :
    contentAfter fields adds c = .list (xs.map .value ++ (addedIn adds c).map .field) := by
  rw [contentAfter, Field.byContent_of_array ht hi]

theorem contentAfter_of_object (ht : (fields c).type = .object) {ms : List (String × Value)}
    (hi : (fields c).initial = .object ms) :
    contentAfter fields adds c = .dict (Dict.assignAll
      (Dict.mapVal .field (named fields (addedIn adds c))) (Dict.mapVal .value ms)) := by
  rw [contentAfter, Field.byContent_of_object ht hi]

theorem contentAfter_of_not_accepts (hc : ¬ (fields c).Accepts) :
    contentAfter fields adds c = .ofValue (fields c).initial := by
  rw [contentAfter, Field.byContent_of_not_accepts hc]

end Contents

/-- An addition changes the content of one field. -/
theorem update_contentAfter {adds : List (Fin n × Fin n)} {c f : Fin n} {content : Content n}
    (h : contentAfter fields (adds ++ [(c, f)]) c = content) :
    Function.update (contentAfter fields adds) c content =
      contentAfter fields (adds ++ [(c, f)]) := by
  funext c'
  by_cases hc : c' = c
  · rw [hc, Function.update_self, h]
  · rw [Function.update_of_ne hc]
    simp only [contentAfter, addedIn_snoc, if_neg (Ne.symm hc), List.append_nil]

/-- A field that accepts an addition takes it. -/
theorem addField_after {adds : List (Fin n × Fin n)} {c : Fin n} (hc : (fields c).Accepts)
    (root : Dict String (Item n)) (f : Fin n) :
    addField fields ⟨contentAfter fields adds, root⟩ c f =
      .ok ⟨contentAfter fields (adds ++ [(c, f)]), root⟩ := by
  rcases (fields c).cases with ⟨ht, xs, hi⟩ | ⟨ht, ms, hi⟩ | hnot
  · have hafter : contentAfter fields (adds ++ [(c, f)]) c =
        .list (xs.map .value ++ (addedIn adds c).map .field ++ [.field f]) := by
      rw [contentAfter_of_array _ ht hi, addedIn_snoc, if_pos rfl, List.map_append,
        List.append_assoc]
      rfl
    simp only [addField, ht, contentAfter_of_array adds ht hi,
      update_contentAfter hafter]
  · have hafter : contentAfter fields (adds ++ [(c, f)]) c =
        .dict (Dict.assign (fields f).ident (.field f) (Dict.assignAll
          (Dict.mapVal .field (named fields (addedIn adds c))) (Dict.mapVal .value ms))) := by
      rw [contentAfter_of_object _ ht hi, addedIn_snoc, if_pos rfl, named, List.map_append,
        Dict.mapVal_append]
      exact congrArg Content.dict (Dict.assignAll_snoc _ _ _ _)
    simp only [addField, ht, contentAfter_of_object adds ht hi,
      update_contentAfter hafter]
  · exact absurd hc hnot

/-- So it does for several of them. -/
theorem addFields_after {c : Fin n} (hc : (fields c).Accepts) (root : Dict String (Item n))
    (fs : List (Fin n)) : ∀ adds : List (Fin n × Fin n),
    fs.foldlM (fun m f => addField fields m c f) ⟨contentAfter fields adds, root⟩ =
      .ok ⟨contentAfter fields (adds ++ fs.map fun f => (c, f)), root⟩ := by
  induction fs with
  | nil => intro adds; rw [List.map_nil, List.append_nil]; rfl
  | cons f fs ih =>
    intro adds
    rw [List.foldlM_cons, addField_after hc root f]
    change fs.foldlM _ _ = _
    rw [ih, List.map_cons, List.append_assoc]
    rfl

theorem memoryAfter_snoc {ident version : Value} {adds : List (Fin n × Fin n)}
    (stores : List (String × Fin n)) (k : String) (f : Fin n) :
    memoryAfter fields ident version adds (stores ++ [(k, f)]) =
      { memoryAfter fields ident version adds stores with
        root := (memoryAfter fields ident version adds stores).root.assign k (.field f) } := by
  rw [memoryAfter, Dict.mapVal_append]
  exact congrArg (Memory.mk _) (Dict.assignAll_snoc _ _ _ _)

/-- **A call that fits leaves what it is to leave.** -/
theorem step_after {ident version : Value} {adds : List (Fin n × Fin n)}
    {stores : List (String × Fin n)} {call : Call n} (h : call.Fits fields) :
    step fields (memoryAfter fields ident version adds stores) call =
      .ok (memoryAfter fields ident version (adds ++ call.adds)
        (stores ++ call.stores fields)) := by
  cases call with
  | addField c f =>
    rw [Call.stores, List.append_nil]
    exact addField_after h _ f
  | append c fs =>
    rw [Call.stores, List.append_nil]
    obtain ⟨ht, hc⟩ := h
    simp only [step, append, ht]
    cases fs with
    | nil => rw [Call.adds, List.map_nil, List.append_nil]; rfl
    | cons f fs => exact addFields_after (hc (List.cons_ne_nil f fs)) _ _ adds
  | addToSchema f =>
    rw [Call.adds, List.append_nil, Call.stores, memoryAfter_snoc]
    rfl
  | setContent f =>
    rw [Call.adds, List.append_nil, Call.stores, memoryAfter_snoc]
    rfl

/-- The memory after these calls. -/
abbrev memoryOf (fields : Fin n → Field) (ident version : Value) (calls : List (Call n)) :
    Memory n :=
  memoryAfter fields ident version (calls.flatMap Call.adds) (calls.flatMap (Call.stores fields))

theorem start_eq (ident version : Value) :
    start fields ident version = memoryOf fields ident version [] := by
  have hcontent : ∀ c, Content.ofValue (fields c).initial = contentAfter fields [] c := by
    intro c
    rcases (fields c).cases with ⟨ht, xs, hi⟩ | ⟨ht, ms, hi⟩ | hnot
    · rw [contentAfter_of_array _ ht hi, hi]
      exact congrArg Content.list (List.append_nil _).symm
    · rw [contentAfter_of_object _ ht hi, hi]
      rfl
    · rw [contentAfter_of_not_accepts _ hnot]
  rw [start, funext hcontent]
  rfl

theorem build_snoc (ident version : Value) (calls : List (Call n)) (call : Call n) :
    build fields ident version (calls ++ [call]) =
      build fields ident version calls >>= fun m => step fields m call := by
  simp only [build, List.foldlM_append, List.foldlM_cons, List.foldlM_nil, bind_pure]

/-- **Calls that fit build the schema.** -/
theorem build_of_fits (ident version : Value) {calls : List (Call n)}
    (h : ∀ call ∈ calls, call.Fits fields) :
    build fields ident version calls = .ok (memoryOf fields ident version calls) := by
  induction calls using List.reverseRecOn with
  | nil => exact congrArg Except.ok (start_eq ident version)
  | append_singleton calls call ih =>
    have hcall := h call (List.mem_append_right _ (List.mem_singleton_self _))
    rw [build_snoc, ih fun c hc => h c (List.mem_append_left _ hc)]
    change step fields _ call = _
    rw [step_after hcall, memoryOf, List.flatMap_append, List.flatMap_append,
      List.flatMap_singleton, List.flatMap_singleton]

/-- Nothing can be added to a field that does not accept it. -/
theorem addField_of_not_accepts (adds : List (Fin n × Fin n)) {c : Fin n}
    (hc : ¬ (fields c).Accepts) (root : Dict String (Item n)) (f : Fin n) :
    ∃ e, addField fields ⟨contentAfter fields adds, root⟩ c f = .error e := by
  simp only [addField, contentAfter_of_not_accepts _ hc]
  unfold Field.Accepts at hc
  cases ht : (fields c).type with
  | array =>
    rw [ht] at hc
    cases hi : (fields c).initial with
    | array xs => exact absurd (by rw [hi]; rfl) hc
    | null | int | real | string | bool | object => exact ⟨_, rfl⟩
  | object =>
    rw [ht] at hc
    cases hi : (fields c).initial with
    | object ms => exact absurd (by rw [hi]; rfl) hc
    | null | int | real | string | bool | array => exact ⟨_, rfl⟩
  | int | double | bool | null | string => exact ⟨_, rfl⟩

theorem step_of_not_fits (ident version : Value) (adds : List (Fin n × Fin n))
    (stores : List (String × Fin n)) {call : Call n} (h : ¬ call.Fits fields) :
    ∃ e, step fields (memoryAfter fields ident version adds stores) call = .error e := by
  cases call with
  | addField c f => exact addField_of_not_accepts adds h _ f
  | append c fs =>
    by_cases ht : (fields c).type = .array
    · obtain ⟨hne, hc⟩ : fs ≠ [] ∧ ¬ (fields c).Accepts := by simpa [Call.Fits, ht] using h
      obtain ⟨f, fs, rfl⟩ := List.exists_cons_of_ne_nil hne
      obtain ⟨e, he⟩ := addField_of_not_accepts adds hc
        (memoryAfter fields ident version adds stores).root f
      refine ⟨e, ?_⟩
      simp only [step, append, ht, List.foldlM_cons]
      exact congrArg (· >>= _) he
    · refine ⟨.attributeError, ?_⟩
      simp only [step, append]
  | addToSchema f => exact absurd trivial h
  | setContent f => exact absurd trivial h

/-- **Building a schema succeeds exactly when all calls fit.** -/
theorem build_isOk_iff (ident version : Value) (calls : List (Call n)) :
    (∃ m, build fields ident version calls = .ok m) ↔ ∀ call ∈ calls, call.Fits fields := by
  constructor
  · induction calls using List.reverseRecOn with
    | nil => exact fun _ call hc => absurd hc List.not_mem_nil
    | append_singleton calls call ih =>
      rintro ⟨m, hm⟩
      rw [build_snoc] at hm
      cases hb : build fields ident version calls with
      | error e =>
        rw [hb] at hm
        cases hm
      | ok m' =>
        have hfits := ih ⟨m', hb⟩
        rw [build_of_fits ident version hfits] at hm
        intro c hc
        rcases List.mem_append.mp hc with hc | hc
        · exact hfits c hc
        · rw [List.mem_singleton.mp hc]
          by_contra hnot
          obtain ⟨e, he⟩ := step_of_not_fits ident version (calls.flatMap Call.adds)
            (calls.flatMap (Call.stores fields)) hnot
          change step fields _ call = _ at hm
          rw [he] at hm
          cases hm
  · exact fun h => ⟨_, build_of_fits ident version h⟩

/-! ## Encoding -/

/-- The document of an item. -/
def itemDoc (doc : Fin n → Doc) : Item n → Doc
  | .value v => denote v
  | .field f => doc f

/-- A loop in which every pass succeeds. -/
theorem mapM_ok {α β ε : Type} {g : α → Except ε β} {P : α → β → Prop} {xs : List α}
    (h : ∀ x ∈ xs, ∃ v, g x = .ok v ∧ P x v) :
    ∃ vs, xs.mapM g = .ok vs ∧ List.Forall₂ P xs vs := by
  induction xs with
  | nil => exact ⟨[], rfl, .nil⟩
  | cons x xs ih =>
    obtain ⟨v, hv, hp⟩ := h x List.mem_cons_self
    obtain ⟨vs, hvs, hps⟩ := ih fun y hy => h y (List.mem_cons_of_mem _ hy)
    refine ⟨v :: vs, ?_, .cons hp hps⟩
    rw [List.mapM_cons, hv, hvs]
    rfl

section Encoding

variable {field : Fin n → Except PyError Value} {doc : Fin n → Doc}

theorem encodeItem_ok {x : Item n}
    (h : ∀ f, x = .field f → ∃ v, field f = .ok v ∧ denote v = doc f) :
    ∃ v, encodeItem field x = .ok v ∧ denote v = itemDoc doc x := by
  cases x with
  | value v => exact ⟨v, rfl, rfl⟩
  | field f => exact h f rfl

theorem encodeList_ok {xs : List (Item n)}
    (h : ∀ f, .field f ∈ xs → ∃ v, field f = .ok v ∧ denote v = doc f) :
    ∃ v, encodeContent field (.list xs) = .ok v ∧ denote v = .array (xs.map (itemDoc doc)) := by
  have hitem : ∀ x ∈ xs, ∃ v, encodeItem field x = .ok v ∧ denote v = itemDoc doc x :=
    fun x hx => encodeItem_ok fun f hf => h f (hf ▸ hx)
  obtain ⟨vs, hvs, hp⟩ := mapM_ok hitem
  have hdoc : vs.map denote = xs.map (itemDoc doc) := by
    clear hvs hitem h
    induction hp with
    | nil => rfl
    | cons hv _ ih => rw [List.map_cons, List.map_cons, hv, ih]
  exact ⟨.array vs, by rw [encodeContent, hvs]; rfl, by rw [denote, denoteAll_eq_map, hdoc]⟩

theorem encodeDict_ok {ms : Dict String (Item n)}
    (h : ∀ k f, (k, .field f) ∈ ms → ∃ v, field f = .ok v ∧ denote v = doc f) :
    ∃ v, encodeDict field ms = .ok v ∧
      denote v = .object fun k => (ms.lookup k).map (itemDoc doc) := by
  have hmember : ∀ m ∈ ms, ∃ w,
      (do return (m.1, ← encodeItem field m.2) : Except PyError (String × Value)) = .ok w ∧
        w.1 = m.1 ∧ denote w.2 = itemDoc doc m.2 := by
    intro m hm
    obtain ⟨v, hv, hd⟩ := encodeItem_ok fun f hf => h m.1 f (hf ▸ hm)
    exact ⟨(m.1, v), by rw [hv]; rfl, rfl, hd⟩
  obtain ⟨ws, hws, hp⟩ := mapM_ok hmember
  have hdoc : ∀ k, denoteMembers ws k = (ms.lookup k).map (itemDoc doc) := by
    intro k
    clear hws hmember h
    induction hp with
    | nil => rfl
    | @cons m w ms ws hw _ ih =>
      obtain ⟨a, x⟩ := m
      obtain ⟨b, v⟩ := w
      obtain ⟨rfl, hv⟩ := hw
      rw [denoteMembers, Dict.lookup_cons, ih, hv]
      split_ifs <;> rfl
  exact ⟨.object ws, by rw [encodeDict, hws]; rfl, by rw [denote, funext hdoc]⟩

/-- A value is written as it is. -/
theorem encodeContent_ofValue (v : Value) : encodeContent field (.ofValue v) = .ok v := by
  cases v with
  | array xs =>
    have hitems : (xs.map Item.value).mapM (encodeItem field) = .ok xs := by
      induction xs with
      | nil => rfl
      | cons x xs ih =>
        rw [List.map_cons, List.mapM_cons, ih]
        rfl
    rw [Content.ofValue, encodeContent, hitems]
    rfl
  | object ms =>
    have hmembers : (ms.map fun m => (m.1, Item.value m.2)).mapM
        (fun m => do return (m.1, ← encodeItem field m.2) : _ → Except PyError _) = .ok ms := by
      induction ms with
      | nil => rfl
      | cons m ms ih =>
        rw [List.map_cons, List.mapM_cons, ih]
        rfl
    rw [Content.ofValue, encodeContent, encodeDict, hmembers]
    rfl
  | null | int | real | string | bool => rfl

end Encoding

/-! ## What is decoded -/

variable {calls : List (Call n)}

theorem within_of_mem_list {xs : List Value} {c f : Fin n}
    (h : Item.field f ∈ xs.map .value ++ (addedTo calls c).map .field) : Within calls f c := by
  rcases List.mem_append.mp h with h | h
  · obtain ⟨v, -, hv⟩ := List.mem_map.mp h
    cases hv
  · obtain ⟨g, hg, he⟩ := List.mem_map.mp h
    cases he
    exact hg

theorem within_of_mem_dict {ms : List (String × Value)} {c f : Fin n} {k : String}
    (h : (k, Item.field f) ∈ Dict.assignAll
      (Dict.mapVal .field (named fields (addedTo calls c))) (Dict.mapVal .value ms)) :
    Within calls f c := by
  rcases Dict.mem_assignAll h with h | h
  · obtain ⟨p, hp, he⟩ := List.mem_map.mp h
    obtain ⟨g, hg, rfl⟩ := List.mem_map.mp hp
    cases he
    exact hg
  · obtain ⟨p, -, he⟩ := List.mem_map.mp h
    cases he

/-- The fields and values of a dictionary, as documents. -/
theorem lookup_itemDoc (doc : Fin n → Doc) (ps : List (String × Fin n))
    (ms : List (String × Value)) (k : String) :
    ((Dict.assignAll (Dict.mapVal .field ps) (Dict.mapVal .value ms)).lookup k).map (itemDoc doc) =
      ((Dict.lastUnder k ps).map doc).or (denoteMembers ms k) := by
  rw [Dict.lookup_assignAll, Dict.lastUnder_mapVal, Dict.lookup_mapVal, Option.map_or,
    Option.map_map, Option.map_map, denoteMembers_eq]
  rfl

/-- **The encoder writes the skeleton of a field.** The markers are the fields on the way to it,
which is no longer than there are fields. -/
theorem expand_ok (h : Acyclic (Within calls)) : ∀ fuel markers c,
    Ascent (Within calls) (c :: markers) → markers.length + fuel = n + 1 →
    ∃ v, expand (contentAfter fields (calls.flatMap Call.adds)) fuel markers c = .ok v ∧
      denote v = skeleton fields h c := by
  intro fuel
  induction fuel with
  | zero =>
    intro markers c hpath hlen
    have hle := h.length_le hpath
    rw [Fintype.card_fin, List.length_cons] at hle
    omega
  | succ fuel ih =>
    intro markers c hpath hlen
    have hnew : c ∉ markers := (List.nodup_cons.mp (h.nodup hpath)).1
    have hwithin : ∀ f, Within calls f c →
        ∃ v, expand (contentAfter fields (calls.flatMap Call.adds)) fuel (c :: markers) f = .ok v ∧
          denote v = skeleton fields h f := by
      intro f hf
      refine ih (c :: markers) f (Ascent.cons hpath hf) ?_
      rw [List.length_cons]
      omega
    rw [expand, if_neg hnew]
    rcases (fields c).cases with ⟨ht, xs, hi⟩ | ⟨ht, ms, hi⟩ | hnot
    · rw [contentAfter_of_array _ ht hi, skeleton_of_array h ht hi]
      obtain ⟨v, hv, hd⟩ := encodeList_ok fun f hf => hwithin f (within_of_mem_list hf)
      refine ⟨v, hv, ?_⟩
      rw [hd, List.map_append, List.map_map, List.map_map, denoteAll_eq_map]
      rfl
    · rw [contentAfter_of_object _ ht hi, skeleton_of_object h ht hi]
      obtain ⟨v, hv, hd⟩ := encodeDict_ok fun k f hf => hwithin f (within_of_mem_dict hf)
      exact ⟨v, hv, by rw [hd, funext (lookup_itemDoc _ _ _)]⟩
    · rw [contentAfter_of_not_accepts _ hnot, skeleton_of_not_accepts h hnot]
      exact ⟨_, encodeContent_ofValue _, rfl⟩

variable (fields) in
/-- The document of the schema after calls that fit. -/
theorem toJson_memoryOf (h : Acyclic (Within calls)) (ident version : Value) :
    ∃ v, (memoryOf fields ident version calls).toJson = .ok v ∧
      denote v = .object fun k => ((lastStored fields calls k).map (skeleton fields h)).or
        (denoteMembers (header ident version) k) := by
  have hfield : ∀ f, ∃ v,
      expand (memoryOf fields ident version calls).content (n + 1) [] f = .ok v ∧
        denote v = skeleton fields h f :=
    fun f => expand_ok h (n + 1) [] f (.singleton f) (Nat.zero_add _)
  obtain ⟨v, hv, hd⟩ : ∃ v, (memoryOf fields ident version calls).toJson = .ok v ∧
      denote v = .object fun k =>
        ((memoryOf fields ident version calls).root.lookup k).map (itemDoc (skeleton fields h)) :=
    encodeDict_ok fun _ f _ => hfield f
  exact ⟨v, hv, hd.trans (congrArg Doc.object (funext (lookup_itemDoc _ _ _)))⟩

/-- What is decoded from the text of a schema: the header under names that no field was stored
under, and under each other name the skeleton of the last field that was. -/
structure Gives (fields : Fin n → Field) (h : Acyclic (Within calls)) (ident version : Value)
    (members : String → Option Doc) : Prop where
  id : lastStored fields calls "@id" = none → members "@id" = some (denote ident)
  version : lastStored fields calls "@version" = none →
    members "@version" = some (denote version)
  field : ∀ k f, lastStored fields calls k = some f → members k = some (skeleton fields h f)

/-- The header is decoded, and the skeleton of every field that was added to the schema under its
own name. -/
structure GivesAll (fields : Fin n → Field) (h : Acyclic (Within calls)) (ident version : Value)
    (members : String → Option Doc) : Prop where
  id : members "@id" = some (denote ident)
  version : members "@version" = some (denote version)
  field : ∀ f, Call.addToSchema f ∈ calls →
    members (fields f).ident = some (skeleton fields h f)

/-- **Schema generation is faithful**, if fields are added to containers that accept them. -/
theorem generation (h : Acyclic (Within calls)) (hfits : ∀ call ∈ calls, call.Fits fields)
    (ident version : Value) :
    ∃ m v members, build fields ident version calls = .ok m ∧ m.toJson = .ok v ∧
      denote v = .object members ∧ Gives fields h ident version members := by
  obtain ⟨v, hv, hd⟩ := toJson_memoryOf fields h ident version
  refine ⟨_, v, _, build_of_fits ident version hfits, hv, hd, ?_, ?_, ?_⟩
  · intro hid
    rw [hid]
    rfl
  · intro hversion
    rw [hversion]
    rfl
  · intro k f hf
    rw [hf]
    rfl

section Sample

attribute [local instance] Nat.instNeZeroSucc

/-- The fields of `test_build`. -/
def testFields : Fin 12 → Field := List.get [
  { type := .string, ident := "string_field" },
  { type := .int, ident := "int_field", allowNull := true },
  { type := .object, ident := "obj" },
  { type := .array, ident := "inner" },
  { type := .string, ident := "" },
  { type := .array, ident := "" },
  { type := .string, ident := "inner_field" },
  { type := .array, ident := "array" },
  { type := .string, ident := "" },
  { type := .int, ident := "" },
  { type := .bool, ident := "" },
  { type := .double, ident := "" }]

/-- The calls of `test_build`. -/
def testCalls : List (Call 12) := [
  .addToSchema 0, .addToSchema 1, .append 3 [4], .append 3 [5], .addField 2 3, .addField 2 6,
  .append 7 [8, 9, 10, 11], .addToSchema 7, .addToSchema 2]

/-- The depth of the fields of `test_build`. -/
def testDepth (f : Fin 12) : ℕ := if f = 2 then 2 else if f = 3 ∨ f = 7 then 1 else 0

theorem acyclic_testCalls : Acyclic (Within testCalls) :=
  .of_rank testDepth (show ∀ f c, f ∈ addedTo testCalls c → testDepth f < testDepth c by decide)

theorem generation_testCalls :
    ∃ m v members, build testFields (.string "test") (.int 0) testCalls = .ok m ∧
      m.toJson = .ok v ∧ denote v = .object members ∧
      Gives testFields acyclic_testCalls (.string "test") (.int 0) members :=
  generation acyclic_testCalls (by decide) (.string "test") (.int 0)

/-- What `test_build` expects, in the order in which it is written. -/
example : (build testFields (.string "test") (.int 0) testCalls >>= Memory.toJson) =
    .ok (.object [("@id", .string "test"), ("@version", .int 0), ("content", .object []),
      ("string_field", .string ""), ("int_field", .null),
      ("array", .array [.string "", .int 0, .bool false, .real 0]),
      ("obj", .object [("inner", .array [.string "", .array []]),
        ("inner_field", .string "")])]) := rfl

/-- Two fields of one name, and an array that may be null with an element for it. -/
def sampleFields : Fin 4 → Field := List.get [
  { type := .string, ident := "a" },
  { type := .int, ident := "a" },
  { type := .array, ident := "b", allowNull := true },
  { type := .string, ident := "" }]

def addBoth : List (Call 4) := [.addToSchema 0, .addToSchema 1]

theorem acyclic_addBoth : Acyclic (Within addBoth) :=
  .of_rank (fun _ => 0) (show ∀ f c, f ∈ addedTo addBoth c → 0 < 0 by decide)

/-- Of two fields with one name the first is lost, an array that may be null is decoded as null, and
an element cannot be added to it. -/
theorem not_givesAll_sameName :
    (¬ ∃ m v members, build sampleFields (.string "test") (.int 0) addBoth = .ok m ∧
      m.toJson = .ok v ∧ denote v = .object members ∧
      GivesAll sampleFields acyclic_addBoth (.string "test") (.int 0) members) ∧
    (build sampleFields (.string "test") (.int 0) [.addToSchema 2] >>= Memory.toJson) =
      .ok (.object [("@id", .string "test"), ("@version", .int 0), ("content", .object []),
        ("b", .null)]) ∧
    build sampleFields (.string "test") (.int 0) [.append 2 [3], .addToSchema 2] =
      .error .attributeError := by
  refine ⟨?_, rfl, rfl⟩
  rintro ⟨m, v, members, hm, hv, hd, hall⟩
  have hjson : (build sampleFields (.string "test") (.int 0) addBoth >>= Memory.toJson) =
      .ok (.object [("@id", .string "test"), ("@version", .int 0), ("content", .object []),
        ("a", .int 0)]) := rfl
  rw [hm] at hjson
  cases hv.symm.trans hjson
  have hlast : members "a" = some (.int 0) := by
    rw [← Doc.object.inj hd]
    rfl
  have hskeleton : skeleton sampleFields acyclic_addBoth 0 = .string "" :=
    skeleton_of_not_accepts acyclic_addBoth (by decide)
  have hfirst : members "a" = some (.string "") :=
    (hall.field 0 List.mem_cons_self).trans (congrArg some hskeleton)
  rw [hlast] at hfirst
  cases hfirst

end Sample

end NixSrv.Schema
