import NixSrv.Yami.Serialization

/-!
# Round trips of payloads

* **`deserialize_serialize_iff`**: a round trip gives a collection back exactly when it is ASCII;
* **`deserialize_framed`**: of the buffers that begin like a serialized collection, or with it, only
  the whole one is accepted, and it is merged entry by entry;
* **`exists_serialize_iff`**: what can be serialized;
* **`serialize_deserialize`**: all that is accepted can be serialized, and is read again as it was
  accepted exactly when it is ASCII.
-/

namespace NixSrv.Yami

open Reader

variable {n : ℕ}

theorem deserialize_eq_ok {p p' : Parameters n} {buf : Bytes} :
    deserialize n p buf = .ok p' ↔
      doDeserialize (extractNested n) p buf 0 = .ok (p', (buf.length : ℤ)) := by
  unfold deserialize
  cases doDeserialize (extractNested n) p buf 0 with
  | error e => simp
  | ok r =>
    obtain ⟨p'', o⟩ := r
    simp only [Except.ok.injEq, Prod.mk.injEq]
    split_ifs with ho
    · simp [ho]
    · simp [not_not.mp ho]

theorem exact_parameters (q : Parameters n) :
    Exact 4 (Ascii n q) (serialize n q) (doDeserialize (extractNested n) ∅) (compact n q) :=
  exact_collection (failsBehind_nested n).staysBehind (exact_nested n) q

theorem deserialize_of_ascii {q : Parameters n} {bs : Bytes} (h : serialize n q = .ok bs)
    (hq : Ascii n q) : deserialize n ∅ bs = .ok (compact n q) := by
  have hrun := ((exact_parameters q bs h).1 hq).run [] [] (dvd_zero 4)
  rw [List.nil_append, List.append_nil] at hrun
  exact deserialize_eq_ok.mpr hrun

/-- **A collection is read back from its text, without its holes, exactly when all names and texts
in it have characters of one byte each.** -/
theorem deserialize_serialize_iff {q : Parameters n} {bs : Bytes} (h : serialize n q = .ok bs) :
    deserialize n ∅ bs = .ok (compact n q) ↔ Ascii n q := by
  refine ⟨fun hread => ?_, deserialize_of_ascii h⟩
  by_contra hq
  refine (exact_parameters q bs h).2 hq [] [] (bs.length : ℤ) (dvd_zero 4) ?_
  rw [List.nil_append, List.append_nil]
  exact deserialize_eq_ok.mp hread

/-- A text of two characters with three bytes. -/
def latin : Parameters 0 := Slots.ofItems [("a", .basic .str "né")]

theorem deserialize_serialize_latin :
    deserialize 0 ∅
        [1, 0, 0, 0, 1, 0, 0, 0, 97, 0, 0, 0, 5, 0, 0, 0, 2, 0, 0, 0, 110, 195, 169, 0, 0] =
      .ok (compact 0 latin) ↔ Ascii 0 latin :=
  deserialize_serialize_iff (by decide +kernel)

/-! ## Framing -/

/-- The collection `p` after the entries of `q`, without holes, are set one after another. -/
def merge (n : ℕ) (p q : Parameters n) : Parameters n :=
  p.setAll (q.items.map (mapEntry (compactNested n)))

theorem get_compactWith {P : Type} (f : P → P) (p : Collection P) (name : String) :
    (compactWith f p).get name = (p.get name).map (ValueOver.map f) := by
  refine Option.ext fun v => ?_
  rw [← Slots.mem_items, compactWith, Slots.items_ofItems (nodup_map_mapEntry f p), List.mem_map,
    Option.map_eq_some_iff]
  constructor
  · rintro ⟨⟨name', w⟩, hmem, he⟩
    cases he
    exact ⟨w, Slots.mem_items.mp hmem, rfl⟩
  · rintro ⟨w, hw, rfl⟩
    exact ⟨(name, w), Slots.mem_items.mpr hw, rfl⟩

/-- **A buffer that is cut short or goes on behind the text of a collection is not accepted**, and
the text itself is merged into the collection that reads it. -/
theorem deserialize_framed {q : Parameters n} {bs : Bytes} (h : serialize n q = .ok bs)
    (hq : Ascii n q) {buf : Bytes} (hbuf : buf <+: bs ∨ bs <+: buf) (p r : Parameters n) :
    (deserialize n p buf = .ok r ↔ buf = bs ∧ r = merge n p q) ∧
      ∀ name, (merge n p q).get name =
        ((q.get name).map (ValueOver.map (compactNested n))).or (p.get name) := by
  have hd := (exact_entries (failsBehind_nested n).staysBehind (exact_nested n) q bs h).1 hq
  refine ⟨?_, fun name => ?_⟩
  · rw [deserialize_eq_ok, doDeserialize_eq_ok]
    constructor
    · rintro ⟨l, hl, rfl⟩
      rcases hbuf with hcut | ⟨post, rfl⟩
      · rw [List.prefix_iff_eq_take] at hcut
        rcases lt_or_ge buf.length bs.length with hlt | hge
        · have hcut' := hd.cut [] buf.length (dvd_zero 4) hlt l buf.length
          rw [List.nil_append, ← hcut] at hcut'
          exact absurd (hcut' hl) (lt_irrefl _)
        · rw [List.take_of_length_le hge] at hcut
          subst hcut
          have hrun := hd.run [] [] (dvd_zero 4)
          rw [List.nil_append, List.append_nil] at hrun
          have heq := hl.symm.trans hrun
          cases heq
          exact ⟨rfl, rfl⟩
      · have hrun := hd.run [] post (dvd_zero 4)
        rw [List.nil_append] at hrun
        have heq := hl.symm.trans hrun
        rw [Except.ok.injEq, Prod.mk.injEq, List.length_append] at heq
        have hpost : post = [] := by
          rw [← List.length_eq_zero_iff]
          omega
        rw [heq.1, hpost, List.append_nil]
        exact ⟨rfl, rfl⟩
    · rintro ⟨rfl, rfl⟩
      have hrun := hd.run [] [] (dvd_zero 4)
      rw [List.nil_append, List.append_nil] at hrun
      exact ⟨_, hrun, rfl⟩
  · rw [merge, Slots.get_setAll, ← compactWith, get_compactWith]

/-- One entry with a number. -/
def single : Parameters 0 := Slots.ofItems [("a", .basic .int 1)]

def singleText : Bytes := [1, 0, 0, 0, 1, 0, 0, 0, 97, 0, 0, 0, 2, 0, 0, 0, 1, 0, 0, 0]

theorem serialize_single : serialize 0 single = .ok singleText := by decide +kernel

theorem ascii_single : Ascii 0 single := by
  refine ⟨trivial, fun e he => ?_⟩
  rw [single, Slots.items_ofItems (by decide), List.mem_singleton] at he
  subst he
  have hname : IsAscii "a" := by decide
  exact ⟨hname, trivial⟩

theorem deserialize_framed_single :
    (deserialize 0 single (singleText ++ [0]) = .ok ∅ ↔
      singleText ++ [0] = singleText ∧ ∅ = merge 0 single single) ∧
      ∀ name, (merge 0 single single).get name =
        ((single.get name).map (ValueOver.map (compactNested 0))).or (single.get name) :=
  deserialize_framed serialize_single ascii_single (.inr ⟨[0], rfl⟩) single ∅

/-! ## What can be serialized -/

section Fits

variable {P : Type} {serialize : P → Text} {nested : P → Prop}

theorem exists_appendValue_iff (h : ∀ p, (∃ bs, serialize p = .ok bs) ↔ nested p)
    (v : ValueOver P) :
    (∃ bs, appendValue serialize v = .ok bs) ↔ v.All FitsBasic FitsLength nested := by
  cases v with
  | basic t v => exact exists_appendBasic_iff
  | array t v vs => exact exists_appendArray_iff
  | parameters p => exact h p
  | parametersArray p ps =>
    refine exists_appendList_iff.trans ?_
    simp only [h]
    rfl

theorem exists_serializeWith_iff (h : ∀ p, (∃ bs, serialize p = .ok bs) ↔ nested p)
    (p : Collection P) :
    (∃ bs, serializeWith serialize p = .ok bs) ↔ AllIn FitsBasic FitsLength nested p := by
  have hcode : ∀ v : ValueOver P, ∃ bs, appendInt v.typeCode = .ok bs := by
    intro v
    have hrange : 1 ≤ v.typeCode ∧ v.typeCode ≤ 14 := by
      cases v with
      | basic t _ => cases t <;> simp [ValueOver.typeCode, Basic.code]
      | array t _ _ => cases t <;> simp [ValueOver.typeCode, Basic.arrayCode]
      | parameters _ => simp [ValueOver.typeCode]
      | parametersArray _ _ => simp [ValueOver.typeCode]
    rw [exists_appendInt_iff]
    unfold InSigned
    omega
  have hentry : ∀ e : String × ValueOver P, (∃ bs, appendEntry serialize e = .ok bs) ↔
      FitsBasic .str e.1 ∧ e.2.All FitsBasic FitsLength nested := by
    intro e
    rw [appendEntry, exists_writeAll_iff, List.forall_mem_cons, List.forall_mem_cons,
      List.forall_mem_singleton, exists_appendString_iff, exists_appendValue_iff h]
    exact and_congr_right fun _ => and_iff_right (hcode e.2)
  rw [serializeWith_eq, exists_appendList_iff, AllIn, Slots.size_index]
  simp only [hentry]

end Fits

theorem exists_serializeNested_iff (n : ℕ) (p : Nested n) :
    (∃ bs, serializeNested n p = .ok bs) ↔ AllNested FitsBasic FitsLength n p := by
  induction n with
  | zero => exact Empty.elim p
  | succ n ih => exact exists_serializeWith_iff ih p

/-- **A collection can be serialized exactly when all numbers are in the range of their types and
all lengths are below 2^31.** Its texts have no surrogates, which have no code. -/
theorem exists_serialize_iff (q : Parameters n) :
    (∃ bs, serialize n q = .ok bs) ↔ Fits n q :=
  exists_serializeWith_iff (exists_serializeNested_iff n) q

/-! ## What is accepted can be serialized -/

section Accepted

variable {P : Type} {extract : Reader UInt8 Error P} {nested : P → Prop} {f : P → P}

theorem toObj_injective : Function.Injective (ValueOver.toObj (P := P)) := by
  intro v w h
  have hv := validate_toObj v
  rw [h, validate_toObj] at hv
  exact (Except.ok.inj hv).symm

/-- A value that the format can hold, whose nested collections have no holes. -/
def Canonical (nested : P → Prop) (f : P → P) (v : ValueOver P) : Prop :=
  v.All FitsBasic FitsLength nested ∧ v.map f = v

theorem ensures_sequence {α : Type} {r : Reader UInt8 Error (List α)} {mk : α → Elem P}
    (value : α → List α → ValueOver P) {Q : α → Prop}
    (hr : Ensures Short r fun vs => FitsLength vs.length ∧ ∀ v ∈ vs, Q v)
    (hobj : ∀ v vs, (value v vs).toObj = .sequence ((v :: vs).map mk))
    (hvalue : ∀ v vs, FitsLength (v :: vs).length → (∀ x ∈ v :: vs, Q x) →
      Canonical nested f (value v vs)) :
    Ensures Short (r >>= fun vs => Pure.pure (Obj.sequence (vs.map mk)))
      fun o => ∀ v : ValueOver P, o = v.toObj → Canonical nested f v := by
  refine hr.bind fun vs hvs => .pure fun v h => ?_
  cases vs with
  | nil => cases v <;> cases h
  | cons x xs =>
    rw [← hobj] at h
    rw [← toObj_injective h]
    exact hvalue x xs hvs.1 hvs.2

/-- Every value that is read is one that the format can hold. -/
theorem ensures_value (hext : Ensures Short extract fun p => nested p ∧ f p = p) (typeCode : ℤ) :
    Ensures Short (extractValue extract typeCode)
      fun o => ∀ v : ValueOver P, o = v.toObj → Canonical nested f v := by
  have helem : ∀ t, Ensures Short (extractElem (P := P) t)
      fun o => ∀ v : ValueOver P, o = v.toObj → Canonical nested f v := by
    intro t
    refine (ensures_basic t).bind fun x hx => .pure fun v h => ?_
    have hv : .basic t x = v := toObj_injective h
    rw [← hv]
    exact ⟨hx, rfl⟩
  have hseq : ∀ t, Ensures Short (extractSequence (P := P) t)
      fun o => ∀ v : ValueOver P, o = v.toObj → Canonical nested f v := fun t =>
    ensures_sequence (.array t) (ensures_array t) (fun _ _ => rfl)
      fun x xs hlen hxs => ⟨⟨hlen, hxs⟩, rfl⟩
  have hps : Ensures Short
      (extractList extract >>= fun ps => pure (Obj.sequence (ps.map Elem.parameters)))
      fun o => ∀ v : ValueOver P, o = v.toObj → Canonical nested f v :=
    ensures_sequence .parametersArray (ensures_list hext) (fun _ _ => rfl)
    fun p ps hlen hall => ⟨⟨hlen, fun x hx => (hall x hx).1⟩, by
      rw [ValueOver.map, (hall p List.mem_cons_self).2, List.map_congr_left (g := id) fun x hx =>
        (hall x (List.mem_cons_of_mem p hx)).2, List.map_id]⟩
  have hp : Ensures Short (extract >>= fun p => pure (Obj.elem (.parameters p)))
      fun o => ∀ v : ValueOver P, o = v.toObj → Canonical nested f v := by
    refine hext.bind fun p hp => .pure fun v h => ?_
    have hv : .parameters p = v := toObj_injective h
    rw [← hv]
    exact ⟨hp.1, congrArg ValueOver.parameters hp.2⟩
  unfold extractValue
  split
  all_goals first
    | exact helem _
    | exact hseq _
    | exact hp
    | exact hps
    | exact .raise _

theorem ensures_entry (hext : Ensures Short extract fun p => nested p ∧ f p = p) :
    Ensures Short (extractEntry extract)
      fun e => FitsBasic .str e.1 ∧ Canonical nested f e.2 := by
  refine ensures_string.bind fun name hname => ensures_int.bind fun typeCode _ =>
    (ensures_value hext typeCode).bind fun o ho => .lift fun e he => ?_
  cases hv : validateValue o with
  | error err =>
    rw [hv] at he
    cases he
  | ok v =>
    rw [hv] at he
    cases he
    exact ⟨hname, ho v (validateValue_eq_ok.mp hv)⟩

/-- Every collection that is read is one that the format can hold, without holes. -/
theorem ensures_collection (hext : Ensures Short extract fun p => nested p ∧ f p = p) :
    Ensures Short (doDeserialize extract ∅)
      fun p => AllIn FitsBasic FitsLength nested p ∧ compactWith f p = p := by
  intro buf hbuf o p o' h
  obtain ⟨l, hl, rfl⟩ := doDeserialize_eq_ok.mp h
  obtain ⟨hlen, hall⟩ := ensures_list (ensures_entry hext) buf hbuf o l o' hl
  have hitems : ∀ e ∈ (Slots.ofItems l).items, FitsBasic .str e.1 ∧ Canonical nested f e.2 :=
    fun e he => hall e ((Slots.mem_items_setAll he).resolve_left List.not_mem_nil)
  refine ⟨⟨lt_of_le_of_lt (Slots.len_ofItems_le l) hlen, fun e he => ?_⟩, ?_⟩
  · exact ⟨(hitems e he).1, (hitems e he).2.1⟩
  · have hmap : (Slots.ofItems l).items.map (mapEntry f) = (Slots.ofItems l).items := by
      rw [List.map_congr_left (g := id) fun e he => ?_, List.map_id]
      exact Prod.ext rfl (hitems e he).2.2
    change Slots.ofItems ((Slots.ofItems l).items.map (mapEntry f)) = Slots.ofItems l
    rw [hmap, Slots.ofItems_items_ofItems]

end Accepted

theorem ensures_nested (n : ℕ) : Ensures Short (extractNested n) fun p =>
    AllNested FitsBasic FitsLength n p ∧ compactNested n p = p := by
  induction n with
  | zero => exact .raise _
  | succ n ih => exact ensures_collection ih

/-- **Every buffer of less than 2 GiB that is accepted gives a collection that can be serialized**,
and that is read back from its text exactly when it is ASCII. -/
theorem serialize_deserialize {p : Parameters n} {buf : Bytes} (hbuf : buf.length < 2 ^ 31)
    (h : deserialize n ∅ buf = .ok p) :
    ∃ bs, serialize n p = .ok bs ∧ (deserialize n ∅ bs = .ok p ↔ Ascii n p) := by
  obtain ⟨hfits, hcompact⟩ :=
    ensures_collection (ensures_nested n) buf hbuf 0 p _ (deserialize_eq_ok.mp h)
  obtain ⟨bs, hbs⟩ := (exists_serialize_iff p).mpr hfits
  have hiff := deserialize_serialize_iff hbs
  rw [compact, hcompact] at hiff
  exact ⟨bs, hbs, hiff⟩

theorem serialize_deserialize_single :
    ∃ bs, serialize 0 (compact 0 single) = .ok bs ∧
      (deserialize 0 ∅ bs = .ok (compact 0 single) ↔ Ascii 0 (compact 0 single)) :=
  serialize_deserialize (by decide : singleText.length < 2 ^ 31)
    (deserialize_of_ascii serialize_single ascii_single)

end NixSrv.Yami
