import NixSrv.Yami.Parameters

/-!
# The payload of a message

Serialization of collections of parameters, whose values may be collections again. `Parameters n`
are those that are nested at most `n` deep; `n` is what the recursion limit of Python leaves.

* `Nested`, `Parameters`, `serialize`, `deserialize`: collections and the two directions;
* `ValueOver.All`, `Ascii`, `Fits`, `compact`: texts of one byte a character, what the format can
  hold, and a collection without its holes;
* **`doDeserialize_eq_ok`**: the entries are read one after another, and set one after another;
* **`exact_entry`**, **`exact_collection`**, **`exact_nested`**: exactly what is read as it was
  written.
-/

namespace NixSrv.Yami

open Reader

/-! ## The format -/

section Format

variable {P : Type}

/-- The type code of a value. -/
def ValueOver.typeCode : ValueOver P → ℤ
  | .basic t _ => t.code
  | .array t _ _ => t.arrayCode
  | .parameters _ => 13
  | .parametersArray _ _ => 14

/-- A value, behind its type code. -/
def appendValue (serialize : P → Text) : ValueOver P → Text
  | .basic t v => appendBasic t v
  | .array t v vs => appendArray t (v :: vs)
  | .parameters p => serialize p
  | .parametersArray p ps => appendList serialize (p :: ps)

def appendEntry (serialize : P → Text) (e : String × ValueOver P) : Text :=
  writeAll [appendString e.1, appendInt e.2.typeCode, appendValue serialize e.2]

/-- `serialize`, with the method of the nested collections. -/
def serializeWith (serialize : P → Text) (dictionary : Collection P) : Text :=
  writeAll [appendInt dictionary.len, writeAll ((visited dictionary).map fun
    | none => .ok []
    | some e => appendEntry serialize e)]

def extractElem (t : Basic) : Reader UInt8 Error (Obj P) := do
  let value ← extractBasic t
  return .elem (.basic t value)

def extractSequence (t : Basic) : Reader UInt8 Error (Obj P) := do
  let value ← extractArray t
  return .sequence (value.map (.basic t))

def unexpected : Error := .valueError "Unexpected value in the buffer."

/-- The value behind a type code. -/
def extractValue (extract : Reader UInt8 Error P) (typeCode : ℤ) : Reader UInt8 Error (Obj P) :=
  match typeCode with
  | 1 => extractElem .bool
  | 2 => extractElem .int
  | 3 => extractElem .long
  | 4 => extractElem .float
  | 5 => extractElem .str
  | 6 => extractElem .bytes
  | 7 => extractSequence .bool
  | 8 => extractSequence .int
  | 9 => extractSequence .long
  | 10 => extractSequence .float
  | 11 => extractSequence .str
  | 12 => extractSequence .bytes
  | 13 => do
    let nested ← extract
    return .elem (.parameters nested)
  | 14 => do
    let value ← extractList extract
    return .sequence (value.map .parameters)
  | _ => raise unexpected

/-- One pass of the loop of `__do_deserialize`. -/
def deserializeEntry (extract : Reader UInt8 Error P) (p : Collection P) :
    Reader UInt8 Error (Collection P) := do
  let name ← extractString
  let typeCode ← extractInt
  let value ← extractValue extract typeCode
  lift (setItem p name value)

/-- `__do_deserialize`, with the reader of the nested collections. -/
def doDeserialize (extract : Reader UInt8 Error P) (p : Collection P) :
    Reader UInt8 Error (Collection P) := do
  let numOfEntries ← extractInt
  iterate (deserializeEntry extract) numOfEntries.toNat p

end Format

/-- Collections that are nested less than `n` deep. -/
def Nested : ℕ → Type
  | 0 => Empty
  | n + 1 => Collection (Nested n)

/-- Collections that are nested at most `n` deep. -/
abbrev Parameters (n : ℕ) := Collection (Nested n)

def serializeNested : (n : ℕ) → Nested n → Text
  | 0, p => Empty.elim p
  | n + 1, p => serializeWith (serializeNested n) p

def serialize (n : ℕ) (p : Parameters n) : Text := serializeWith (serializeNested n) p

/-- A nested collection is read into an empty one; the recursion ends at the limit. -/
def extractNested : (n : ℕ) → Reader UInt8 Error (Nested n)
  | 0 => raise .recursionError
  | n + 1 => doDeserialize (extractNested n) (∅ : Collection (Nested n))

/-- `p.deserialize(buf)`, which goes on from the content of `p`. -/
def deserialize (n : ℕ) (p : Parameters n) (buf : Bytes) : Except Error (Parameters n) :=
  match doDeserialize (extractNested n) p buf 0 with
  | .error e => .error e
  | .ok (p, offset) => if offset ≠ buf.length then .error unexpected else .ok p

/-! ## Predicates on whole collections -/

section Predicates

variable {P Q : Type}

/-- What holds of the basic values, the lengths of arrays and the nested collections in a value. -/
def ValueOver.All (basic : (t : Basic) → t.Carrier → Prop) (length : ℕ → Prop) (nested : P → Prop) :
    ValueOver P → Prop
  | .basic t v => basic t v
  | .array t v vs => length (v :: vs).length ∧ ∀ x ∈ v :: vs, basic t x
  | .parameters p => nested p
  | .parametersArray p ps => length (p :: ps).length ∧ ∀ x ∈ p :: ps, nested x

/-- What holds of the number of entries, the names and the values of a collection. -/
def AllIn (basic : (t : Basic) → t.Carrier → Prop) (length : ℕ → Prop) (nested : P → Prop)
    (p : Collection P) : Prop :=
  length p.len ∧ ∀ e ∈ p.items, basic .str e.1 ∧ e.2.All basic length nested

def AllNested (basic : (t : Basic) → t.Carrier → Prop) (length : ℕ → Prop) :
    (n : ℕ) → Nested n → Prop
  | 0, p => Empty.elim p
  | n + 1, p => AllIn basic length (AllNested basic length n) p

/-- All names and texts have characters of one byte each. -/
def Ascii (n : ℕ) (p : Parameters n) : Prop :=
  AllIn AsciiBasic (fun _ => True) (AllNested AsciiBasic (fun _ => True) n) p

/-- All numbers are in the range of their types, and all lengths below 2^31. -/
def Fits (n : ℕ) (p : Parameters n) : Prop :=
  AllIn FitsBasic FitsLength (AllNested FitsBasic FitsLength n) p

def ValueOver.map (f : P → Q) : ValueOver P → ValueOver Q
  | .basic t v => .basic t v
  | .array t v vs => .array t v vs
  | .parameters p => .parameters (f p)
  | .parametersArray p ps => .parametersArray (f p) (ps.map f)

/-- The entries with changed nested collections. -/
def mapEntry (f : P → Q) (e : String × ValueOver P) : String × ValueOver Q := (e.1, e.2.map f)

/-- A collection with the same entries and no holes. -/
def compactWith (f : P → Q) (p : Collection P) : Collection Q :=
  Slots.ofItems (p.items.map (mapEntry f))

end Predicates

def compactNested : (n : ℕ) → Nested n → Nested n
  | 0, p => p
  | n + 1, p => compactWith (compactNested n) p

/-- A collection without holes, and without holes in the nested ones. -/
def compact (n : ℕ) (p : Parameters n) : Parameters n := compactWith (compactNested n) p

/-! ## Exactly what is read as it was written -/

section Exact

variable {P : Type} {serialize : P → Text} {extract : Reader UInt8 Error P} {nested : P → Prop}
  {f : P → P}

/-- The reader of one entry. -/
def extractEntry (extract : Reader UInt8 Error P) : Reader UInt8 Error (String × ValueOver P) := do
  let name ← extractString
  let typeCode ← extractInt
  let value ← extractValue extract typeCode
  lift ((validateValue value).map fun v => (name, v))

theorem serializeWith_eq (p : Collection P) :
    serializeWith serialize p = appendList (appendEntry serialize) p.items := by
  rw [serializeWith, visited_eq, List.map_map, appendList, Slots.size_index]
  rfl

theorem deserializeEntry_eq (p : Collection P) :
    deserializeEntry extract p = extractEntry extract >>= fun e => lift (.ok (p.set e.1 e.2)) := by
  have hlift : ∀ name value, (lift (setItem p name value) : Reader UInt8 Error (Collection P)) =
      lift ((validateValue value).map fun v => (name, v)) >>= fun e =>
        lift (.ok (p.set e.1 e.2)) := by
    intro name value
    funext buf o
    rw [setItem]
    cases validateValue value <;> rfl
  simp only [deserializeEntry, extractEntry, bind_assoc, hlift]

/-- **A collection is read as a list of entries**, which are then set one after another. -/
theorem doDeserialize_eq_ok {p p' : Collection P} {buf : Bytes} {o o' : ℤ} :
    doDeserialize extract p buf o = .ok (p', o') ↔
      ∃ l, extractList (extractEntry extract) buf o = .ok (l, o') ∧ p' = p.setAll l := by
  have hstep : deserializeEntry extract = fun p =>
      extractEntry extract >>= fun e => lift (.ok (p.set e.1 e.2)) := funext deserializeEntry_eq
  have hloop : ∀ n (o : ℤ), iterate (fun p : Collection P =>
      extractEntry extract >>= fun e => lift (.ok (p.set e.1 e.2))) n p buf o = .ok (p', o') ↔
        ∃ l, replicate (extractEntry extract) n buf o = .ok (l, o') ∧ (∀ e ∈ l, True) ∧
          p' = l.foldl (fun p e => p.set e.1 e.2) p := fun n o =>
    iterate_eq_ok (P := fun _ => True) (fun s a s' => by simp [eq_comm]) n
  rw [doDeserialize, extractList, hstep]
  simp only [bind_eq_ok, hloop, Slots.setAll]
  constructor
  · rintro ⟨n, o₁, hn, l, hl, -, rfl⟩
    exact ⟨l, ⟨n, o₁, hn, hl⟩, rfl⟩
  · rintro ⟨l, ⟨n, o₁, hn, hl⟩, rfl⟩
    exact ⟨n, o₁, hn, l, hl, fun _ _ => trivial, rfl⟩

theorem staysBehind_value (hs : StaysBehind extract) (typeCode : ℤ) :
    StaysBehind (extractValue extract typeCode) := by
  have helem : ∀ t, StaysBehind (extractElem (P := P) t) := fun t =>
    ((failsBehind_basic t).bind _).staysBehind
  have hseq : ∀ t, StaysBehind (extractSequence (P := P) t) := fun t =>
    ((failsBehind_array t).bind _).staysBehind
  unfold extractValue
  split
  all_goals first
    | exact helem _
    | exact hseq _
    | exact hs.bind fun _ => .pure _
    | exact ((failsBehind_int.bind _).bind _).staysBehind
    | exact .raise _

theorem failsBehind_entry : FailsBehind (extractEntry extract) :=
  (failsBehind_int.bind _).bind _

theorem failsBehind_collection (p : Collection P) : FailsBehind (doDeserialize extract p) :=
  failsBehind_int.bind _

/-- What `validateValue` makes of the object that a value is made of. -/
theorem validate_toObj (v : ValueOver P) : validateValue v.toObj = .ok v :=
  validateValue_eq_ok.mpr rfl

/-- A value is read when all that is in it is. -/
theorem exact_value (hs : StaysBehind extract)
    (h : ∀ p, Exact 4 (nested p) (serialize p) extract (f p)) (v : ValueOver P) :
    Exact 4 (v.All AsciiBasic (fun _ => True) nested) (appendValue serialize v)
      (extractValue extract v.typeCode) (v.map f).toObj := by
  cases v with
  | basic t v =>
    have hv := (exact_basic t v).map (f := fun v => (Obj.elem (.basic t v) : Obj P))
      (fun a b h => by cases h; rfl)
    cases t <;> exact hv
  | array t v vs =>
    have hv := (exact_array t (v :: vs)).map
      (f := fun vs => (Obj.sequence (vs.map (.basic t)) : Obj P))
      (fun a b h => List.map_injective_iff.mpr (fun x y h => by cases h; rfl) (Obj.sequence.inj h))
    have hv' := hv.congr (q := (ValueOver.array t v vs).All AsciiBasic (fun _ => True) nested)
      (by simp [ValueOver.All])
    cases t <;> exact hv'
  | parameters p =>
    exact (h p).map (f := fun p => (Obj.elem (.parameters p) : Obj P))
      (fun a b h => by cases h; rfl)
  | parametersArray p ps =>
    have hps := (exact_list hs fun x (_ : x ∈ p :: ps) => h x).map
      (f := fun ps => (Obj.sequence (ps.map .parameters) : Obj P))
      (fun a b h => List.map_injective_iff.mpr (fun x y h => by cases h; rfl) (Obj.sequence.inj h))
    exact hps.congr (by simp [ValueOver.All])

/-- **An entry is read when its name and its value are.** -/
theorem exact_entry (hs : StaysBehind extract)
    (h : ∀ p, Exact 4 (nested p) (serialize p) extract (f p)) (e : String × ValueOver P) :
    Exact 4 (IsAscii e.1 ∧ e.2.All AsciiBasic (fun _ => True) nested) (appendEntry serialize e)
      (extractEntry extract) (mapEntry f e) := by
  have hcode : Exact 4 True (appendInt e.2.typeCode) extractInt e.2.typeCode :=
    .of_readsAs fun bs h => readsAs_int h
  have hvalue := (exact_value hs h e.2).finish
    (k := fun value => lift ((validateValue value).map fun v => (e.1, v))) (c := mapEntry f e)
    (by rw [validate_toObj]; rfl) (fun _ => .lift _) fun o buf i i' h => by
      obtain ⟨h, -⟩ := lift_eq_ok.mp h
      cases hv : validateValue o with
      | error err =>
        rw [hv] at h
        cases h
      | ok v =>
        rw [hv] at h
        cases h
        exact validateValue_eq_ok.mp hv
  rw [← writeAll_singleton (appendValue serialize e.2)] at hvalue
  have hrest : ∀ name : String, StaysBehind (extractInt >>= fun typeCode =>
      extractValue extract typeCode >>= fun value =>
        lift ((validateValue value).map fun v => (name, v))) := fun name =>
    (failsBehind_int.bind _).staysBehind
  refine (exact_string e.1).cons (hcode.cons_true hvalue fun typeCode =>
    (staysBehind_value hs typeCode).bind fun _ => .lift _) hrest fun name buf o o' h => ?_
  obtain ⟨typeCode, o₁, -, h⟩ := bind_eq_ok.mp h
  obtain ⟨value, o₂, -, h⟩ := bind_eq_ok.mp h
  obtain ⟨h, -⟩ := lift_eq_ok.mp h
  cases hv : validateValue value with
  | error err =>
    rw [hv] at h
    cases h
  | ok v =>
    rw [hv] at h
    cases h
    rfl

theorem nodup_map_mapEntry {Q : Type} (f : P → Q) (p : Collection P) :
    ((p.items.map (mapEntry f)).map Prod.fst).Nodup := by
  rw [List.map_map]
  exact p.nodup_names

/-- **The entries of a collection are read when each of them is.** -/
theorem exact_entries (hs : StaysBehind extract)
    (h : ∀ p, Exact 4 (nested p) (serialize p) extract (f p)) (p : Collection P) :
    Exact 4 (AllIn AsciiBasic (fun _ => True) nested p) (serializeWith serialize p)
      (extractList (extractEntry extract)) (p.items.map (mapEntry f)) := by
  rw [serializeWith_eq]
  exact (exact_list failsBehind_entry.staysBehind fun e (_ : e ∈ p.items) =>
    exact_entry hs h e).congr (and_iff_right trivial).symm

/-- **A collection is read when all its entries are.** -/
theorem exact_collection (hs : StaysBehind extract)
    (h : ∀ p, Exact 4 (nested p) (serialize p) extract (f p)) (p : Collection P) :
    Exact 4 (AllIn AsciiBasic (fun _ => True) nested p) (serializeWith serialize p)
      (doDeserialize extract ∅) (compactWith f p) := by
  have hlist := exact_entries hs h p
  intro bs hbs
  refine ⟨fun hp => ?_, fun hp => ?_⟩
  · have hd := (hlist bs hbs).1 hp
    refine ⟨hd.dvd_length, fun pre post hpre => ?_, fun pre n hpre hn p' o hread => ?_⟩
    · exact doDeserialize_eq_ok.mpr ⟨_, hd.run pre post hpre, rfl⟩
    · obtain ⟨l, hl, -⟩ := doDeserialize_eq_ok.mp hread
      exact hd.cut pre n hpre hn l o hl
  · have hm := (hlist bs hbs).2 hp
    intro pre post o hpre hread
    obtain ⟨l, hl, heq⟩ := doDeserialize_eq_ok.mp hread
    -- as many entries are read as were written, so none was set twice
    have hlen : l.length = (p.items.map (mapEntry f)).length := by
      rw [serializeWith_eq] at hbs
      obtain ⟨b₁, b₂, h₁, -, rfl⟩ := writeAll_cons_eq_ok.mp hbs
      obtain ⟨n, o₁, hn, hl⟩ := bind_eq_ok.mp hl
      have hrun := (readsAs_int h₁).run pre (b₂ ++ post) hpre
      simp only [List.append_assoc] at hn hrun
      rw [hn] at hrun
      cases hrun
      rw [length_replicate hl, Int.toNat_natCast, List.length_map]
    rw [Slots.eq_of_ofItems_eq (nodup_map_mapEntry f p) hlen heq.symm] at hl
    exact hm pre post o hpre hl

end Exact

theorem failsBehind_nested : (n : ℕ) → FailsBehind (extractNested n)
  | 0 => fun _ _ _ _ _ h => nomatch h
  | _ + 1 => failsBehind_collection _

/-- **A nested collection is read when all its texts are ASCII.** -/
theorem exact_nested (n : ℕ) (p : Nested n) :
    Exact 4 (AllNested AsciiBasic (fun _ => True) n p) (serializeNested n p) (extractNested n)
      (compactNested n p) := by
  induction n with
  | zero => exact Empty.elim p
  | succ n ih => exact exact_collection (failsBehind_nested n).staysBehind ih p

end NixSrv.Yami
