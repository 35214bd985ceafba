import NixSrv.Lib.Bytes
import NixSrv.Lib.Reader

/-!
# The elements of a message buffer

The helpers of the message payload that write and read one element: numbers with the lowest byte
first, and texts and binaries behind their length and padded to a full word of 4 bytes.

* `Error`: what is raised;
* `roundTo4`, `slice`, `unpackFrom`: offsets, slices and `struct.unpack_from`;
* `appendInt`, `appendString`, `appendBinary`, `extractInt`, `extractString`, `extractBinary`: the
  helpers;
* `Basic`, `appendBasic`, `extractBasic`, `appendArray`, `extractArray`: all the basic types;
* **`exact_string`**, **`exact_basic`**, **`exact_array`**: exactly which values are read as they
  were written;
* `FitsBasic`, **`exists_appendBasic_iff`**, **`ensures_basic`**: what can be written, and what is
  read.
-/

namespace NixSrv.Yami

open Reader

inductive Error where
  | typeError (text : String)
  | valueError (text : String)
  | keyError (text : String)
  | indexError
  | unicodeDecodeError
  /-- The error of the module `struct`. -/
  | structError
  | recursionError
  deriving DecidableEq

/-- What a helper writes, unless it raises. -/
abbrev Text := Except Error Bytes

/-- `(v + 3) & ~3` -/
def roundTo4 (v : ℤ) : ℤ := (v + 3) / 4 * 4

/-! ## Slices -/

/-- Where an index of a slice lies in a buffer of `len` bytes. -/
def clamp (len : ℕ) (i : ℤ) : ℕ := (if i < 0 then i + len else min i len).toNat

/-- `buf[i:j]` -/
def slice (buf : Bytes) (i j : ℤ) : Bytes :=
  (buf.take (clamp buf.length j)).drop (clamp buf.length i)

theorem clamp_of_nonneg (len i : ℕ) : clamp len i = min i len := by
  rw [clamp, if_neg (by omega)]
  omega

theorem length_slice_le_length (buf : Bytes) (i j : ℤ) : (slice buf i j).length ≤ buf.length := by
  rw [slice, List.length_drop, List.length_take]
  omega

theorem length_slice_le (buf : Bytes) (i n : ℕ) : (slice buf i (i + n)).length ≤ n := by
  have h : ((i : ℤ) + n) = ((i + n : ℕ) : ℤ) := by push_cast; rfl
  rw [slice, h, clamp_of_nonneg, clamp_of_nonneg, List.length_drop, List.length_take]
  omega

/-- A text that stands in a buffer is cut out of it. -/
theorem slice_append (pre bs post : Bytes) :
    slice (pre ++ bs ++ post) pre.length (pre.length + bs.length) = bs := by
  have h : ((pre.length : ℤ) + bs.length) = ((pre ++ bs).length : ℕ) := by
    rw [List.length_append]
    push_cast
    rfl
  rw [slice, h, clamp_of_nonneg, clamp_of_nonneg, Nat.min_eq_left (by simp),
    Nat.min_eq_left (by simp), List.take_left, List.drop_left]

/-! ## Numbers -/

/-- `struct.unpack_from(_, buf, offset)` for a number of `w` bytes. -/
def unpackFrom (w : ℕ) (buf : Bytes) (offset : ℤ) : Except Error ℕ :=
  let start := if offset < 0 then offset + buf.length else offset
  if 0 ≤ start ∧ start + w ≤ buf.length then .ok (leNat ((buf.drop start.toNat).take w))
  else .error .structError

/-- A number of `w` bytes is read. -/
def extractNumber {α : Type} (w : ℕ) (f : ℕ → α) : Reader UInt8 Error α := fun buf offset =>
  (unpackFrom w buf offset).map fun n => (f n, offset + w)

section Numbers

variable {α : Type} {w : ℕ} {f : ℕ → α}

theorem extractNumber_fails {buf : Bytes} {o : ℕ} (h : buf.length < o + w) (a : α) (o' : ℤ) :
    extractNumber w f buf o ≠ .ok (a, o') := by
  rw [extractNumber, unpackFrom]
  rw [if_neg (by omega : ¬((o : ℤ) < 0)), if_neg (by omega)]
  exact fun h => nomatch h

theorem extractNumber_failsBehind : FailsBehind (extractNumber w f) := by
  intro buf o ho a o'
  obtain ⟨n, rfl⟩ := Int.eq_ofNat_of_zero_le (by omega : 0 ≤ o)
  exact extractNumber_fails (by omega) a o'

/-- **A number is read from its bytes.** -/
theorem readsAs_number (hw : 4 ∣ w) {bs : Bytes} (hbs : bs.length = w) :
    ReadsAs 4 (extractNumber w f) bs (f (leNat bs)) where
  dvd_length := hbs ▸ hw
  run pre post _ := by
    have htake : ((pre ++ bs ++ post).drop pre.length).take w = bs := by
      rw [List.append_assoc, List.drop_left, ← hbs, List.take_left]
    rw [extractNumber, unpackFrom]
    rw [if_neg (by omega : ¬((pre.length : ℤ) < 0)), if_pos (by simp; omega), Int.toNat_natCast,
      htake, List.length_append, hbs]
    push_cast
    rfl
  cut pre n _ hn a o h := by
    refine absurd h (extractNumber_fails ?_ a o)
    rw [List.length_append, List.length_take]
    omega

theorem ensures_number {B : Bytes → Prop} {P : α → Prop} (h : ∀ n, P (f n)) :
    Ensures B (extractNumber w f) P := by
  intro buf _ o a o' h'
  unfold extractNumber at h'
  cases hn : unpackFrom w buf o with
  | error e =>
    rw [hn] at h'
    cases h'
  | ok n =>
    rw [hn] at h'
    cases h'
    exact h n

end Numbers

def appendInt (i : ℤ) : Text := if InSigned 4 i then .ok (signedBytes 4 i) else .error .structError

def appendLong (i : ℤ) : Text := if InSigned 8 i then .ok (signedBytes 8 i) else .error .structError

def appendFloat (f : BitVec 64) : Text := .ok (leBytes 8 f.toNat)

def extractInt : Reader UInt8 Error ℤ := extractNumber 4 (signed 4)

def extractLong : Reader UInt8 Error ℤ := extractNumber 8 (signed 8)

def extractFloat : Reader UInt8 Error (BitVec 64) := extractNumber 8 (BitVec.ofNat 64)

theorem failsBehind_int : FailsBehind extractInt := extractNumber_failsBehind

theorem exists_appendInt_iff {i : ℤ} : (∃ bs, appendInt i = .ok bs) ↔ InSigned 4 i := by
  unfold appendInt
  split_ifs with h <;> simp [h]

theorem length_of_appendInt {i : ℤ} {bs : Bytes} (h : appendInt i = .ok bs) : bs.length = 4 := by
  unfold appendInt at h
  split_ifs at h
  cases h
  exact length_signedBytes 4 i

theorem readsAs_int {i : ℤ} {bs : Bytes} (h : appendInt i = .ok bs) :
    ReadsAs 4 extractInt bs i := by
  unfold appendInt at h
  split_ifs at h with hi
  cases h
  have hd := readsAs_number (f := signed 4) (by omega : 4 ∣ 4) (length_signedBytes 4 i)
  rwa [signed_signedBytes hi] at hd

theorem readsAs_long {i : ℤ} {bs : Bytes} (h : appendLong i = .ok bs) :
    ReadsAs 4 extractLong bs i := by
  unfold appendLong at h
  split_ifs at h with hi
  cases h
  have hd := readsAs_number (f := signed 8) (by omega : 4 ∣ 8) (length_signedBytes 8 i)
  rwa [signed_signedBytes hi] at hd

theorem readsAs_float {f : BitVec 64} {bs : Bytes} (h : appendFloat f = .ok bs) :
    ReadsAs 4 extractFloat bs f := by
  cases h
  have hd := readsAs_number (f := BitVec.ofNat 64) (by omega : 4 ∣ 8) (length_leBytes 8 f.toNat)
  have hf : BitVec.ofNat 64 (leNat (leBytes 8 f.toNat)) = f := by
    rw [leNat_leBytes, Nat.mod_eq_of_lt (by have := f.isLt; omega), BitVec.ofNat_toNat,
      BitVec.setWidth_eq]
  rwa [hf] at hd

/-! ## Texts and binaries -/

/-- The zeros that fill the last word. -/
def padding (length : ℕ) : Bytes := List.replicate (roundTo4 length - length).toNat 0

/-- `_append_string_content`, for texts without surrogates, which have a code each. -/
def appendStringContent (s : String) : Bytes := encodeUtf8 s ++ padding s.length

def appendString (s : String) : Text := writeAll [appendInt s.length, .ok (appendStringContent s)]

def appendBinaryContent (b : Bytes) : Bytes := b ++ padding b.length

def appendBinary (b : Bytes) : Text := writeAll [appendInt b.length, .ok (appendBinaryContent b)]

def extractBinaryContent (length : ℤ) : Reader UInt8 Error Bytes := fun buf offset =>
  .ok (slice buf offset (offset + length), roundTo4 (offset + length))

def extractBinary : Reader UInt8 Error Bytes := do
  let length ← extractInt
  extractBinaryContent length

/-- `str(_, "utf-8")` -/
def decode (bs : Bytes) : Except Error String :=
  (decodeUtf8 bs).elim (.error .unicodeDecodeError) .ok

def extractStringContent (length : ℤ) : Reader UInt8 Error String := fun buf offset =>
  (decode (slice buf offset (offset + length))).map fun value => (value, roundTo4 (offset + length))

def extractString : Reader UInt8 Error String := do
  let length ← extractInt
  extractStringContent length

theorem decode_eq_ok {bs : Bytes} {s : String} : decode bs = .ok s ↔ encodeUtf8 s = bs := by
  rw [← decodeUtf8_eq_some, decode]
  cases decodeUtf8 bs <;> simp

theorem extractStringContent_eq_ok {length : ℤ} {buf : Bytes} {o o' : ℤ} {s : String} :
    extractStringContent length buf o = .ok (s, o') ↔
      encodeUtf8 s = slice buf o (o + length) ∧ o' = roundTo4 (o + length) := by
  rw [← decode_eq_ok, extractStringContent]
  cases decode (slice buf o (o + length)) with
  | error e => simp [Except.map]
  | ok t => simp [Except.map, eq_comm]

theorem length_append_padding (b : Bytes) :
    ((b ++ padding b.length).length : ℤ) = roundTo4 b.length := by
  rw [List.length_append, padding, List.length_replicate, roundTo4]
  omega

theorem roundTo4_add {m : ℕ} (hm : 4 ∣ m) (n : ℤ) : roundTo4 (m + n) = m + roundTo4 n := by
  unfold roundTo4
  omega

theorem readsAs_binaryContent (b : Bytes) :
    ReadsAs 4 (extractBinaryContent b.length) (appendBinaryContent b) b where
  dvd_length := by
    have h := length_append_padding b
    unfold roundTo4 at h
    unfold appendBinaryContent
    omega
  run pre post hpre := by
    have h := length_append_padding b
    rw [extractBinaryContent, appendBinaryContent, roundTo4_add hpre, ← h, List.append_assoc,
      List.append_assoc, ← List.append_assoc, slice_append]
    simp
  cut pre n hpre hn a o h := by
    have hb := length_append_padding b
    cases h
    rw [roundTo4_add hpre, ← hb, List.length_append, List.length_take]
    unfold appendBinaryContent at hn
    push_cast
    omega

/-- What stands behind its length is read when its content is. -/
theorem readsAs_of_length {α : Type} {n : ℤ} {content : Bytes} {bs : Bytes}
    {k : ℤ → Reader UInt8 Error α} {a : α} (h : writeAll [appendInt n, .ok content] = .ok bs)
    (hk : ReadsAs 4 (k n) content a) : ReadsAs 4 (extractInt >>= k) bs a := by
  obtain ⟨b₁, b₂, h₁, h₂, rfl⟩ := writeAll_cons_eq_ok.mp h
  rw [writeAll_singleton] at h₂
  cases h₂
  refine (readsAs_int h₁).bind_of_fails (fun pre m hm a' o => extractNumber_fails ?_ a' o) hk
  rw [List.length_append, List.length_take]
  have := length_of_appendInt h₁
  omega

theorem readsAs_binary {b bs : Bytes} (h : appendBinary b = .ok bs) :
    ReadsAs 4 extractBinary bs b :=
  readsAs_of_length h (readsAs_binaryContent b)

theorem readsAs_stringContent {s : String} (hs : IsAscii s) :
    ReadsAs 4 (extractStringContent s.length) (appendStringContent s) s := by
  have hlen := (length_encodeUtf8_eq_iff s).mpr hs
  have hb := readsAs_binaryContent (encodeUtf8 s)
  rw [appendBinaryContent, hlen, ← appendStringContent] at hb
  refine ⟨hb.dvd_length, fun pre post hpre => ?_, fun pre n hpre hn a o h => ?_⟩
  · have hrun := hb.run pre post hpre
    rw [extractBinaryContent, Except.ok.injEq, Prod.mk.injEq] at hrun
    rw [extractStringContent_eq_ok]
    exact ⟨hrun.1.symm, hrun.2.symm⟩
  · rw [extractStringContent_eq_ok] at h
    exact hb.cut pre n hpre hn _ o (by rw [h.2]; rfl)

/-- **A text with a character of several bytes is not read back**: the length that stands before it
counts its characters. -/
theorem misreads_stringContent {s : String} (hs : ¬IsAscii s) (bs : Bytes) :
    Misreads 4 (extractStringContent s.length) bs s := by
  intro pre post o _ h
  have hslice := length_slice_le (pre ++ bs ++ post) pre.length s.length
  have hle := length_le_length_encodeUtf8 s
  rw [← (extractStringContent_eq_ok.mp h).1] at hslice
  exact hs ((length_encodeUtf8_eq_iff s).mp (by omega))

theorem exact_string (s : String) : Exact 4 (IsAscii s) (appendString s) extractString s := by
  intro bs h
  refine ⟨fun hs => readsAs_of_length h (readsAs_stringContent hs), fun hs => ?_⟩
  obtain ⟨b₁, b₂, h₁, -, rfl⟩ := writeAll_cons_eq_ok.mp h
  exact .bind_right (readsAs_int h₁) (misreads_stringContent hs b₂)

/-! ## Basic types -/

inductive Basic where
  | bool | int | long | float | str | bytes
  deriving DecidableEq

namespace Basic

/-- The values of a type: a float is its 64 bits, and a text has no surrogates. -/
abbrev Carrier : Basic → Type
  | bool => Bool
  | int => ℤ
  | long => ℤ
  | float => BitVec 64
  | str => String
  | bytes => Bytes

/-- The type code of a value. -/
def code : Basic → ℤ
  | bool => 1
  | int => 2
  | long => 3
  | float => 4
  | str => 5
  | bytes => 6

/-- The type code of an array. -/
def arrayCode : Basic → ℤ
  | bool => 7
  | int => 8
  | long => 9
  | float => 10
  | str => 11
  | bytes => 12

end Basic

def appendBasic : (t : Basic) → t.Carrier → Text
  | .bool, v => appendInt v.toInt
  | .int, v => appendInt v
  | .long, v => appendLong v
  | .float, v => appendFloat v
  | .str, v => appendString v
  | .bytes, v => appendBinary v

def extractBasic : (t : Basic) → Reader UInt8 Error t.Carrier
  | .bool => do
    let value ← extractInt
    return value != 0
  | .int => extractInt
  | .long => extractLong
  | .float => extractFloat
  | .str => extractString
  | .bytes => extractBinary

/-- A list behind its length. -/
def appendList {α : Type} (append : α → Text) (value : List α) : Text :=
  writeAll [appendInt value.length, writeAll (value.map append)]

def extractList {α : Type} (extract : Reader UInt8 Error α) : Reader UInt8 Error (List α) := do
  let length ← extractInt
  replicate extract length.toNat

def appendBools (value : List Bool) : Text :=
  writeAll [appendInt value.length, .ok (appendBinaryContent (packBits value))]

/-- The booleans of a packed array; there is no byte behind its end. -/
def unpack (packed : Bytes) (length : ℕ) : Except Error (List Bool) :=
  (unpackBits packed length).elim (.error .indexError) .ok

def extractBools : Reader UInt8 Error (List Bool) := do
  let length ← extractInt
  let packed ← extractBinaryContent ((length + 7) / 8)
  lift (unpack packed length.toNat)

def appendArray : (t : Basic) → List t.Carrier → Text
  | .bool, vs => appendBools vs
  | .int, vs => appendList (appendBasic .int) vs
  | .long, vs => appendList (appendBasic .long) vs
  | .float, vs => appendList (appendBasic .float) vs
  | .str, vs => appendList (appendBasic .str) vs
  | .bytes, vs => appendList (appendBasic .bytes) vs

def extractArray : (t : Basic) → Reader UInt8 Error (List t.Carrier)
  | .bool => extractBools
  | .int => extractList (extractBasic .int)
  | .long => extractList (extractBasic .long)
  | .float => extractList (extractBasic .float)
  | .str => extractList (extractBasic .str)
  | .bytes => extractList (extractBasic .bytes)

/-- The texts in a value have characters of one byte each. -/
def AsciiBasic : (t : Basic) → t.Carrier → Prop
  | .str, v => IsAscii v
  | .bool, _ | .int, _ | .long, _ | .float, _ | .bytes, _ => True

theorem failsBehind_basic (t : Basic) : FailsBehind (extractBasic t) := by
  cases t with
  | bool => exact failsBehind_int.bind _
  | int => exact extractNumber_failsBehind
  | long => exact extractNumber_failsBehind
  | float => exact extractNumber_failsBehind
  | str => exact failsBehind_int.bind _
  | bytes => exact failsBehind_int.bind _

theorem failsBehind_array (t : Basic) : FailsBehind (extractArray t) := by
  cases t <;> exact failsBehind_int.bind _

/-- **A basic value is read as it was written, unless it is a text with a character of several
bytes**; then it never is. -/
theorem exact_basic (t : Basic) (v : t.Carrier) :
    Exact 4 (AsciiBasic t v) (appendBasic t v) (extractBasic t) v := by
  cases t with
  | bool =>
    refine .of_readsAs fun bs h => ?_
    have hd := (readsAs_int h).map (f := fun value => value != 0)
    rwa [show (v.toInt != 0) = v by cases v <;> rfl] at hd
  | int => exact .of_readsAs fun bs h => readsAs_int h
  | long => exact .of_readsAs fun bs h => readsAs_long h
  | float => exact .of_readsAs fun bs h => readsAs_float h
  | str => exact exact_string v
  | bytes => exact .of_readsAs fun bs h => readsAs_binary h

/-- A list is read when each of its members is. -/
theorem exact_list {ι α : Type} {p : ι → Prop} {append : ι → Text} {extract : Reader UInt8 Error α}
    {value : ι → α} (hs : StaysBehind extract) {xs : List ι}
    (h : ∀ x ∈ xs, Exact 4 (p x) (append x) extract (value x)) :
    Exact 4 (∀ x ∈ xs, p x) (appendList append xs) (extractList extract) (xs.map value) := by
  have hlen : Exact 4 True (appendInt xs.length) extractInt (xs.length : ℤ) :=
    .of_readsAs fun bs h => readsAs_int h
  have hxs := Exact.replicate hs h
  refine hlen.cons_true ?_ fun _ => hs.replicate _
  rwa [writeAll_singleton, Int.toNat_natCast]

theorem exact_bools (vs : List Bool) : Exact 4 True (appendBools vs) extractBools vs := by
  refine .of_readsAs fun bs h => readsAs_of_length h ?_
  have hlen : ((vs.length : ℤ) + 7) / 8 = ((packBits vs).length : ℕ) := by
    rw [length_packBits]
    omega
  have hunpack : unpack (packBits vs) (vs.length : ℤ).toNat = .ok vs := by
    rw [unpack, Int.toNat_natCast, unpackBits_packBits]
    rfl
  have hk : ReadsAs 4 (lift (unpack (packBits vs) (vs.length : ℤ).toNat)) ([] : Bytes) vs := by
    rw [hunpack]
    exact .pure vs
  have hd := (readsAs_binaryContent (packBits vs)).bind
    (k := fun packed => lift (unpack packed (vs.length : ℤ).toNat)) hk fun _ => .lift _
  rwa [List.append_nil, ← hlen] at hd

/-- **An array is read as it was written when each of its members is.** -/
theorem exact_array (t : Basic) (vs : List t.Carrier) :
    Exact 4 (∀ v ∈ vs, AsciiBasic t v) (appendArray t vs) (extractArray t) vs := by
  have hlist : Exact 4 (∀ v ∈ vs, AsciiBasic t v) (appendList (appendBasic t) vs)
      (extractList (extractBasic t)) vs := by
    have h := exact_list (failsBehind_basic t).staysBehind fun v (_ : v ∈ vs) => exact_basic t v
    rwa [List.map_id'] at h
  cases t with
  | bool => exact (exact_bools vs).congr (by simp [AsciiBasic])
  | int => exact hlist
  | long => exact hlist
  | float => exact hlist
  | str => exact hlist
  | bytes => exact hlist

/-! ## What can be written -/

/-- A length that the format can hold. -/
def FitsLength (n : ℕ) : Prop := n < 2 ^ 31

/-- A value that the format can hold. -/
def FitsBasic : (t : Basic) → t.Carrier → Prop
  | .int, v => InSigned 4 v
  | .long, v => InSigned 8 v
  | .str, v => FitsLength v.length
  | .bytes, v => FitsLength v.length
  | .bool, _ | .float, _ => True

theorem inSigned_length_iff {n : ℕ} : InSigned 4 (n : ℤ) ↔ FitsLength n := by
  unfold InSigned FitsLength
  omega

/-- What stands behind a length can be written when the length and the content can. -/
theorem exists_appendLength_iff {n : ℕ} {w : Text} :
    (∃ bs, writeAll [appendInt n, w] = .ok bs) ↔ FitsLength n ∧ ∃ bs, w = .ok bs := by
  rw [exists_writeAll_iff, List.forall_mem_cons, List.forall_mem_singleton, exists_appendInt_iff,
    inSigned_length_iff]

theorem exists_appendString_iff {s : String} :
    (∃ bs, appendString s = .ok bs) ↔ FitsLength s.length := by
  rw [appendString, exists_appendLength_iff]
  exact and_iff_left ⟨_, rfl⟩

theorem exists_appendBasic_iff {t : Basic} {v : t.Carrier} :
    (∃ bs, appendBasic t v = .ok bs) ↔ FitsBasic t v := by
  cases t with
  | bool =>
    refine exists_appendInt_iff.trans (iff_of_true ?_ trivial)
    cases v <;> decide
  | int => exact exists_appendInt_iff
  | long =>
    change (∃ bs, appendLong v = .ok bs) ↔ InSigned 8 v
    unfold appendLong
    split_ifs with h <;> simp [h]
  | float => exact iff_of_true ⟨_, rfl⟩ trivial
  | str => exact exists_appendString_iff
  | bytes => exact exists_appendLength_iff.trans (and_iff_left ⟨_, rfl⟩)

theorem exists_appendList_iff {α : Type} {append : α → Text} {vs : List α} :
    (∃ bs, appendList append vs = .ok bs) ↔
      FitsLength vs.length ∧ ∀ v ∈ vs, ∃ bs, append v = .ok bs := by
  rw [appendList, exists_appendLength_iff, exists_writeAll_iff, List.forall_mem_map]

theorem exists_appendArray_iff {t : Basic} {vs : List t.Carrier} :
    (∃ bs, appendArray t vs = .ok bs) ↔ FitsLength vs.length ∧ ∀ v ∈ vs, FitsBasic t v := by
  have hlist : (∃ bs, appendList (appendBasic t) vs = .ok bs) ↔
      FitsLength vs.length ∧ ∀ v ∈ vs, FitsBasic t v := by
    rw [exists_appendList_iff]
    simp only [exists_appendBasic_iff]
  cases t with
  | bool =>
    change (∃ bs, appendBools vs = .ok bs) ↔ _
    rw [appendBools, exists_appendLength_iff]
    exact and_congr_right fun _ => iff_of_true ⟨_, rfl⟩ fun _ _ => trivial
  | int => exact hlist
  | long => exact hlist
  | float => exact hlist
  | str => exact hlist
  | bytes => exact hlist

/-- A buffer of less than 2 GiB. -/
def Short (buf : Bytes) : Prop := FitsLength buf.length

theorem ensures_int : Ensures Short extractInt (InSigned 4) :=
  ensures_number fun n => signed_inSigned (by omega) n

theorem ensures_string : Ensures Short extractString fun s => FitsLength s.length := by
  refine ensures_int.bind fun length _ => ?_
  intro buf hbuf o s o' h
  have hslice := length_slice_le_length buf o (o + length)
  have hle := length_le_length_encodeUtf8 s
  rw [← (extractStringContent_eq_ok.mp h).1] at hslice
  exact lt_of_le_of_lt (hle.trans hslice) hbuf

/-- **Every basic value that is read can be written.** -/
theorem ensures_basic (t : Basic) : Ensures Short (extractBasic t) (FitsBasic t) := by
  cases t with
  | bool => exact ensures_int.bind fun _ _ => .pure trivial
  | int => exact ensures_int
  | long => exact ensures_number fun n => signed_inSigned (by omega) n
  | float => exact ensures_number fun _ => trivial
  | str => exact ensures_string
  | bytes =>
    refine ensures_int.bind fun length _ => ?_
    intro buf hbuf o b o' h
    cases h
    exact lt_of_le_of_lt (length_slice_le_length buf o (o + length)) hbuf

theorem fitsLength_toNat {i : ℤ} (h : InSigned 4 i) : FitsLength i.toNat := by
  have hi := h.2
  unfold FitsLength
  omega

theorem ensures_list {α : Type} {extract : Reader UInt8 Error α} {P : α → Prop}
    (h : Ensures Short extract P) :
    Ensures Short (extractList extract) fun vs => FitsLength vs.length ∧ ∀ v ∈ vs, P v := by
  refine ensures_int.bind fun length hlength => (h.replicate length.toNat).mono ?_
  rintro vs ⟨hlen, hvs⟩
  rw [hlen]
  exact ⟨fitsLength_toNat hlength, hvs⟩

/-- **Every array that is read can be written.** -/
theorem ensures_array (t : Basic) : Ensures Short (extractArray t) fun vs =>
    FitsLength vs.length ∧ ∀ v ∈ vs, FitsBasic t v := by
  cases t with
  | bool =>
    refine ensures_int.bind fun length hlength => ?_
    refine Ensures.bind (P := fun _ => True) (fun _ _ _ _ _ _ => trivial) fun packed _ => .lift ?_
    intro vs h
    have hn : vs.length = length.toNat := by
      cases hu : unpackBits packed length.toNat with
      | none =>
        rw [unpack, hu] at h
        cases h
      | some vs' =>
        rw [unpack, hu] at h
        cases h
        exact length_of_unpackBits hu
    rw [hn]
    exact ⟨fitsLength_toNat hlength, fun _ _ => trivial⟩
  | int => exact ensures_list (ensures_basic .int)
  | long => exact ensures_list (ensures_basic .long)
  | float => exact ensures_list (ensures_basic .float)
  | str => exact ensures_list (ensures_basic .str)
  | bytes => exact ensures_list (ensures_basic .bytes)

end NixSrv.Yami
