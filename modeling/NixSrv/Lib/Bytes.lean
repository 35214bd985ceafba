import Mathlib.Algebra.Order.Ring.Int
import Mathlib.Data.Nat.Bitwise
import Mathlib.Tactic.Ring

/-!
# Numbers, texts and booleans as bytes

* `leBytes`, `leNat`, **`leNat_leBytes`**: a number as bytes, the lowest first;
* `signedBytes`, `signed`, **`signed_signedBytes`**: two's complement;
* `encodeUtf8`, `decodeUtf8`, **`decodeUtf8_eq_some`**, **`length_encodeUtf8_eq_iff`**: texts;
* `hasBit`, `setBit`, `packBits`, `unpackBits`, **`unpackBits_packBits`**: booleans, eight to a
  byte.
-/

/-- A text of bytes. -/
abbrev Bytes := List UInt8

/-! ## Numbers -/

/-- The lowest `w` bytes of `n`, the lowest first. -/
def leBytes : ℕ → ℕ → Bytes
  | 0, _ => []
  | w + 1, n => UInt8.ofNat n :: leBytes w (n / 256)

/-- The number that the bytes stand for. -/
def leNat : Bytes → ℕ
  | [] => 0
  | b :: bs => b.toNat + 256 * leNat bs

@[simp] theorem length_leBytes (w n : ℕ) : (leBytes w n).length = w := by
  induction w generalizing n with
  | zero => rfl
  | succ w ih => rw [leBytes, List.length_cons, ih]

/-- **The bytes of a number stand for it**, as far as they reach. -/
theorem leNat_leBytes (w n : ℕ) : leNat (leBytes w n) = n % 256 ^ w := by
  induction w generalizing n with
  | zero => rw [leBytes, leNat, pow_zero, Nat.mod_one]
  | succ w ih =>
    have hb : (UInt8.ofNat n).toNat = n % 256 := UInt8.toNat_ofNat'
    rw [leBytes, leNat, ih, hb, pow_succ', Nat.mod_mul]

/-- The integer in two's complement of `w` bytes. -/
def signed (w n : ℕ) : ℤ := Int.bmod n (256 ^ w)

/-- The range of the integers of `w` bytes. -/
def InSigned (w : ℕ) (i : ℤ) : Prop := -((256 ^ w / 2 : ℕ) : ℤ) ≤ i ∧ i < ((256 ^ w / 2 : ℕ) : ℤ)

instance (w : ℕ) (i : ℤ) : Decidable (InSigned w i) := inferInstanceAs (Decidable (_ ∧ _))

/-- The bytes of an integer in two's complement. -/
def signedBytes (w : ℕ) (i : ℤ) : Bytes := leBytes w (i % (256 ^ w : ℕ)).toNat

@[simp] theorem length_signedBytes (w : ℕ) (i : ℤ) : (signedBytes w i).length = w :=
  length_leBytes w _

theorem signed_inSigned {w : ℕ} (hw : 0 < w) (n : ℕ) : InSigned w (signed w n) := by
  have hpos : 0 < 256 ^ w := Nat.pow_pos (by omega)
  have heven : 256 ^ w = 2 * (128 * 256 ^ (w - 1)) := by
    rw [← mul_assoc]
    exact (mul_pow_sub_one (by omega) 256).symm
  have h₁ := Int.le_bmod (x := n) hpos
  have h₂ := Int.bmod_lt (x := n) hpos
  constructor
  · change _ ≤ Int.bmod n (256 ^ w)
    omega
  · change Int.bmod n (256 ^ w) < _
    omega

/-- **An integer in range is read from its bytes.** -/
theorem signed_signedBytes {w : ℕ} {i : ℤ} (h : InSigned w i) :
    signed w (leNat (signedBytes w i)) = i := by
  obtain ⟨h₁, h₂⟩ := h
  have hpos : 0 < 256 ^ w := Nat.pow_pos (by omega)
  have hmod : 0 ≤ i % ((256 ^ w : ℕ) : ℤ) := Int.emod_nonneg i (by omega)
  have hlt : i % ((256 ^ w : ℕ) : ℤ) < (256 ^ w : ℕ) := Int.emod_lt_of_pos i (by omega)
  have hnat : leNat (signedBytes w i) = (i % ((256 ^ w : ℕ) : ℤ)).toNat := by
    rw [signedBytes, leNat_leBytes, Nat.mod_eq_of_lt (by omega)]
  rw [signed, hnat, Int.toNat_of_nonneg hmod, Int.emod_bmod]
  exact Int.bmod_eq_of_le (by omega) (by omega)

/-! ## Texts -/

def encodeUtf8 (s : String) : Bytes := s.toUTF8.data.toList

/-- `none` when the bytes are no text. -/
def decodeUtf8 (bs : Bytes) : Option String := String.fromUTF8? ⟨bs.toArray⟩

/-- **Bytes are read as the text whose bytes they are.** -/
theorem decodeUtf8_eq_some {bs : Bytes} {s : String} :
    decodeUtf8 bs = some s ↔ encodeUtf8 s = bs := by
  unfold decodeUtf8 String.fromUTF8? encodeUtf8 String.toUTF8
  constructor
  · intro h
    split_ifs at h with hv
    cases h
    rfl
  · rintro rfl
    rw [dif_pos s.isValidUTF8]
    rfl

/-- A text of characters of one byte each. -/
def IsAscii (s : String) : Prop := ∀ c ∈ s.toList, c.toNat < 128

instance (s : String) : Decidable (IsAscii s) :=
  List.decidableBAll (fun c : Char => c.toNat < 128) s.toList

theorem utf8Size_eq_one_iff (c : Char) : c.utf8Size = 1 ↔ c.toNat < 128 := by
  have hval : c.toNat = c.val.toNat := rfl
  rw [Char.utf8Size_eq_one_iff, hval, UInt32.le_iff_toNat_le]
  exact Nat.lt_succ_iff.symm

theorem length_encodeUtf8 (s : String) :
    (encodeUtf8 s).length = (s.toList.map Char.utf8Size).sum := by
  have hbytes : encodeUtf8 s = s.toList.flatMap String.utf8EncodeChar := by
    have h : s.toByteArray = s.toList.utf8Encode := by
      conv_lhs => rw [← String.ofList_toList (s := s)]
      exact String.toByteArray_ofList
    rw [encodeUtf8, String.toUTF8, h, List.utf8Encode]
    simp
  rw [hbytes, List.length_flatMap]
  simp only [String.length_utf8EncodeChar]

theorem length_le_sum_utf8Size (cs : List Char) : cs.length ≤ (cs.map Char.utf8Size).sum := by
  induction cs with
  | nil => rfl
  | cons c cs ih =>
    have hc := c.utf8Size_pos
    rw [List.length_cons, List.map_cons, List.sum_cons]
    omega

theorem length_le_length_encodeUtf8 (s : String) : s.length ≤ (encodeUtf8 s).length := by
  rw [length_encodeUtf8, ← String.length_toList]
  exact length_le_sum_utf8Size s.toList

/-- **A text has as many bytes as characters when its characters have one byte each.** -/
theorem length_encodeUtf8_eq_iff (s : String) :
    (encodeUtf8 s).length = s.length ↔ IsAscii s := by
  rw [length_encodeUtf8, ← String.length_toList]
  change _ ↔ ∀ c ∈ s.toList, c.toNat < 128
  induction s.toList with
  | nil => simp
  | cons c cs ih =>
    have hc := c.utf8Size_pos
    have hcs := length_le_sum_utf8Size cs
    rw [List.forall_mem_cons, ← ih, ← utf8Size_eq_one_iff, List.map_cons, List.sum_cons,
      List.length_cons]
    omega

/-! ## Booleans -/

/-- `(b & (1 << k)) != 0` -/
def hasBit (b : UInt8) (k : ℕ) : Bool := (b.toNat &&& (1 <<< k)) != 0

/-- `b | 1 << k` -/
def setBit (b : UInt8) (k : ℕ) : UInt8 := UInt8.ofNat (b.toNat ||| (1 <<< k))

theorem hasBit_eq_testBit (b : UInt8) (k : ℕ) : hasBit b k = b.toNat.testBit k := by
  rw [hasBit, Nat.one_shiftLeft, Nat.and_two_pow]
  cases b.toNat.testBit k <;> simp

theorem hasBit_setBit (b : UInt8) {k : ℕ} (hk : k < 8) (j : ℕ) :
    hasBit (setBit b k) j = (hasBit b j || decide (k = j)) := by
  have hlt : b.toNat ||| 2 ^ k < 2 ^ 8 :=
    Nat.or_lt_two_pow b.toNat_lt (Nat.pow_lt_pow_right (by omega) hk)
  have hnat : (setBit b k).toNat = b.toNat ||| 2 ^ k := by
    rw [setBit, Nat.one_shiftLeft]
    exact UInt8.toNat_ofNat_of_lt hlt
  rw [hasBit_eq_testBit, hasBit_eq_testBit, hnat, Nat.testBit_or, Nat.testBit_two_pow]

/-- The boolean at position `j`; `none` behind the end. -/
def bitAt (packed : Bytes) (j : ℕ) : Option Bool := packed[j / 8]?.map (hasBit · (j % 8))

/-- `if v: packed[i // 8] |= 1 << (i % 8)` -/
def packBit (packed : Bytes) (v : Bool × ℕ) : Bytes :=
  if v.1 then packed.modify (v.2 / 8) (setBit · (v.2 % 8)) else packed

/-- The booleans, packed from the lowest bit of the first byte on. -/
def packBits (vs : List Bool) : Bytes :=
  vs.zipIdx.foldl packBit (List.replicate ((vs.length + 7) / 8) 0)

/-- `n` booleans; `none` when there are not so many. -/
def unpackBits (packed : Bytes) (n : ℕ) : Option (List Bool) :=
  (List.range n).mapM (bitAt packed)

theorem length_packBit (packed : Bytes) (v : Bool × ℕ) :
    (packBit packed v).length = packed.length := by
  unfold packBit
  split_ifs
  · exact List.length_modify _ _ _
  · rfl

theorem bitAt_packBit (packed : Bytes) (v : Bool × ℕ) (j : ℕ) :
    bitAt (packBit packed v) j =
      if j = v.2 then (bitAt packed j).map (· || v.1) else bitAt packed j := by
  obtain ⟨v, i⟩ := v
  unfold packBit bitAt
  cases v with
  | false =>
    have hid : (fun x : Bool => x || false) = id := by
      funext x
      exact Bool.or_false x
    simp only [Bool.false_eq_true, if_false, hid, Option.map_id, id, ite_self]
  | true =>
    simp only [if_true, List.getElem?_modify]
    cases packed[j / 8]? with
    | none => simp
    | some b =>
      have hset := hasBit_setBit b (Nat.mod_lt i (by omega : 0 < 8)) (j % 8)
      by_cases hb : i / 8 = j / 8
      · simp only [hb, if_true, Option.map_eq_map, Option.map_some]
        split_ifs with h
        · rw [hset, h, decide_eq_true rfl]
        · rw [hset, decide_eq_false (by omega), Bool.or_false]
      · have hj : ¬j = i := by
          rintro rfl
          exact hb rfl
        simp [hb, hj]

theorem length_foldl_packBit (vs : List (Bool × ℕ)) :
    ∀ packed : Bytes, (vs.foldl packBit packed).length = packed.length := by
  induction vs with
  | nil => exact fun _ => rfl
  | cons v vs ih =>
    intro packed
    rw [List.foldl_cons, ih, length_packBit]

theorem bitAt_foldl_packBit (vs : List Bool) : ∀ (packed : Bytes) (k j : ℕ),
    bitAt ((vs.zipIdx k).foldl packBit packed) j =
      (bitAt packed j).map (· || (decide (k ≤ j) && vs.getD (j - k) false)) := by
  induction vs with
  | nil =>
    intro packed k j
    simp
  | cons v vs ih =>
    intro packed k j
    rw [List.zipIdx_cons, List.foldl_cons, ih, bitAt_packBit]
    rcases lt_trichotomy j k with hlt | rfl | hgt
    · rw [if_neg (by simpa using hlt.ne), decide_eq_false (by omega), decide_eq_false (by omega)]
      rfl
    · rw [if_pos rfl, decide_eq_false (by omega), decide_eq_true le_rfl, Nat.sub_self,
        Option.map_map]
      simp [Function.comp_def]
    · rw [if_neg (by simpa using hgt.ne'), decide_eq_true (by omega), decide_eq_true (by omega),
        show j - k = (j - (k + 1)) + 1 by omega, List.getD_cons_succ]

@[simp] theorem length_packBits (vs : List Bool) :
    (packBits vs).length = (vs.length + 7) / 8 := by
  rw [packBits, length_foldl_packBit, List.length_replicate]

/-- **Booleans are unpacked as they were packed.** -/
theorem unpackBits_packBits (vs : List Bool) : unpackBits (packBits vs) vs.length = some vs := by
  have hbit : ∀ j ∈ List.range vs.length, bitAt (packBits vs) j = some (vs.getD j false) := by
    intro j hj
    have hlt : j / 8 < (vs.length + 7) / 8 := by
      have := List.mem_range.mp hj
      omega
    rw [packBits, bitAt_foldl_packBit, bitAt, List.getElem?_replicate, if_pos hlt]
    simp [hasBit]
  have hmap : (List.range vs.length).map (fun j => vs.getD j false) = vs := by
    refine List.ext_getElem (by simp) fun j h₁ h₂ => ?_
    simp [h₂]
  have hall : ∀ l : List ℕ, (∀ j ∈ l, bitAt (packBits vs) j = some (vs.getD j false)) →
      l.mapM (bitAt (packBits vs)) = some (l.map fun j => vs.getD j false) := by
    intro l
    induction l with
    | nil => exact fun _ => rfl
    | cons j l ih =>
      intro h
      obtain ⟨h₁, h₂⟩ := List.forall_mem_cons.mp h
      rw [List.mapM_cons, h₁, ih h₂]
      rfl
  rw [unpackBits, hall _ hbit, hmap]

theorem length_of_unpackBits {packed : Bytes} {n : ℕ} {vs : List Bool}
    (h : unpackBits packed n = some vs) : vs.length = n := by
  have hlen : ∀ (l : List ℕ) (vs : List Bool), l.mapM (bitAt packed) = some vs →
      vs.length = l.length := by
    intro l
    induction l with
    | nil =>
      intro vs h
      cases h
      rfl
    | cons j l ih =>
      intro vs h
      rw [List.mapM_cons] at h
      obtain ⟨b, -, h⟩ := Option.bind_eq_some_iff.mp h
      obtain ⟨bs, hbs, h⟩ := Option.bind_eq_some_iff.mp h
      cases h
      rw [List.length_cons, List.length_cons, ih bs hbs]
  rw [hlen _ _ h, List.length_range]
