import Mathlib.Algebra.Group.Nat.Defs
import NixSrv.Util.Segments

/-!
# The loop of `split` on machine words

The positions are of type `size_type`, and `npos` is a number like the others: it is subtracted
from, and searches start at it.

* `StdString`, `npos`, `sizeSub`: strings, the end marker and the subtraction of positions;
* `Splitting`, `Splitting.loop`: the variables of the loop, and the loop;
* **`loop_start`**: the loop ends with the vector that `split` gives;
* `Tokenised`, **`exists_tokenised`**: what it has appended.
-/

namespace NixSrv.Util

open Tokens

/-- `std::string::npos`, the largest `size_type`. -/
def npos : ℕ := 2 ^ 64 - 1

/-- Subtraction of values of `size_type`. -/
def sizeSub (a b : ℕ) : ℕ := (a + 2 ^ 64 - b) % 2 ^ 64

/-- A `std::string`, which is shorter than `npos`. -/
structure StdString where
  chars : List Char
  length_lt : chars.length < npos

namespace StdString

variable (str : StdString)

/-- The first position from `pos` on whose character satisfies `p`, or `npos`. -/
def find (p : Char → Bool) (pos : ℕ) : ℕ :=
  if pos < str.chars.length then
    match (str.chars.drop pos).findIdx? p with
    | some i => pos + i
    | none => npos
  else npos

/-- `str.find_first_of(delimiters, pos)`. -/
def findFirstOf (delimiters : List Char) : ℕ → ℕ := str.find (delimiters.contains ·)

/-- `str.find_first_not_of(delimiters, pos)`. -/
def findFirstNotOf (delimiters : List Char) : ℕ → ℕ := str.find (!delimiters.contains ·)

/-- `str.substr(pos, count)`; `none` when it throws. -/
def substr (pos count : ℕ) : Option String :=
  if pos ≤ str.chars.length then some (String.ofList ((str.chars.drop pos).take count)) else none

end StdString

/-- The variables of the loop. -/
structure Splitting where
  lastPos : ℕ
  pos : ℕ
  tokens : List String

namespace Splitting

variable (str : StdString) (delimiters : List Char)

/-- The variables from the position of a token on. -/
def tokenFrom (lastPos : ℕ) (tokens : List String) : Splitting :=
  { lastPos, pos := str.findFirstOf delimiters lastPos, tokens }

def start (tokens : List String) : Splitting :=
  tokenFrom str delimiters (str.findFirstNotOf delimiters 0) tokens

/-- The condition of the loop. -/
def GoesOn (s : Splitting) : Prop := npos ≠ s.pos ∨ npos ≠ s.lastPos

instance (s : Splitting) : Decidable s.GoesOn := by unfold GoesOn; infer_instance

/-- The body of the loop; `none` when an exception leaves it. -/
def body (s : Splitting) : Option Splitting :=
  (str.substr s.lastPos (sizeSub s.pos s.lastPos)).map fun token =>
    tokenFrom str delimiters (str.findFirstNotOf delimiters s.pos) (s.tokens ++ [token])

/-- The loop; `none` when it has not ended after `fuel` tests, or an exception leaves it. -/
def loop : ℕ → Splitting → Option Splitting
  | 0, _ => none
  | fuel + 1, s => if s.GoesOn then (s.body str delimiters).bind (loop fuel) else some s

end Splitting

/-! ## Positions -/

/-- The `size_type` of a position. -/
def toSize (pos : Option ℕ) : ℕ := pos.getD npos

@[simp] theorem toSize_none : toSize none = npos := rfl
@[simp] theorem toSize_some (n : ℕ) : toSize (some n) = n := rfl

variable (str : StdString) (delimiters : List Char)

theorem find_toSize (p : Char → Bool) (pos : Option ℕ) :
    str.find p (toSize pos) = toSize (findFirst p str.chars pos) := by
  have hlen := str.length_lt
  cases pos with
  | none => exact if_neg (by rw [toSize_none]; omega)
  | some i =>
    rw [toSize_some, StdString.find, findFirst, Option.bind_some]
    by_cases hi : i < str.chars.length
    · rw [if_pos hi]
      cases (str.chars.drop i).findIdx? p <;> rfl
    · rw [if_neg hi, List.drop_eq_nil_of_le (not_lt.mp hi)]
      rfl

theorem findFirst_eq_some {p : Char → Bool} {i n : ℕ}
    (h : findFirst p str.chars (some i) = some n) :
    i ≤ n ∧ n < str.chars.length ∧ ∃ c, str.chars[n]? = some c ∧ p c = true := by
  rw [findFirst, Option.bind_some, Option.map_eq_some_iff] at h
  obtain ⟨j, hj, rfl⟩ := h
  obtain ⟨hlt, hp, -⟩ := List.findIdx?_eq_some_iff_getElem.mp hj
  rw [List.length_drop] at hlt
  refine ⟨Nat.le_add_right i j, by omega, _, List.getElem?_eq_getElem (by omega), ?_⟩
  rwa [List.getElem_drop] at hp

/-- A token that goes on to the end of the string is taken with the count `npos - lastPos`. -/
theorem substr_toSize {i : ℕ} (hi : i < str.chars.length) {pos : Option ℕ}
    (hpos : ∀ n ∈ pos, i ≤ n ∧ n < str.chars.length) :
    str.substr i (sizeSub (toSize pos) i) = some (String.ofList (substr str.chars i pos)) := by
  have hlen := str.length_lt
  have hnpos : npos < 2 ^ 64 := by decide
  rw [StdString.substr, if_pos hi.le]
  cases pos with
  | none =>
    have hsub : sizeSub npos i = npos - i := by
      rw [sizeSub, Nat.sub_add_comm (by omega), Nat.add_mod_right, Nat.mod_eq_of_lt (by omega)]
    have hall : (str.chars.drop i).length ≤ npos - i := by
      rw [List.length_drop]
      omega
    rw [toSize_none, hsub, List.take_of_length_le hall]
    rfl
  | some n =>
    obtain ⟨hin, hn⟩ := hpos n rfl
    have hsub : sizeSub n i = n - i := by
      rw [sizeSub, Nat.sub_add_comm hin, Nat.add_mod_right, Nat.mod_eq_of_lt (by omega)]
    rw [toSize_some, hsub]
    rfl

/-! ## The loop -/

open Splitting

/-- Behind the last token the loop ends. -/
theorem loop_npos {fuel : ℕ} (h : 0 < fuel) (tokens : List String) :
    loop str delimiters fuel (tokenFrom str delimiters npos tokens) =
      some ⟨npos, npos, tokens⟩ := by
  have hpos : str.findFirstOf delimiters npos = npos :=
    if_neg (by have := str.length_lt; omega)
  obtain ⟨fuel, rfl⟩ := Nat.exists_eq_succ_of_ne_zero h.ne'
  rw [tokenFrom, hpos]
  exact if_neg (by rintro (h | h) <;> exact h rfl)

/-- From a position inside of the string the loop ends, with the tokens that `splitLoop` finds. -/
theorem loop_from (fuel i : ℕ) (tokens : List String) (hi : i < str.chars.length)
    (hfuel : str.chars.length - i < fuel) :
    loop str delimiters fuel (tokenFrom str delimiters i tokens) = some ⟨npos, npos,
      splitLoop str.chars delimiters fuel (some i) (findFirstOf str.chars delimiters (some i))
        tokens⟩ := by
  induction fuel generalizing i tokens with
  | zero => exact absurd hfuel (Nat.not_lt_zero _)
  | succ fuel ih =>
    have hlen := str.length_lt
    have hgoes : (tokenFrom str delimiters i tokens).GoesOn :=
      Or.inr (by simp only [tokenFrom]; omega)
    have hpos : str.findFirstOf delimiters i =
        toSize (findFirstOf str.chars delimiters (some i)) := find_toSize str _ (some i)
    have hsub : str.substr i (sizeSub (toSize (findFirstOf str.chars delimiters (some i))) i) =
        some (String.ofList (substr str.chars i (findFirstOf str.chars delimiters (some i)))) :=
      substr_toSize str hi fun n hn =>
        ⟨(findFirst_eq_some str hn).1, (findFirst_eq_some str hn).2.1⟩
    have hbody : body str delimiters (tokenFrom str delimiters i tokens) =
        some (tokenFrom str delimiters
          (toSize (findFirstNotOf str.chars delimiters
            (findFirstOf str.chars delimiters (some i))))
          (tokens ++ [String.ofList (substr str.chars i
            (findFirstOf str.chars delimiters (some i)))])) := by
      have hlast : str.findFirstNotOf delimiters
          (toSize (findFirstOf str.chars delimiters (some i))) =
            toSize (findFirstNotOf str.chars delimiters
              (findFirstOf str.chars delimiters (some i))) := find_toSize str _ _
      rw [body, tokenFrom, hpos]
      simp only [hsub, Option.map_some, hlast]
    rw [loop, if_pos hgoes, hbody, Option.bind_some, splitLoop]
    cases hm : findFirstNotOf str.chars delimiters (findFirstOf str.chars delimiters (some i)) with
    | none =>
      obtain ⟨fuel, rfl⟩ : ∃ m, fuel = m + 1 := ⟨fuel - 1, by omega⟩
      exact loop_npos str delimiters (Nat.succ_pos fuel) _
    | some m =>
      -- `m` is behind `i`, as the search starts at the delimiter that ends the token
      have him : i < m ∧ m < str.chars.length := by
        cases hn : findFirstOf str.chars delimiters (some i) with
        | none =>
          rw [hn] at hm
          cases hm
        | some n =>
          rw [hn] at hm
          obtain ⟨hin, -, c, hc, hd⟩ := findFirst_eq_some str hn
          obtain ⟨hnm, hml, c', hc', hd'⟩ := findFirst_eq_some str hm
          refine ⟨(hin.trans hnm).lt_of_ne ?_, hml⟩
          rintro rfl
          obtain rfl := Nat.le_antisymm hin hnm
          rw [hc] at hc'
          cases hc'
          rw [hd] at hd'
          cases hd'
      exact ih m _ him.2 (by omega)

/-- **The loop ends with the vector that `split` gives.** -/
theorem loop_start (tokens : List String) {fuel : ℕ} (h : str.chars.length < fuel) :
    loop str delimiters fuel (start str delimiters tokens) = some ⟨npos, npos, tokens ++
      (Tokens.tokens (delimiters.contains ·) str.chars).map String.ofList⟩ := by
  have hlast : str.findFirstNotOf delimiters 0 =
      toSize (findFirstNotOf str.chars delimiters (some 0)) := find_toSize str _ (some 0)
  rw [start, hlast, ← tokens_dropWhile]
  rcases drop_findFirst (p := (!delimiters.contains ·)) str.chars 0 with
    ⟨hn, hd⟩ | ⟨m, hm, -, hml, hd, -⟩ <;>
    simp only [Bool.not_not, List.drop_zero] at hd
  · have hnone : findFirstNotOf str.chars delimiters (some 0) = none := hn
    rw [hnone, hd, tokens_nil, List.map_nil, List.append_nil]
    exact loop_npos str delimiters (by omega) tokens
  · have hsome : findFirstNotOf str.chars delimiters (some 0) = some m := hm
    rw [hsome, ← hd, toSize_some, loop_from str delimiters fuel m tokens hml (by omega),
      splitLoop_eq _ _ _ m tokens (by omega) (takeWhile_ne_nil_of_drop hml hd)]

/-- `split` is what the loop comes to. -/
theorem loop_start_eq_split {str : String} (h : str.toList.length < npos) (tokens : List String)
    (delimiters : String) {fuel : ℕ} (hfuel : str.toList.length < fuel) :
    loop ⟨str.toList, h⟩ delimiters.toList fuel (start ⟨str.toList, h⟩ delimiters.toList tokens) =
      some ⟨npos, npos, split str tokens delimiters⟩ := by
  rw [loop_start _ _ _ hfuel, split_eq_tokens]

/-! ## What the loop appends -/

/-- The loop ends after at most as many tests as the string has characters and one more, without an
exception, and has appended `new` to `tokens`. -/
def Appends (tokens new : List String) : Prop :=
  ∃ s, s.tokens = tokens ++ new ∧ ∀ fuel, str.chars.length < fuel →
    loop str delimiters fuel (start str delimiters tokens) = some s

/-- The loop appends the maximal pieces without delimiters, from left to right, and appends the same
strings again when they are joined by a delimiter. -/
structure Tokenised (tokens new : List String) : Prop where
  appends : Appends str delimiters tokens new
  pieces : ∃ ps : List (ℕ × ℕ), ps.Pairwise (fun q q' => q.2 < q'.1) ∧
    (∀ i j, (i, j) ∈ ps ↔ IsPiece (delimiters.contains ·) str.chars i j) ∧
    new = ps.map fun q => String.ofList (piece str.chars q)
  free : ∀ t ∈ new, t ≠ "" ∧ ∀ c ∈ t.toList, c ∉ delimiters
  joined : ∀ d ∈ delimiters, ∃ s : StdString,
    s.chars = [d].intercalate (new.map String.toList) ∧ Appends s delimiters [] new

theorem appends_tokens (tokens : List String) : Appends str delimiters tokens
    ((Tokens.tokens (delimiters.contains ·) str.chars).map String.ofList) :=
  ⟨_, rfl, fun _ h => loop_start str delimiters tokens h⟩

/-- **`split` appends the tokens of its string, and ends.** -/
theorem exists_tokenised (tokens : List String) :
    ∃ new, Tokenised str delimiters tokens new := by
  have htoList : ((Tokens.tokens (delimiters.contains ·) str.chars).map String.ofList).map
      String.toList = Tokens.tokens (delimiters.contains ·) str.chars := by
    rw [List.map_map]
    exact List.map_id'' (fun _ => String.toList_ofList) _
  refine ⟨_, appends_tokens str delimiters tokens, ?_, fun t ht => ?_, fun d hd => ?_⟩
  · obtain ⟨ps, hsorted, hmem, htokens⟩ := exists_pieces (p := (delimiters.contains ·)) str.chars
    exact ⟨ps, hsorted, hmem, by rw [htokens, List.map_map]; rfl⟩
  · obtain ⟨u, hu, rfl⟩ := List.mem_map.mp ht
    obtain ⟨hne, hfree⟩ := mem_tokens hu
    refine ⟨fun he => hne ?_, fun c hc => ?_⟩
    · simpa using congrArg String.toList he
    · rw [String.toList_ofList] at hc
      simpa using hfree c hc
  · have hd' : delimiters.contains d = true := by simpa using hd
    rw [htoList]
    refine ⟨⟨_, (length_intercalate_tokens_le d str.chars).trans_lt str.length_lt⟩, rfl, ?_⟩
    have h := appends_tokens
      ⟨_, (length_intercalate_tokens_le (p := (delimiters.contains ·)) d str.chars).trans_lt
        str.length_lt⟩ delimiters []
    rwa [tokens_intercalate hd' fun t ht => mem_tokens ht] at h

end NixSrv.Util
