import Mathlib.Data.List.Basic

/-!
# `nix::util::string::split`

A position in a string is an `Option ℕ`, with `none` for `std::string::npos`.

* `findFirstOf`, `findFirstNotOf`, `substr`: the members of `std::string` the loop uses;
* `split`: the loop, with one unit of fuel for each character and one more for its last test;
* **`split_ne_nil`**: which strings have a token.
-/

namespace NixSrv.Util

/-- The first position from `pos` on whose character satisfies `p`. -/
def findFirst (p : Char → Bool) (str : List Char) (pos : Option ℕ) : Option ℕ :=
  pos.bind fun i => ((str.drop i).findIdx? p).map (i + ·)

/-- `str.find_first_of(delimiters, pos)`. -/
def findFirstOf (str delimiters : List Char) : Option ℕ → Option ℕ :=
  findFirst (delimiters.contains ·) str

/-- `str.find_first_not_of(delimiters, pos)`. -/
def findFirstNotOf (str delimiters : List Char) : Option ℕ → Option ℕ :=
  findFirst (!delimiters.contains ·) str

/-- `str.substr(lastPos, pos - lastPos)`, to the end of the string when `pos` is `npos`. -/
def substr (str : List Char) (lastPos : ℕ) : Option ℕ → List Char
  | none => str.drop lastPos
  | some pos => (str.drop lastPos).take (pos - lastPos)

/-- The loop of `split`. `lastPos` is `npos` only when `pos` is, and then the loop ends. -/
def splitLoop (str delimiters : List Char) :
    ℕ → Option ℕ → Option ℕ → List String → List String
  | 0, _, _, tokens => tokens
  | _ + 1, none, _, tokens => tokens
  | fuel + 1, some lastPos, pos, tokens =>
    let tokens := tokens ++ [String.ofList (substr str lastPos pos)]
    let lastPos := findFirstNotOf str delimiters pos
    splitLoop str delimiters fuel lastPos (findFirstOf str delimiters lastPos) tokens

/-- `split(str, tokens, delimiters)`: the vector `tokens` after the call. -/
def split (str : String) (tokens : List String) (delimiters : String := " ") : List String :=
  let s := str.toList
  let lastPos := findFirstNotOf s delimiters.toList (some 0)
  splitLoop s delimiters.toList (s.length + 1) lastPos
    (findFirstOf s delimiters.toList lastPos) tokens

example : split ".a..bc." [] "." = ["a", "bc"] := by decide

theorem splitLoop_ne_nil (str delimiters : List Char) :
    ∀ (fuel : ℕ) (lastPos pos : Option ℕ) {tokens : List String}, tokens ≠ [] →
      splitLoop str delimiters fuel lastPos pos tokens ≠ [] := by
  intro fuel
  induction fuel with
  | zero => exact fun _ _ _ h => h
  | succ fuel ih =>
    intro lastPos pos tokens h
    cases lastPos with
    | none => exact h
    | some i => exact ih _ _ (by simp)

/-- **A string with a character that is no delimiter has a token.** -/
theorem split_ne_nil {str delimiters : String} {c : Char} (hc : c ∈ str.toList)
    (hd : c ∉ delimiters.toList) (tokens : List String) : split str tokens delimiters ≠ [] := by
  have hsome : ∃ i, findFirstNotOf str.toList delimiters.toList (some 0) = some i := by
    rw [← Option.isSome_iff_exists]
    simp only [findFirstNotOf, findFirst, Option.bind_some, List.drop_zero, Option.isSome_map,
      List.findIdx?_isSome, List.any_eq_true]
    exact ⟨c, hc, by simpa using hd⟩
  obtain ⟨i, hi⟩ := hsome
  simp only [split, hi, splitLoop]
  exact splitLoop_ne_nil _ _ _ _ _ (by simp)

end NixSrv.Util
