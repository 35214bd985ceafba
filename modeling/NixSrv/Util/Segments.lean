import NixSrv.Lib.Tokens
import NixSrv.Util.Split

/-!
# The segments of a key

* **`split_eq_tokens`**: what the loop of `split` finds are the tokens of the string;
* `segments`, **`segments_append`**: the segments of a dotted key, and of two keys with a dot
  between them;
* `mem_segments`, **`exists_segments`**: which strings are segments, and keys with given segments.
-/

namespace NixSrv.Util

open Tokens

variable {p : Char → Bool} {str : List Char}

/-! ## Searching from a position -/

theorem drop_findFirst (str : List Char) (i : ℕ) :
    (findFirst p str (some i) = none ∧ (str.drop i).dropWhile (!p ·) = []) ∨
    ∃ n, findFirst p str (some i) = some n ∧ i ≤ n ∧ n < str.length ∧
      str.drop n = (str.drop i).dropWhile (!p ·) ∧
      (str.drop i).take (n - i) = (str.drop i).takeWhile (!p ·) := by
  rw [List.dropWhile_eq_drop_findIdx_not, List.takeWhile_eq_take_findIdx_not, findFirst,
    Option.bind_some]
  simp only [Bool.not_not]
  cases hj : (str.drop i).findIdx? p with
  | none =>
    left
    rw [List.findIdx?_eq_none_iff_findIdx_eq.mp hj]
    exact ⟨rfl, List.drop_length⟩
  | some j =>
    obtain ⟨hlt, he⟩ := List.findIdx?_eq_some_iff_findIdx_eq.mp hj
    rw [List.length_drop] at hlt
    rw [he]
    exact Or.inr ⟨i + j, rfl, by omega, by omega, by rw [List.drop_drop],
      by rw [Nat.add_sub_cancel_left]⟩

theorem substr_findFirst (i : ℕ) :
    substr str i (findFirst p str (some i)) = (str.drop i).takeWhile (!p ·) := by
  rcases drop_findFirst (p := p) str i with ⟨h, hd⟩ | ⟨n, h, -, -, -, ht⟩
  · have hsplit := List.takeWhile_append_dropWhile (p := (!p ·)) (l := str.drop i)
    rw [hd, List.append_nil] at hsplit
    rw [h, hsplit]
    rfl
  · rw [h, ← ht]
    rfl

/-- A search for no delimiter that ends inside the string has found the start of a token. -/
theorem takeWhile_ne_nil_of_drop {l : List Char} {m : ℕ} (hm : m < str.length)
    (hd : str.drop m = l.dropWhile p) : (str.drop m).takeWhile (!p ·) ≠ [] := by
  have hne : str.drop m ≠ [] := by simpa using hm
  have hstop := List.head_dropWhile_not p (l := l) (by rwa [← hd])
  obtain ⟨c, rest, hc⟩ := List.exists_cons_of_ne_nil hne
  simp only [← hd, hc, List.head_cons] at hstop
  rw [hc, List.takeWhile_cons_of_pos (by simp [hstop])]
  exact List.cons_ne_nil _ _

/-! ## The loop -/

/-- From the first character of a token on, the loop finds the tokens of the rest of the string. -/
theorem splitLoop_eq (str delimiters : List Char) : ∀ (fuel i : ℕ) (tokens : List String),
    str.length - i < fuel → (str.drop i).takeWhile (!delimiters.contains ·) ≠ [] →
    splitLoop str delimiters fuel (some i) (findFirstOf str delimiters (some i)) tokens =
      tokens ++ (Tokens.tokens (delimiters.contains ·) (str.drop i)).map String.ofList := by
  intro fuel
  induction fuel with
  | zero => exact fun _ _ h => absurd h (Nat.not_lt_zero _)
  | succ fuel ih =>
    intro i tokens hfuel hne
    have hsub : substr str i (findFirstOf str delimiters (some i)) =
        (str.drop i).takeWhile (!delimiters.contains ·) := substr_findFirst i
    have hend : ∀ pos ts, splitLoop str delimiters fuel none pos ts = ts := by
      intro pos ts
      cases fuel <;> rfl
    rw [splitLoop, hsub, tokens_eq_cons hne, List.map_cons]
    rcases drop_findFirst (p := (delimiters.contains ·)) str i with
      ⟨h, hd⟩ | ⟨n, h, hin, -, hd, ht⟩
    · have hnone : findFirstNotOf str delimiters (findFirstOf str delimiters (some i)) = none := by
        rw [findFirstOf, h]
        rfl
      rw [hnone, hd, tokens_nil, List.map_nil, hend]
    · have hn : findFirstOf str delimiters (some i) = some n := h
      have hlt : i < n := by
        by_contra hle
        rw [Nat.sub_eq_zero_of_le (not_lt.mp hle), List.take_zero] at ht
        exact hne ht.symm
      rw [hn, ← hd, ← tokens_dropWhile]
      rcases drop_findFirst (p := (!delimiters.contains ·)) str n with
        ⟨h', hd'⟩ | ⟨m, h', hnm, hml, hd', -⟩ <;> simp only [Bool.not_not] at hd'
      · have hnone : findFirstNotOf str delimiters (some n) = none := h'
        rw [hnone, hd', tokens_nil, List.map_nil, hend]
      · have hm : findFirstNotOf str delimiters (some n) = some m := h'
        rw [hm, ← hd']
        exact (ih m _ (by omega) (takeWhile_ne_nil_of_drop hml hd')).trans
          (by rw [List.append_assoc]; rfl)

/-- **The strings `split` adds to its vector are the tokens.** -/
theorem split_eq_tokens (str : String) (tokens : List String) (delimiters : String) :
    split str tokens delimiters = tokens ++
      (Tokens.tokens (delimiters.toList.contains ·) str.toList).map String.ofList := by
  rw [← tokens_dropWhile, split]
  rcases drop_findFirst (p := (!delimiters.toList.contains ·)) str.toList 0 with
    ⟨h, hd⟩ | ⟨m, h, -, hml, hd, -⟩ <;>
    simp only [Bool.not_not, List.drop_zero] at hd
  · have hnone : findFirstNotOf str.toList delimiters.toList (some 0) = none := h
    rw [hnone, hd, tokens_nil, List.map_nil, List.append_nil]
    rfl
  · have hm : findFirstNotOf str.toList delimiters.toList (some 0) = some m := h
    rw [hm, ← hd]
    exact splitLoop_eq _ _ _ m tokens (by omega) (takeWhile_ne_nil_of_drop hml hd)

/-! ## Dotted keys -/

/-- The segments of a dotted key. -/
abbrev segments (k : String) : List String := split k [] "."

/-- **A dot separates the segments before it from those after it.** -/
theorem segments_append (a b : String) : segments (a ++ "." ++ b) = segments a ++ segments b := by
  have hdot : ".".toList.contains '.' = true := by decide
  have htoList : (a ++ "." ++ b).toList = a.toList ++ '.' :: b.toList := by
    simp
  rw [segments, split_eq_tokens, htoList, tokens_append_cons _ _ hdot, List.map_append,
    segments, split_eq_tokens, segments, split_eq_tokens]
  rfl

/-- No segment is empty or has a dot. -/
theorem mem_segments {s k : String} (h : s ∈ segments k) : s ≠ "" ∧ '.' ∉ s.toList := by
  rw [segments, split_eq_tokens, List.nil_append] at h
  obtain ⟨t, ht, rfl⟩ := List.mem_map.mp h
  obtain ⟨hne, hfree⟩ := mem_tokens ht
  refine ⟨fun he => hne (by simpa using congrArg String.toList he), fun hdot => ?_⟩
  rw [String.toList_ofList] at hdot
  have hfalse := hfree '.' hdot
  revert hfalse
  decide

/-- **There is a key with given segments**, if these can be segments at all. -/
theorem exists_segments {ks : List String} (h : ∀ s ∈ ks, s ≠ "" ∧ '.' ∉ s.toList) :
    ∃ k, segments k = ks := by
  have hdot : ".".toList.contains '.' = true := by decide
  have hfree : ∀ t ∈ ks.map String.toList,
      t ≠ [] ∧ ∀ c ∈ t, ".".toList.contains c = false := by
    intro t ht
    obtain ⟨s, hs, rfl⟩ := List.mem_map.mp ht
    obtain ⟨hne, hs⟩ := h s hs
    refine ⟨fun he => hne (String.toList_injective he), fun c hc => ?_⟩
    have hcd : c ≠ '.' := fun he => hs (he ▸ hc)
    simpa using hcd
  refine ⟨String.ofList (['.'].intercalate (ks.map String.toList)), ?_⟩
  have htokens := tokens_intercalate (p := (".".toList.contains ·)) hdot hfree
  rw [segments, split_eq_tokens, List.nil_append]
  simp only [String.toList_ofList, htokens, List.map_map]
  exact List.map_id'' (fun _ => String.ofList_toList) ks

end NixSrv.Util
