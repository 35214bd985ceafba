import Mathlib.Data.List.TakeWhile

/-!
# The tokens of a list

* `tokens`: the maximal pieces of a list without delimiters, the empty ones left out;
* `tokens_of_forall`, **`tokens_append_cons`**: a list without delimiters, and two lists with a
  delimiter between them;
* `tokens_dropWhile`, **`tokens_eq_cons`**: how a scanner finds the first token;
* `mem_tokens`, **`tokens_intercalate`**: what tokens are, and tokens that were joined;
* `IsPiece`, **`exists_pieces`**: the positions of the tokens.
-/

namespace Tokens

open List

variable {α : Type*} (p : α → Bool)

/-- The nonempty pieces between elements that satisfy `p`. -/
noncomputable def tokens (l : List α) : List (List α) := (l.splitOnP p).filter (!·.isEmpty)

variable {p}

@[simp] theorem tokens_nil : tokens p [] = [] := by
  simp [tokens, splitOnP_nil]

/-- A list without delimiters is one token. -/
theorem tokens_of_forall {l : List α} (hl : ∀ x ∈ l, p x = false) (hne : l ≠ []) :
    tokens p l = [l] := by
  simp [tokens, splitOnP_eq_singleton hl, hne]

/-- **A delimiter separates the tokens before it from those after it.** -/
theorem tokens_append_cons (xs ys : List α) {sep : α} (hsep : p sep) :
    tokens p (xs ++ sep :: ys) = tokens p xs ++ tokens p ys := by
  rw [tokens, splitOnP_append_cons xs ys hsep, filter_append]
  rfl

theorem tokens_cons_of_pos {c : α} (hc : p c) (l : List α) : tokens p (c :: l) = tokens p l := by
  have h := tokens_append_cons [] l hc
  simpa using h

/-- Delimiters in front make no difference. -/
theorem tokens_dropWhile (l : List α) : tokens p (l.dropWhile p) = tokens p l := by
  induction l with
  | nil => rfl
  | cons c l ih =>
    rw [dropWhile_cons]
    split_ifs with hc
    · rw [ih, tokens_cons_of_pos hc]
    · rfl

/-- **The first token ends with the first delimiter.** -/
theorem tokens_eq_cons {l : List α} (h : l.takeWhile (!p ·) ≠ []) :
    tokens p l = l.takeWhile (!p ·) :: tokens p (l.dropWhile (!p ·)) := by
  have hall : ∀ x ∈ l.takeWhile (!p ·), p x = false := fun x hx => by
    simpa using mem_takeWhile_imp hx
  have hsplit := takeWhile_append_dropWhile (p := (!p ·)) (l := l)
  cases hd : l.dropWhile (!p ·) with
  | nil =>
    rw [hd, append_nil] at hsplit
    rw [tokens_nil, hsplit]
    rw [hsplit] at hall h
    exact tokens_of_forall hall h
  | cons c rest =>
    have hc : p c = true := by
      have hhead := head_dropWhile_not (p := (!p ·)) (l := l) (by rw [hd]; simp)
      simpa [hd] using hhead
    have hl : tokens p l = tokens p (l.takeWhile (!p ·) ++ c :: rest) := by rw [← hd, hsplit]
    rw [hl, tokens_append_cons _ _ hc, tokens_of_forall hall h, tokens_cons_of_pos hc]
    rfl

/-- **Every list is without delimiters, or goes on behind its first one.** -/
theorem forall_or_eq_append (l : List α) : (∀ x ∈ l, p x = false) ∨
    ∃ xs sep ys, l = xs ++ sep :: ys ∧ (∀ x ∈ xs, p x = false) ∧ p sep = true := by
  have hall : ∀ x ∈ l.takeWhile (!p ·), p x = false := fun x hx => by
    simpa using mem_takeWhile_imp hx
  have hsplit := takeWhile_append_dropWhile (p := (!p ·)) (l := l)
  cases hd : l.dropWhile (!p ·) with
  | nil =>
    rw [hd, append_nil] at hsplit
    rw [hsplit] at hall
    exact Or.inl hall
  | cons sep ys =>
    have hsep : p sep = true := by
      have hhead := head_dropWhile_not (p := (!p ·)) (l := l) (by rw [hd]; simp)
      simpa [hd] using hhead
    exact Or.inr ⟨_, sep, ys, by rw [← hd, hsplit], hall, hsep⟩

/-- An induction that goes on behind the first delimiter. -/
theorem induction_on {motive : List α → Prop} (l : List α)
    (free : ∀ l, (∀ x ∈ l, p x = false) → motive l)
    (delimited : ∀ xs sep ys, (∀ x ∈ xs, p x = false) → p sep = true → motive ys →
      motive (xs ++ sep :: ys)) : motive l := by
  obtain ⟨n, hn⟩ : ∃ n, l.length = n := ⟨_, rfl⟩
  induction n using Nat.strong_induction_on generalizing l with
  | _ n ih =>
    rcases forall_or_eq_append (p := p) l with hall | ⟨xs, sep, ys, rfl, hall, hsep⟩
    · exact free l hall
    · refine delimited xs sep ys hall hsep (ih ys.length ?_ ys rfl)
      rw [← hn, length_append, length_cons]
      omega

theorem tokens_of_forall' {l : List α} (hl : ∀ x ∈ l, p x = false) :
    tokens p l = if l = [] then [] else [l] := by
  split_ifs with h
  · rw [h, tokens_nil]
  · exact tokens_of_forall hl h

/-- No token is empty or has a delimiter. -/
theorem mem_tokens {l t : List α} (ht : t ∈ tokens p l) : t ≠ [] ∧ ∀ x ∈ t, p x = false := by
  induction l using induction_on (p := p) with
  | free l hl =>
    rw [tokens_of_forall' hl] at ht
    split_ifs at ht with h
    · cases ht
    · rw [mem_singleton.mp ht]
      exact ⟨h, hl⟩
  | delimited xs sep ys hxs hsep ih =>
    rw [tokens_append_cons xs ys hsep, tokens_of_forall' hxs] at ht
    rcases mem_append.mp ht with ht | ht
    · split_ifs at ht with h
      · cases ht
      · rw [mem_singleton.mp ht]
        exact ⟨h, hxs⟩
    · exact ih ht

/-- **The tokens of joined tokens are these tokens again.** -/
theorem tokens_intercalate {sep : α} (hsep : p sep = true) {ts : List (List α)}
    (h : ∀ t ∈ ts, t ≠ [] ∧ ∀ x ∈ t, p x = false) : tokens p ([sep].intercalate ts) = ts := by
  induction ts with
  | nil => exact tokens_nil
  | cons t ts ih =>
    obtain ⟨hne, hfree⟩ := h t mem_cons_self
    cases ts with
    | nil =>
      rw [intercalate_singleton]
      exact tokens_of_forall hfree hne
    | cons t' ts =>
      have hrest := ih fun u hu => h u (mem_cons_of_mem t hu)
      have happ : [sep].intercalate (t :: t' :: ts) = t ++ sep :: [sep].intercalate (t' :: ts) := by
        simp [intercalate_cons_cons]
      rw [happ, tokens_append_cons _ _ hsep, tokens_of_forall hfree hne, hrest]
      rfl

/-- The joined tokens of a list are no longer than the list. -/
theorem length_intercalate_tokens_le (sep : α) (l : List α) :
    ([sep].intercalate (tokens p l)).length ≤ l.length := by
  induction l using induction_on (p := p) with
  | free l hl =>
    rw [tokens_of_forall' hl]
    split_ifs <;> simp
  | delimited xs sep' ys hxs hsep ih =>
    rw [tokens_append_cons xs ys hsep, tokens_of_forall' hxs, length_append, length_cons]
    split_ifs with h
    · rw [nil_append]
      omega
    · cases hts : tokens p ys with
      | nil => simp
      | cons t ts =>
        rw [hts] at ih
        rw [singleton_append, intercalate_cons_cons, length_append, length_append, length_singleton]
        omega

/-! ## Positions -/

/-- From position `i` up to `j` the list has no delimiter, and the elements before and behind, where
there are any, are delimiters. -/
structure IsPiece (p : α → Bool) (l : List α) (i j : ℕ) : Prop where
  lt : i < j
  le_length : j ≤ l.length
  free : ∀ n x, i ≤ n → n < j → l[n]? = some x → p x = false
  before : ∀ n x, n + 1 = i → l[n]? = some x → p x = true
  behind : ∀ x, l[j]? = some x → p x = true

/-- The elements from a position up to another one. -/
def piece (l : List α) (q : ℕ × ℕ) : List α := (l.drop q.1).take (q.2 - q.1)

/-- The positions of the tokens of a list: those of all pieces, from left to right. -/
structure Pieces (p : α → Bool) (l : List α) (ps : List (ℕ × ℕ)) : Prop where
  sorted : ps.Pairwise fun q q' => q.2 < q'.1
  mem_iff : ∀ i j, (i, j) ∈ ps ↔ IsPiece p l i j
  tokens : tokens p l = ps.map (piece l)

theorem getElem?_sep (xs ys : List α) (sep : α) : (xs ++ sep :: ys)[xs.length]? = some sep := by
  simp

theorem getElem?_behind_sep (xs ys : List α) (sep : α) (n : ℕ) :
    (xs ++ sep :: ys)[n + (xs.length + 1)]? = ys[n]? := by
  rw [getElem?_append_right (by omega), show n + (xs.length + 1) - xs.length = n + 1 by omega,
    getElem?_cons_succ]

variable {xs ys : List α} {sep : α} {i j : ℕ}

/-- A piece in front of a delimiter. -/
theorem isPiece_append_left (hsep : p sep = true) (hj : j ≤ xs.length) :
    IsPiece p (xs ++ sep :: ys) i j ↔ IsPiece p xs i j := by
  have hget : ∀ n, n < xs.length → (xs ++ sep :: ys)[n]? = xs[n]? := fun n hn =>
    getElem?_append_left hn
  constructor
  · rintro ⟨hlt, -, hfree, hbefore, hbehind⟩
    refine ⟨hlt, hj, fun n x hin hnj hx => ?_, fun n x hn hx => ?_, fun x hx => ?_⟩
    · exact hfree n x hin hnj (by rw [hget n (by omega), hx])
    · exact hbefore n x hn (by rw [hget n (by omega), hx])
    · have hjx : j < xs.length := (List.getElem?_eq_some_iff.mp hx).1
      exact hbehind x (by rw [hget j hjx, hx])
  · rintro ⟨hlt, hle, hfree, hbefore, hbehind⟩
    refine ⟨hlt, by rw [length_append]; omega, fun n x hin hnj hx => ?_, fun n x hn hx => ?_,
      fun x hx => ?_⟩
    · exact hfree n x hin hnj (by rw [← hget n (by omega), hx])
    · exact hbefore n x hn (by rw [← hget n (by omega), hx])
    · rcases hle.lt_or_eq with hjx | rfl
      · exact hbehind x (by rw [← hget j hjx, hx])
      · rw [getElem?_sep] at hx
        cases hx
        exact hsep

/-- A piece behind a delimiter. -/
theorem isPiece_append_right (hsep : p sep = true) :
    IsPiece p (xs ++ sep :: ys) (i + (xs.length + 1)) (j + (xs.length + 1)) ↔
      IsPiece p ys i j := by
  constructor
  · rintro ⟨hlt, hle, hfree, hbefore, hbehind⟩
    rw [length_append, length_cons] at hle
    refine ⟨by omega, by omega, fun n x hin hnj hx => ?_, fun n x hn hx => ?_, fun x hx => ?_⟩
    · exact hfree (n + (xs.length + 1)) x (by omega) (by omega)
        (by rw [getElem?_behind_sep, hx])
    · exact hbefore (n + (xs.length + 1)) x (by omega) (by rw [getElem?_behind_sep, hx])
    · exact hbehind x (by rw [getElem?_behind_sep, hx])
  · rintro ⟨hlt, hle, hfree, hbefore, hbehind⟩
    refine ⟨by omega, by rw [length_append, length_cons]; omega, fun n x hin hnj hx => ?_,
      fun n x hn hx => ?_, fun x hx => ?_⟩
    · obtain ⟨n, rfl⟩ : ∃ m, n = m + (xs.length + 1) := ⟨n - (xs.length + 1), by omega⟩
      rw [getElem?_behind_sep] at hx
      exact hfree n x (by omega) (by omega) hx
    · cases i with
      | zero =>
        obtain rfl : n = xs.length := by omega
        rw [getElem?_sep] at hx
        cases hx
        exact hsep
      | succ i =>
        obtain rfl : n = i + (xs.length + 1) := by omega
        rw [getElem?_behind_sep] at hx
        exact hbefore i x rfl hx
    · rw [getElem?_behind_sep] at hx
      exact hbehind x hx

/-- No piece goes over a delimiter. -/
theorem IsPiece.not_over_sep (hsep : p sep = true) (h : IsPiece p (xs ++ sep :: ys) i j) :
    j ≤ xs.length ∨ xs.length + 1 ≤ i := by
  by_contra hover
  have hfree := h.free xs.length sep (by omega) (by omega) (getElem?_sep xs ys sep)
  rw [hsep] at hfree
  cases hfree

/-- A list without delimiters is one piece, if it is not empty. -/
theorem isPiece_of_forall {l : List α} (hl : ∀ x ∈ l, p x = false) :
    IsPiece p l i j ↔ l ≠ [] ∧ i = 0 ∧ j = l.length := by
  constructor
  · rintro ⟨hlt, hle, -, hbefore, hbehind⟩
    refine ⟨by rintro rfl; rw [length_nil] at hle; omega, ?_, ?_⟩
    · by_contra hi
      obtain ⟨n, rfl⟩ := Nat.exists_eq_succ_of_ne_zero hi
      have hn : n < l.length := by omega
      have := hbefore n _ rfl (getElem?_eq_getElem hn)
      rw [hl _ (getElem_mem hn)] at this
      cases this
    · by_contra hj
      have hn : j < l.length := by omega
      have := hbehind _ (getElem?_eq_getElem hn)
      rw [hl _ (getElem_mem hn)] at this
      cases this
  · rintro ⟨hne, rfl, rfl⟩
    refine ⟨length_pos_iff.mpr hne, le_rfl, fun n x _ _ hx => hl x (mem_of_getElem? hx),
      fun n x hn => by omega, fun x hx => ?_⟩
    rw [getElem?_eq_none le_rfl] at hx
    cases hx

theorem pieces_of_forall {l : List α} (hl : ∀ x ∈ l, p x = false) :
    Pieces p l (if l = [] then [] else [(0, l.length)]) := by
  refine ⟨?_, fun i j => ?_, ?_⟩
  · split_ifs <;> simp
  · rw [isPiece_of_forall hl]
    split_ifs with h <;> simp [h]
  · rw [tokens_of_forall' hl]
    split_ifs with h
    · rfl
    · simp [piece]

theorem piece_append_left {q : ℕ × ℕ} (hq : q.2 ≤ xs.length) :
    piece (xs ++ sep :: ys) q = piece xs q := by
  by_cases h : q.1 ≤ xs.length
  · rw [piece, piece, drop_append_of_le_length h, take_append_of_le_length]
    rw [length_drop]
    omega
  · rw [piece, piece, show q.2 - q.1 = 0 by omega, take_zero, take_zero]

theorem piece_append_right (q : ℕ × ℕ) :
    piece (xs ++ sep :: ys) (q.1 + (xs.length + 1), q.2 + (xs.length + 1)) = piece ys q := by
  have hdrop : (xs ++ sep :: ys).drop (q.1 + (xs.length + 1)) = ys.drop q.1 := by
    rw [Nat.add_comm, ← drop_drop, ← drop_drop, drop_left, drop_one, tail_cons]
  rw [piece, piece, hdrop, Nat.add_sub_add_right]

/-- **The tokens of a list are its pieces from left to right.** -/
theorem exists_pieces (l : List α) : ∃ ps, Pieces p l ps := by
  induction l using induction_on (p := p) with
  | free l hl => exact ⟨_, pieces_of_forall hl⟩
  | delimited xs sep ys hxs hsep ih =>
    obtain ⟨qs, hqs⟩ := ih
    have hps := pieces_of_forall hxs
    refine ⟨(if xs = [] then [] else [(0, xs.length)]) ++
      qs.map fun q => (q.1 + (xs.length + 1), q.2 + (xs.length + 1)), ?_, fun i j => ?_, ?_⟩
    · refine pairwise_append.mpr ⟨hps.sorted, ?_, fun q hq q' hq' => ?_⟩
      · exact pairwise_map.mpr (hqs.sorted.imp fun h => by simpa using h)
      · have hle := ((hps.mem_iff q.1 q.2).mp hq).le_length
        obtain ⟨r, -, rfl⟩ := mem_map.mp hq'
        change q.2 < r.1 + (xs.length + 1)
        omega
    · rw [mem_append, hps.mem_iff, mem_map]
      constructor
      · rintro (h | ⟨q, hq, he⟩)
        · exact (isPiece_append_left hsep h.le_length).mpr h
        · cases he
          exact (isPiece_append_right hsep).mpr ((hqs.mem_iff q.1 q.2).mp hq)
      · intro h
        rcases h.not_over_sep hsep with hj | hi
        · exact Or.inl ((isPiece_append_left hsep hj).mp h)
        · have hlt := h.lt
          obtain ⟨i, rfl⟩ : ∃ i', i = i' + (xs.length + 1) := ⟨i - (xs.length + 1), by omega⟩
          obtain ⟨j, rfl⟩ : ∃ j', j = j' + (xs.length + 1) := ⟨j - (xs.length + 1), by omega⟩
          exact Or.inr ⟨(i, j), (hqs.mem_iff i j).mpr ((isPiece_append_right hsep).mp h), rfl⟩
    · rw [tokens_append_cons xs ys hsep, hps.tokens, hqs.tokens, map_append, map_map]
      congr 1
      · refine map_congr_left fun q hq => ?_
        exact (piece_append_left ((hps.mem_iff q.1 q.2).mp hq).le_length).symm
      · exact map_congr_left fun q _ => (piece_append_right q).symm

end Tokens
