import NixSrv.Lib.Cell
import NixSrv.ReadBack
import NixSrv.Util.Segments

/-!
# Paths into documents

* `Value.membersOf?`, `Blocked`: the values that take members, and the paths that meet another one;
* `plant`, **`findFrom_plant_self`**, **`findFrom_plant_apart`**: a document with a value put under
  a path;
* `blocked_append`, **`plant_append`**, `plant_plant`: paths in two parts;
* **`setPath_eq`**: what `Message::set` makes of a document;
* `writes`, **`find_of_writes`**, **`find_eq_none_of_writes`**: what a list of assignments leaves to
  be read.
-/

namespace NixSrv

open Json Message Util

/-- The members of a value that takes members. jsoncpp throws on arrays and scalars. -/
def Json.Value.membersOf? : Value → Option Members
  | .null => some []
  | .object ms => some ms
  | _ => none

@[simp] theorem membersOf?_null : Value.null.membersOf? = some [] := rfl
@[simp] theorem membersOf?_object (ms : Members) : (Value.object ms).membersOf? = some ms := rfl

/-- Some value above the end of the path takes no members. -/
def Blocked : List String → Value → Prop
  | [], _ => False
  | k :: ks, x => ∀ ms ∈ x.membersOf?, ∃ y ∈ ms.lookup k, Blocked ks y

/-- The value with `y` in the place the path leads to. -/
def plant : List String → Value → Value → Value
  | [], y, _ => y
  | k :: ks, y, x =>
    let ms := x.membersOf?.getD []
    .object (ms.put k (plant ks y ((ms.lookup k).getD .null)))

/-- Neither path leads through the end of the other. -/
def Apart (p p' : List String) : Prop := ¬ p <+: p' ∧ ¬ p' <+: p

@[simp] theorem plant_nil (y x : Value) : plant [] y x = y := rfl

theorem blocked_cons (k : String) (ks : List String) (x : Value) :
    Blocked (k :: ks) x ↔ x.membersOf? = none ∨ ∃ y, x.member? k = some y ∧ Blocked ks y := by
  cases x <;> simp [Blocked, Value.membersOf?, Value.member?]

theorem not_blocked_null (ks : List String) : ¬ Blocked ks .null := by
  cases ks with
  | nil => exact id
  | cons k ks => simp [blocked_cons, Value.membersOf?, Value.member?]

/-- **A path is blocked by a value on the way that takes no members.** -/
theorem blocked_iff (ks : List String) (x : Value) : Blocked ks x ↔
    ∃ p y, p <+: ks ∧ p ≠ ks ∧ findFrom p x = some y ∧ y.membersOf? = none := by
  induction ks generalizing x with
  | nil =>
    refine iff_of_false id ?_
    rintro ⟨p, y, hp, hne, -⟩
    exact hne (List.prefix_nil.mp hp)
  | cons k ks ih =>
    rw [blocked_cons]
    constructor
    · rintro (hx | ⟨y, hy, hb⟩)
      · exact ⟨[], x, List.nil_prefix, by simp, rfl, hx⟩
      · obtain ⟨p, z, hp, hne, hf, hz⟩ := (ih y).mp hb
        refine ⟨k :: p, z, List.cons_prefix_cons.mpr ⟨rfl, hp⟩, by simpa using hne, ?_, hz⟩
        rw [findFrom, hy, Option.bind_some, hf]
    · rintro ⟨p, z, hp, hne, hf, hz⟩
      cases p with
      | nil =>
        cases hf
        exact Or.inl hz
      | cons k' p =>
        obtain ⟨rfl, hp'⟩ := List.cons_prefix_cons.mp hp
        obtain ⟨y, hy, hf'⟩ := Option.bind_eq_some_iff.mp hf
        exact Or.inr ⟨y, hy, (ih y).mpr ⟨p, z, hp', by simpa using hne, hf', hz⟩⟩

/-! ## What is found after a value was planted -/

/-- **The planted value is found.** -/
theorem findFrom_plant_self (ks : List String) (y x : Value) :
    findFrom ks (plant ks y x) = some y := by
  induction ks generalizing x with
  | nil => rfl
  | cons k ks ih => simp only [plant, findFrom, Value.member?, Members.lookup_put_self,
      Option.bind_some, ih]

/-- A path that goes on below the planted value. -/
theorem findFrom_plant_append (ks p : List String) (y x : Value) :
    findFrom (ks ++ p) (plant ks y x) = findFrom p y := by
  induction ks generalizing x with
  | nil => rfl
  | cons k ks ih => simp only [plant, List.cons_append, findFrom, Value.member?,
      Members.lookup_put_self, Option.bind_some, ih]

theorem member?_of_membersOf? {x : Value} {ms : Members} (h : x.membersOf? = some ms)
    (k : String) : x.member? k = ms.lookup k := by
  cases x <;> cases h <;> rfl

theorem findFrom_null {p : List String} (hp : p ≠ []) : findFrom p .null = none := by
  obtain ⟨k, p, rfl⟩ := List.exists_cons_of_ne_nil hp
  rfl

/-- **Nothing else changes**, as far as it lies neither above nor below the planted value. -/
theorem findFrom_plant_apart {ks p : List String} (h : Apart p ks) (y : Value) {x : Value}
    (hb : ¬ Blocked ks x) : findFrom p (plant ks y x) = findFrom p x := by
  induction ks generalizing p x with
  | nil => exact absurd List.nil_prefix h.2
  | cons k ks ih =>
    obtain ⟨ms, hms⟩ : ∃ ms, x.membersOf? = some ms :=
      Option.ne_none_iff_exists'.mp fun hn => hb ((blocked_cons k ks x).mpr (Or.inl hn))
    have hp : p ≠ [] := by
      rintro rfl
      exact h.1 List.nil_prefix
    obtain ⟨k', p, rfl⟩ := List.exists_cons_of_ne_nil hp
    have hmember := member?_of_membersOf? hms
    rw [show findFrom (k' :: p) x = (ms.lookup k').bind (findFrom p) by rw [findFrom, hmember]]
    simp only [plant, hms, Option.getD_some, findFrom, Value.member?]
    by_cases hk : k' = k
    · subst hk
      have h' : Apart p ks := by simpa [Apart, List.cons_prefix_cons] using h
      rw [Members.lookup_put_self, Option.bind_some]
      cases hl : ms.lookup k' with
      | none =>
        rw [Option.getD_none, Option.bind_none, ih h' (not_blocked_null ks)]
        exact findFrom_null fun hp => h'.1 (hp ▸ List.nil_prefix)
      | some c =>
        rw [Option.getD_some, Option.bind_some, ih h']
        intro hc
        exact hb ((blocked_cons k' ks x).mpr (Or.inr ⟨c, by rw [hmember, hl], hc⟩))
    · rw [Members.lookup_put_ne hk]

/-- What is found above a planted value takes members. -/
theorem isObject_of_findFrom_plant {ks p : List String} {y x z : Value} (hp : p <+: ks)
    (hne : p ≠ ks) (h : findFrom p (plant ks y x) = some z) : z.isObject = true := by
  induction ks generalizing p x with
  | nil => exact absurd (List.prefix_nil.mp hp) hne
  | cons k ks ih =>
    cases p with
    | nil =>
      cases h
      rfl
    | cons k' p =>
      obtain ⟨rfl, hp'⟩ := List.cons_prefix_cons.mp hp
      simp only [plant, findFrom, Value.member?, Members.lookup_put_self, Option.bind_some] at h
      exact ih hp' (by simpa using hne) h

/-! ## Paths in two parts -/

theorem findFrom_append (p q : List String) (x : Value) :
    findFrom (p ++ q) x = (findFrom p x).bind (findFrom q) := by
  induction p generalizing x with
  | nil => rfl
  | cons k p ih =>
    rw [List.cons_append, findFrom, findFrom, Option.bind_assoc]
    exact Option.bind_congr fun y _ => ih y

theorem blocked_append (p q : List String) (x : Value) :
    Blocked (p ++ q) x ↔ Blocked p x ∨ ∃ y, findFrom p x = some y ∧ Blocked q y := by
  induction p generalizing x with
  | nil => simp [Blocked, findFrom]
  | cons k p ih =>
    rw [List.cons_append, blocked_cons, blocked_cons, or_assoc]
    refine or_congr_right ⟨?_, ?_⟩
    · rintro ⟨y, hy, hb⟩
      rcases (ih y).mp hb with hb | ⟨z, hz, hb⟩
      · exact Or.inl ⟨y, hy, hb⟩
      · exact Or.inr ⟨z, by rw [findFrom, hy, Option.bind_some, hz], hb⟩
    · rintro (⟨y, hy, hb⟩ | ⟨z, hz, hb⟩)
      · exact ⟨y, hy, (ih y).mpr (Or.inl hb)⟩
      · obtain ⟨y, hy, hz⟩ := Option.bind_eq_some_iff.mp hz
        exact ⟨y, hy, (ih y).mpr (Or.inr ⟨z, hz, hb⟩)⟩

/-- **A value is planted part by part.** -/
theorem plant_append (p q : List String) (y x : Value) :
    plant (p ++ q) y x = plant p (plant q y ((findFrom p x).getD .null)) x := by
  induction p generalizing x with
  | nil => rfl
  | cons k p ih =>
    have hmember : x.member? k = (x.membersOf?.getD []).lookup k := by cases x <;> rfl
    have hfound : (findFrom p (((x.membersOf?.getD []).lookup k).getD .null)).getD .null =
        (findFrom (k :: p) x).getD .null := by
      rw [findFrom, hmember]
      cases (x.membersOf?.getD []).lookup k with
      | some c => rfl
      | none => cases p <;> rfl
    simp only [List.cons_append, plant, ih, hfound]

/-- The last value planted under a path counts. -/
theorem plant_plant (ks : List String) (y y' x : Value) :
    plant ks y (plant ks y' x) = plant ks y x := by
  induction ks generalizing x with
  | nil => rfl
  | cons k ks ih =>
    simp only [plant, membersOf?_object, Option.getD_some, Members.lookup_put_self, ih,
      Members.put_put]

/-! ## `Message::set` -/

/-- Where a step of the walk finds nothing, it goes on with an object without members. -/
theorem setPath_cons {ks : List String} (hk : ks ≠ []) (k : String) (v : Value) (ms : Members) :
    setPath (k :: ks) v ms = match ((ms.lookup k).getD .null).membersOf? with
      | none => .error .notObject
      | some child => (setPath ks v child).map fun child' => ms.put k (.object child') := by
  obtain ⟨k', ks, rfl⟩ := List.exists_cons_of_ne_nil hk
  rw [setPath]
  · cases hl : ms.lookup k with
    | none => rfl
    | some x => cases x <;> rfl
  · exact List.cons_ne_nil _ _

theorem blocked_object {x : Value} {ms : Members} (h : x.membersOf? = some ms)
    (ks : List String) : Blocked ks x ↔ Blocked ks (.object ms) := by
  cases ks with
  | nil => exact Iff.rfl
  | cons k ks => simp only [Blocked, h, membersOf?_object]

theorem plant_object {x : Value} {ms : Members} (h : x.membersOf? = some ms) {ks : List String}
    (hk : ks ≠ []) (y : Value) : plant ks y x = plant ks y (.object ms) := by
  obtain ⟨k, ks, rfl⟩ := List.exists_cons_of_ne_nil hk
  simp only [plant, h, membersOf?_object]

theorem blocked_of_membersOf?_eq_none {x : Value} (h : x.membersOf? = none) {ks : List String}
    (hk : ks ≠ []) : Blocked ks x := by
  obtain ⟨k, ks, rfl⟩ := List.exists_cons_of_ne_nil hk
  exact (blocked_cons k ks x).mpr (Or.inl h)

/-- A path of an object is blocked below the member it leads to. -/
theorem blocked_cons_object (k : String) (ks : List String) (ms : Members) :
    Blocked (k :: ks) (.object ms) ↔ Blocked ks ((ms.lookup k).getD .null) := by
  rw [blocked_cons]
  cases hl : ms.lookup k with
  | none =>
    refine iff_of_false ?_ (not_blocked_null ks)
    rintro (h | ⟨y, hy, -⟩)
    · cases h
    · cases hl.symm.trans hy
  | some y =>
    constructor
    · rintro (h | ⟨y', hy', hb⟩)
      · cases h
      · cases hl.symm.trans hy'
        exact hb
    · exact fun hb => Or.inr ⟨y, hl, hb⟩

/-- **`set` throws on a blocked path and plants the value under another one.** -/
theorem setPath_eq {ks : List String} (hk : ks ≠ []) (v : Value) (ms : Members) :
    (Blocked ks (.object ms) ∧ setPath ks v ms = .error .notObject) ∨
    (¬ Blocked ks (.object ms) ∧
      ∃ ms', setPath ks v ms = .ok ms' ∧ plant ks v (.object ms) = .object ms') := by
  induction ks generalizing ms with
  | nil => exact absurd rfl hk
  | cons k ks ih =>
    rw [blocked_cons_object]
    by_cases hks : ks = []
    · subst hks
      exact Or.inr ⟨id, _, rfl, rfl⟩
    rw [setPath_cons hks]
    cases hc : ((ms.lookup k).getD .null).membersOf? with
    | none => exact Or.inl ⟨blocked_of_membersOf?_eq_none hc hks, rfl⟩
    | some child =>
      rw [blocked_object hc]
      rcases ih hks child with ⟨hb, hs⟩ | ⟨hb, ms', hs, hp⟩
      · exact Or.inl ⟨hb, by simp only [hs]; rfl⟩
      · refine Or.inr ⟨hb, ms.put k (.object ms'), by simp only [hs]; rfl, ?_⟩
        rw [← hp, ← plant_object hc hks]
        rfl

theorem set_eq {k : String} (hk : segments k ≠ []) (v : Value) (ms : Members) :
    (Blocked (segments k) (.object ms) ∧ ms.set k v = .error .notObject) ∨
    (¬ Blocked (segments k) (.object ms) ∧
      ∃ ms', ms.set k v = .ok ms' ∧ plant (segments k) v (.object ms) = .object ms') :=
  setPath_eq hk v ms

/-! ## Assignments one after another -/

/-- Calls of `set` on one document. -/
def writes (ws : List (String × Value)) (ms : Members) : Except WriteError Members :=
  ws.foldlM (fun ms w => ms.set w.1 w.2) ms

/-- Every assignment is one of an array or a scalar, under a key with a segment. -/
def Leaves (ws : List (String × Value)) : Prop :=
  ∀ w ∈ ws, segments w.1 ≠ [] ∧ w.2.membersOf? = none

/-- No assignment leads through the end of another one. -/
def NoneThrough (ws : List (String × Value)) : Prop :=
  ∀ w ∈ ws, ∀ w' ∈ ws, segments w.1 <+: segments w'.1 → segments w.1 = segments w'.1

/-- The value of the last assignment under a path. -/
def lastWritten (ws : List (String × Value)) (p : List String) : Option Value :=
  Cell.content (fun w : String × Value => if segments w.1 = p then .put w.2 else .keep) ws

@[simp] theorem writes_nil (ms : Members) : writes [] ms = .ok ms := rfl

theorem writes_cons (w : String × Value) (ws : List (String × Value)) (ms : Members) :
    writes (w :: ws) ms = (ms.set w.1 w.2).bind (writes ws) := rfl

theorem writes_append (ws ws' : List (String × Value)) (ms : Members) :
    writes (ws ++ ws') ms = (writes ws ms).bind (writes ws') :=
  List.foldlM_append

theorem writes_singleton (w : String × Value) (ms : Members) : writes [w] ms = ms.set w.1 w.2 := by
  rw [writes_cons]
  cases ms.set w.1 w.2 <;> rfl

/-- An assignment under a key with a segment fails at a value that takes no members only. -/
theorem writes_error {ws : List (String × Value)} (hk : ∀ w ∈ ws, segments w.1 ≠ [])
    {ms : Members} {e : WriteError} (h : writes ws ms = .error e) : e = .notObject := by
  induction ws generalizing ms with
  | nil => cases h
  | cons w ws ih =>
    rw [writes_cons] at h
    rcases set_eq (hk w List.mem_cons_self) w.2 ms with ⟨-, hs⟩ | ⟨-, ms', hs, -⟩
    · rw [hs] at h
      cases h
      rfl
    · rw [hs] at h
      exact ih (fun w' hw' => hk w' (List.mem_cons_of_mem _ hw')) h

theorem lastWritten_snoc (ws : List (String × Value)) (w : String × Value) (p : List String) :
    lastWritten (ws ++ [w]) p = if segments w.1 = p then some w.2 else lastWritten ws p := by
  rw [lastWritten, Cell.content_snoc]
  split_ifs <;> rfl

/-- A loop that makes some assignments for each element of a list. -/
theorem foldlM_writes {ε : Type*} (f : ε → List (String × Value)) (es : List ε) (ms : Members) :
    es.foldlM (fun ms e => writes (f e) ms) ms = writes (es.flatMap f) ms := by
  induction es generalizing ms with
  | nil => rfl
  | cons e es ih =>
    rw [List.foldlM_cons, List.flatMap_cons, writes_append]
    exact congrArg (Except.bind (writes (f e) ms)) (funext ih)

theorem lastWritten_append (ws ws' : List (String × Value)) (p : List String) :
    lastWritten (ws ++ ws') p = (lastWritten ws' p).or (lastWritten ws p) := by
  induction ws' using List.reverseRecOn with
  | nil => rw [List.append_nil]; rfl
  | append_singleton ws' w ih =>
    rw [← List.append_assoc, lastWritten_snoc, lastWritten_snoc, ih]
    split_ifs <;> rfl

theorem lastWritten_eq_none {ws : List (String × Value)} {p : List String}
    (h : ∀ w ∈ ws, segments w.1 ≠ p) : lastWritten ws p = none := by
  induction ws using List.reverseRecOn with
  | nil => rfl
  | append_singleton ws w ih =>
    rw [lastWritten_snoc, if_neg (h w (by simp))]
    exact ih fun w' hw' => h w' (List.mem_append_left _ hw')

/-- Nothing is found below a value that takes no members. -/
theorem findFrom_leaf {x : Value} (hx : x.membersOf? = none) {p : List String} (hp : p ≠ []) :
    findFrom p x = none := by
  obtain ⟨k, p, rfl⟩ := List.exists_cons_of_ne_nil hp
  cases x <;> first | rfl | cases hx

theorem membersOf?_of_isObject {x : Value} (h : x.isObject = true) : x.membersOf? ≠ none := by
  cases x <;> first | exact Option.some_ne_none _ | cases h

/-- What a list of assignments has made of an empty document. -/
structure WrittenBy (ws : List (String × Value)) (ms : Members) : Prop where
  values : ∀ w ∈ ws, findFrom (segments w.1) (.object ms) = lastWritten ws (segments w.1)
  leaves : ∀ p y, findFrom p (.object ms) = some y → y.membersOf? = none →
    ∃ w ∈ ws, segments w.1 = p

/-- **Assignments that do not lead through one another leave the last value under each path.** -/
theorem find_of_writes {ws : List (String × Value)} (hl : Leaves ws) (hn : NoneThrough ws) :
    ∃ ms, writes ws [] = .ok ms ∧ WrittenBy ws ms := by
  induction ws using List.reverseRecOn with
  | nil =>
    refine ⟨[], rfl, fun w hw => absurd hw List.not_mem_nil, fun p y hp hy => ?_⟩
    cases p with
    | nil => cases hp; cases hy
    | cons k p => cases hp
  | append_singleton ws w ih =>
    have hmem : w ∈ ws ++ [w] := by simp
    have hsub : ∀ w' ∈ ws, w' ∈ ws ++ [w] := fun w' hw' => List.mem_append_left _ hw'
    obtain ⟨ms, hms, hv, hleaf⟩ := ih (fun w' hw' => hl w' (hsub w' hw'))
      fun w' hw' w'' hw'' => hn w' (hsub w' hw') w'' (hsub w'' hw'')
    obtain ⟨hseg, hval⟩ := hl w hmem
    rw [writes_append, hms]
    change ∃ ms', writes [w] ms = .ok ms' ∧ _
    rw [writes_singleton]
    rcases set_eq hseg w.2 ms with ⟨hb, -⟩ | ⟨hb, ms', hs, hp⟩
    · obtain ⟨p, y, hpre, hne, hf, hy⟩ := (blocked_iff _ _).mp hb
      obtain ⟨w', hw', rfl⟩ := hleaf p y hf hy
      exact absurd (hn w' (hsub w' hw') w hmem hpre) hne
    refine ⟨ms', hs, fun w' hw' => ?_, fun p y hf hy => ?_⟩
    · rw [lastWritten_snoc, ← hp]
      split_ifs with heq
      · rw [← heq, findFrom_plant_self]
      · have hapart : Apart (segments w'.1) (segments w.1) :=
          ⟨fun h => heq (hn w' hw' w hmem h).symm, fun h => heq (hn w hmem w' hw' h)⟩
        have hw'' : w' ∈ ws := by
          rcases List.mem_append.mp hw' with h | h
          · exact h
          · exact absurd (by rw [List.mem_singleton.mp h]) heq
        rw [findFrom_plant_apart hapart _ hb, hv w' hw'']
    · rw [← hp] at hf
      by_cases heq : segments w.1 = p
      · exact ⟨w, hmem, heq⟩
      by_cases hbelow : segments w.1 <+: p
      · obtain ⟨q, rfl⟩ := hbelow
        have hq : q ≠ [] := by
          rintro rfl
          exact heq (List.append_nil _).symm
        rw [findFrom_plant_append, findFrom_leaf hval hq] at hf
        cases hf
      by_cases habove : p <+: segments w.1
      · exact absurd hy (membersOf?_of_isObject
          (isObject_of_findFrom_plant habove (fun h => heq h.symm) hf))
      · rw [findFrom_plant_apart ⟨habove, hbelow⟩ _ hb] at hf
        obtain ⟨w', hw', he⟩ := hleaf p y hf hy
        exact ⟨w', hsub w' hw', he⟩

/-- At the end of every assignment, or above it, there is a value that takes no members. -/
theorem exists_leaf_of_writes {ws : List (String × Value)} (hl : Leaves ws) {ms : Members}
    (h : writes ws [] = .ok ms) : ∀ w ∈ ws, ∃ p y, p <+: segments w.1 ∧
      findFrom p (.object ms) = some y ∧ y.membersOf? = none := by
  induction ws using List.reverseRecOn generalizing ms with
  | nil => exact fun w hw => absurd hw List.not_mem_nil
  | append_singleton ws w ih =>
    obtain ⟨hseg, hval⟩ := hl w (by simp)
    rw [writes_append] at h
    obtain ⟨ms₀, hms₀, hset⟩ : ∃ ms₀, writes ws [] = .ok ms₀ ∧ ms₀.set w.1 w.2 = .ok ms := by
      cases hw : writes ws [] with
      | error e => rw [hw] at h; cases h
      | ok ms₀ => rw [hw] at h; exact ⟨ms₀, rfl, (writes_singleton w ms₀).symm.trans h⟩
    rcases set_eq hseg w.2 ms₀ with ⟨-, hs⟩ | ⟨hb, ms', hs, hp⟩
    · rw [hset] at hs
      cases hs
    rw [hset] at hs
    cases hs
    intro w' hw'
    rw [← hp]
    rcases List.mem_append.mp hw' with hw' | hw'
    swap
    · rw [List.mem_singleton.mp hw']
      exact ⟨_, w.2, List.prefix_rfl, findFrom_plant_self _ _ _, hval⟩
    obtain ⟨p, y, hpre, hf, hy⟩ := ih (fun v hv => hl v (List.mem_append_left _ hv)) hms₀ w' hw'
    by_cases hbelow : segments w.1 <+: p
    · exact ⟨_, w.2, hbelow.trans hpre, findFrom_plant_self _ _ _, hval⟩
    by_cases habove : p <+: segments w.1
    · refine absurd ((blocked_iff _ _).mpr ⟨p, y, habove, ?_, hf, hy⟩) hb
      rintro rfl
      exact hbelow List.prefix_rfl
    · exact ⟨p, y, hpre, by rw [findFrom_plant_apart ⟨habove, hbelow⟩ _ hb, hf], hy⟩

/-- **Nothing is found where an assignment leads through the end of another one.** -/
theorem find_eq_none_of_writes {ws : List (String × Value)} (hl : Leaves ws) {ms : Members}
    (h : writes ws [] = .ok ms) {w : String × Value} (hw : w ∈ ws) {p : List String}
    (hpre : segments w.1 <+: p) (hne : segments w.1 ≠ p) : findFrom p (.object ms) = none := by
  obtain ⟨q, y, hq, hf, hy⟩ := exists_leaf_of_writes hl h w hw
  obtain ⟨r, rfl⟩ := hq.trans hpre
  have hr : r ≠ [] := by
    rintro rfl
    rw [List.append_nil] at hpre hne
    exact hne (hpre.eq_of_length_le hq.length_le)
  rw [findFrom_append, hf, Option.bind_some, findFrom_leaf hy hr]

/-- A path with one value for all its assignments is left with this value. -/
theorem lastWritten_eq_of_mem {ws : List (String × Value)} {w : String × Value} (hw : w ∈ ws)
    (h : ∀ w' ∈ ws, segments w'.1 = segments w.1 → w'.2 = w.2) :
    lastWritten ws (segments w.1) = some w.2 := by
  induction ws using List.reverseRecOn with
  | nil => exact absurd hw List.not_mem_nil
  | append_singleton ws w₁ ih =>
    rw [lastWritten_snoc]
    split_ifs with heq
    · rw [h w₁ (by simp) heq]
    · refine ih ?_ fun w' hw' => h w' (List.mem_append_left _ hw')
      rcases List.mem_append.mp hw with hw | hw
      · exact hw
      · exact absurd (by rw [List.mem_singleton.mp hw]) heq

end NixSrv
