import NixSrv.Paths

/-!
# Writes into a document that may fail on the way

`Message::set` and `Message::append` go down into the document of a message with a pointer, and make
the members they miss before they may fail.

* `Pointer`, `Pointer.enter`, `walk`: the pointer and the loop over the keys;
* `Document.set`, `Document.append`: the document after a write, whether it returns or throws;
* `Reaches`, **`walk_cases`**: what the loop has done to the document;
* **`set_cases`**, **`append_cases`**: what the writes do;
* **`set_outcome`**, **`append_outcome`**: what is found in the document afterwards.
-/

namespace NixSrv

open Json Message Util

/-- A document after a write, and how the write has ended. -/
structure Written where
  document : Value
  ending : Ending

/-- A pointer into a document: the document, and the path to the node. -/
structure Pointer where
  document : Value
  path : List String := []

namespace Pointer

variable (p : Pointer)

/-- `*ptr`. -/
def node : Value := (findFrom p.path p.document).getD .null

/-- `*ptr = v`. -/
def assign (v : Value) : Pointer := { p with document := plant p.path v p.document }

/-- One turn of the loop; `none` when `isMember` throws. A node with the member is an object, so
that the check of `isObject` never fails. -/
def enter (k : String) : Option Pointer :=
  match p.node.membersOf? with
  | none => none
  | some ms =>
    match ms.lookup k with
    | none => some { p.assign (.object (ms.put k (.object []))) with path := p.path ++ [k] }
    | some _ => some { p with path := p.path ++ [k] }

end Pointer

/-- The loop over the keys; an exception leaves the document behind as it is at that moment. -/
def walk : List String → Pointer → Except Value Pointer
  | [], p => .ok p
  | k :: ks, p =>
    match p.enter k with
    | none => .error p.document
    | some p => walk ks p

namespace Json.Value

/-- `Json::Value::empty`. -/
def isEmpty : Value → Bool
  | null | array [] | object [] => true
  | _ => false

/-- A number, a text or a boolean. -/
def isScalar : Value → Bool
  | int _ | real _ | string _ | bool _ => true
  | _ => false

/-- An object with members. -/
def isFilled : Value → Bool
  | object (_ :: _) => true
  | _ => false

/-- The elements of a value that counts as an array. -/
def elements? : Value → Option (List Value)
  | null | object [] => some []
  | array xs => some xs
  | _ => none

end Json.Value

namespace Document

variable (root : Value) (k : String) (v : Value)

/-- `Message::set` on the document `root`. -/
def set : Written :=
  let keys := segments k
  match keys.getLast? with
  -- `keys.end() - 1` lies before the start of the vector
  | none => { document := root, ending := .undefined }
  | some last =>
    match walk keys.dropLast { document := root } with
    | .error document => { document, ending := .thrown }
    | .ok p =>
      match p.node.membersOf? with
      | none => { document := p.document, ending := .thrown }
      | some ms =>
        { document := (p.assign (.object (ms.put last v))).document, ending := .returned }

/-- `Message::append` on the document `root`. -/
def append : Written :=
  match walk (segments k) { document := root } with
  | .error document => { document, ending := .thrown }
  | .ok p =>
    let p := if p.node.isEmpty then p.assign (.array []) else p
    match p.node with
    | .array xs => { document := (p.assign (.array (xs ++ [v]))).document, ending := .returned }
    | _ => { document := p.document, ending := .thrown }

end Document

/-! ## The loop over the keys -/

/-- A pointer that has come from the root of a document: the members on its way are made where they
were missing, and nothing is changed before one is. -/
structure Reaches (root : Value) (p : Pointer) : Prop where
  unblocked : ¬ Blocked p.path root
  found : findFrom p.path p.document = some p.node
  node : p.node = (findFrom p.path root).getD (.object [])
  unchanged : findFrom p.path root ≠ none → p.document = root
  plants : ∀ y, plant p.path y p.document = plant p.path y root

theorem Reaches.of_found {root document x : Value} {path : List String}
    (hb : ¬ Blocked path root) (hf : findFrom path document = some x)
    (hx : x = (findFrom path root).getD (.object []))
    (hu : findFrom path root ≠ none → document = root)
    (hp : ∀ y, plant path y document = plant path y root) : Reaches root ⟨document, path⟩ := by
  have hnode : (Pointer.mk document path).node = x := by
    rw [Pointer.node, hf]
    rfl
  exact ⟨hb, by rw [hnode, hf], hnode.trans hx, hu, hp⟩

theorem reaches_root (root : Value) : Reaches root { document := root } :=
  ⟨id, rfl, rfl, fun _ => rfl, fun _ => rfl⟩

section Reaches

variable {root : Value} {p : Pointer} (h : Reaches root p)

include h

/-- At a node that takes no members nothing has been changed. -/
theorem Reaches.of_leaf (hn : p.node.membersOf? = none) :
    findFrom p.path root = some p.node ∧ p.document = root := by
  cases hf : findFrom p.path root with
  | none =>
    have hnode := h.node
    rw [hf, Option.getD_none] at hnode
    rw [hnode] at hn
    cases hn
  | some y =>
    have hnode := h.node
    rw [hf, Option.getD_some] at hnode
    exact ⟨by rw [hnode], h.unchanged (by rw [hf]; exact Option.some_ne_none y)⟩

theorem Reaches.blocked_of_leaf (hn : p.node.membersOf? = none) (k : String) :
    Blocked (p.path ++ [k]) root :=
  (blocked_append _ _ _).mpr (Or.inr ⟨_, (h.of_leaf hn).1,
    blocked_of_membersOf?_eq_none hn (List.cons_ne_nil _ _)⟩)

variable {ms : Members} (hms : p.node.membersOf? = some ms)

include hms

/-- A node that takes members has those of the value at its place in the root. -/
theorem Reaches.membersOf?_getD : ((findFrom p.path root).getD .null).membersOf? = some ms := by
  have hnode := h.node
  cases hf : findFrom p.path root with
  | none =>
    rw [hf, Option.getD_none] at hnode
    rw [hnode] at hms
    exact hms
  | some y =>
    rw [hf, Option.getD_some] at hnode
    rwa [Option.getD_some, ← hnode]

theorem Reaches.not_blocked_snoc (k : String) : ¬ Blocked (p.path ++ [k]) root := by
  rw [blocked_append]
  rintro (hb | ⟨y, hy, hb⟩)
  · exact h.unblocked hb
  · have hm := h.membersOf?_getD hms
    rw [hy, Option.getD_some] at hm
    rcases (blocked_cons k [] y).mp hb with hb | ⟨z, -, hb⟩
    · cases hm.symm.trans hb
    · exact hb

theorem Reaches.plant_snoc (k : String) (y : Value) :
    plant (p.path ++ [k]) y root = plant p.path (.object (ms.put k y)) root := by
  rw [plant_append]
  simp only [plant, h.membersOf?_getD hms, Option.getD_some]

end Reaches

/-- **A turn of the loop goes on from a node that takes members.** -/
theorem Reaches.enter {root : Value} {p : Pointer} (h : Reaches root p) {ms : Members}
    (hms : p.node.membersOf? = some ms) (k : String) :
    ∃ p', p.enter k = some p' ∧ p'.path = p.path ++ [k] ∧ Reaches root p' := by
  have hb := h.not_blocked_snoc hms k
  have hroot : findFrom (p.path ++ [k]) root = ms.lookup k := by
    have hm := h.membersOf?_getD hms
    rw [findFrom_append]
    cases hf : findFrom p.path root with
    | none =>
      rw [hf] at hm
      cases hm
      rfl
    | some y =>
      rw [hf, Option.getD_some] at hm
      rw [Option.bind_some, findFrom, member?_of_membersOf? hm]
      exact Option.bind_fun_some _
  cases hl : ms.lookup k with
  | none =>
    refine ⟨⟨plant p.path (.object (ms.put k (.object []))) p.document, p.path ++ [k]⟩,
      by simp only [Pointer.enter, hms, hl]; rfl, rfl, ?_⟩
    rw [hl] at hroot
    refine .of_found (x := .object []) hb ?_ (by rw [hroot, Option.getD_none])
      (fun hne => absurd hroot hne) fun y => ?_
    · rw [findFrom_plant_append, findFrom, Value.member?, Members.lookup_put_self]
      rfl
    · rw [h.plant_snoc hms, plant_append, findFrom_plant_self, plant_plant, Option.getD_some,
        ← h.plants]
      simp only [plant, Option.getD_some, membersOf?_object, Members.put_put]
  | some c =>
    refine ⟨⟨p.document, p.path ++ [k]⟩, by simp only [Pointer.enter, hms, hl], rfl, ?_⟩
    rw [hl] at hroot
    have hne : findFrom p.path root ≠ none := by
      intro hn
      rw [findFrom_append, hn] at hroot
      cases hroot
    have hsame := h.unchanged hne
    refine .of_found (x := c) hb ?_ (by rw [hroot, Option.getD_some]) (fun _ => hsame) fun y => ?_
    · rw [hsame, hroot]
    · rw [hsame]

/-- **The loop throws on a blocked path, before it has changed anything**, and comes to the end of
another one. -/
theorem walk_cases {root : Value} {p : Pointer} (h : Reaches root p) (ks : List String) :
    (Blocked (p.path ++ ks) root ∧ walk ks p = .error root) ∨
      ∃ p', walk ks p = .ok p' ∧ p'.path = p.path ++ ks ∧ Reaches root p' := by
  induction ks generalizing p with
  | nil => exact Or.inr ⟨p, rfl, (List.append_nil _).symm, h⟩
  | cons k ks ih =>
    rw [List.append_cons]
    cases hms : p.node.membersOf? with
    | none =>
      refine Or.inl ⟨(blocked_append _ _ _).mpr (Or.inl (h.blocked_of_leaf hms k)), ?_⟩
      simp only [walk, Pointer.enter, hms, (h.of_leaf hms).2]
    | some ms =>
      obtain ⟨p', hp', hpath, h'⟩ := h.enter hms k
      rw [walk, hp', ← hpath]
      exact ih h'

/-! ## What the writes do -/

theorem segments_ne_nil {k : String} (hk : ∃ c ∈ k.toList, c ≠ '.') : segments k ≠ [] := by
  obtain ⟨c, hc, hdot⟩ := hk
  exact split_ne_nil hc (by simpa using hdot) []

/-- **`set` throws on a blocked path and has changed nothing then**, and plants the value under
another one. -/
theorem set_cases (root : Value) {k : String} (hk : segments k ≠ []) (v : Value) :
    (Blocked (segments k) root ∧ Document.set root k v = ⟨root, .thrown⟩) ∨
      (¬ Blocked (segments k) root ∧
        Document.set root k v = ⟨plant (segments k) v root, .returned⟩) := by
  obtain ⟨ks, last, hks⟩ : ∃ ks last, segments k = ks ++ [last] :=
    ⟨_, _, (List.dropLast_append_getLast hk).symm⟩
  have hset : Document.set root k v =
      match walk ks { document := root } with
      | .error document => { document, ending := .thrown }
      | .ok p =>
        match p.node.membersOf? with
        | none => { document := p.document, ending := .thrown }
        | some ms =>
          { document := (p.assign (.object (ms.put last v))).document, ending := .returned } := by
    simp only [Document.set, hks, List.getLast?_concat, List.dropLast_concat]
  rw [hset, hks]
  rcases walk_cases (reaches_root root) ks with ⟨hb, hw⟩ | ⟨p, hw, hpath, h⟩
  · exact Or.inl ⟨(blocked_append _ _ _).mpr (Or.inl hb), by rw [hw]⟩
  · rw [hw, ← List.nil_append ks, ← hpath]
    cases hms : p.node.membersOf? with
    | none => exact Or.inl ⟨h.blocked_of_leaf hms last, by simp only [hms, (h.of_leaf hms).2]⟩
    | some ms =>
      refine Or.inr ⟨h.not_blocked_snoc hms last, ?_⟩
      simp only [hms, Pointer.assign, h.plants, h.plant_snoc hms]

/-- `Message::set` as the other modules use it, which forgets the document of a write that fails. -/
theorem message_set_eq (root : Value) {k : String} (hk : segments k ≠ []) (v : Value) :
    Message.set ⟨root⟩ k v = match Document.set root k v with
      | ⟨document, .returned⟩ => .ok ⟨document⟩
      | _ => .error .notObject := by
  cases hms : root.membersOf? with
  | none =>
    rcases set_cases root hk v with ⟨-, hs⟩ | ⟨hb, -⟩
    · rw [hs]
      cases root <;> first | rfl | cases hms
    · exact absurd (blocked_of_membersOf?_eq_none hms hk) hb
  | some ms =>
    have hset : Message.set ⟨root⟩ k v = (Members.set ms k v).map ofMembers := by
      cases root <;> cases hms <;> rfl
    rw [hset]
    rcases set_cases root hk v with ⟨hb, hs⟩ | ⟨hb, hs⟩ <;>
      rcases set_eq hk v ms with ⟨hb', hs'⟩ | ⟨hb', ms', hs', hp⟩
    · rw [hs, hs']
      rfl
    · exact absurd ((blocked_object hms _).mp hb) hb'
    · exact absurd ((blocked_object hms _).mpr hb') hb
    · rw [hs, hs', plant_object hms hk, hp]
      rfl

theorem elements?_of_isEmpty {x : Value} (h : x.isEmpty = true) : x.elements? = some [] := by
  unfold Value.isEmpty at h
  split at h <;> first | rfl | cases h

theorem elements?_of_not_isEmpty {x : Value} (h : x.isEmpty = false) :
    (∃ xs, x = .array xs ∧ x.elements? = some xs) ∨
      (∀ xs, x ≠ .array xs) ∧ x.elements? = none := by
  cases x with
  | array xs => exact Or.inl ⟨xs, rfl, rfl⟩
  | object ms =>
    cases ms with
    | nil => cases h
    | cons m ms => exact Or.inr ⟨by simp, rfl⟩
  | null => cases h
  | int | real | string | bool => exact Or.inr ⟨by simp, rfl⟩

/-- The value that `append` finds. -/
def found (root : Value) (k : String) : Value := (findFrom (segments k) root).getD (.object [])

/-- **`append` throws on a blocked path, and at a value that does not count as an array, and has
changed nothing then.** Elsewhere it plants the longer array. -/
theorem append_cases (root : Value) (k : String) (v : Value) :
    ((Blocked (segments k) root ∨ (found root k).elements? = none) ∧
        Document.append root k v = ⟨root, .thrown⟩) ∨
      (¬ Blocked (segments k) root ∧ ∃ xs, (found root k).elements? = some xs ∧
        Document.append root k v =
          ⟨plant (segments k) (.array (xs ++ [v])) root, .returned⟩) := by
  rcases walk_cases (reaches_root root) (segments k) with ⟨hb, hw⟩ | ⟨p, hw, hpath, h⟩
  · exact Or.inl ⟨Or.inl hb, by rw [Document.append, hw]⟩
  rw [List.nil_append] at hpath
  have hnode : p.node = found root k := by rw [h.node, hpath, found]
  rw [Document.append, hw, ← hpath, ← hnode]
  cases he : p.node.isEmpty with
  | true =>
    refine Or.inr ⟨h.unblocked, [], elements?_of_isEmpty he, ?_⟩
    have hself : (p.assign (.array [])).node = .array [] := by
      simp only [Pointer.node, Pointer.assign, findFrom_plant_self, Option.getD_some]
    simp only [he, if_true, hself]
    simp only [Pointer.assign, plant_plant, h.plants]
  | false =>
    simp only [he, Bool.false_eq_true, if_false]
    rcases elements?_of_not_isEmpty he with ⟨xs, hx, hxs⟩ | ⟨hx, hnone⟩
    · refine Or.inr ⟨h.unblocked, xs, hxs, ?_⟩
      simp only [hx, Pointer.assign, h.plants]
    · refine Or.inl ⟨Or.inr hnone, ?_⟩
      have hsame : p.document = root := by
        refine h.unchanged fun hn => ?_
        rw [h.node, hn] at hnone
        cases hnone
      simp only [hsame]

/-! ## What is found afterwards -/

/-- What is read under keys that lie neither above nor below `k` is the same in both documents. -/
def Unaffected (root document : Value) (k : String) : Prop :=
  ∀ k', Apart (segments k') (segments k) →
    (⟨document⟩ : Message).hasKey k' = (⟨root⟩ : Message).hasKey k' ∧
      (⟨document⟩ : Message).getRawValue k' = (⟨root⟩ : Message).getRawValue k'

/-- A value above the end of the path of `k`, or the root, is an array or a scalar. -/
def MeetsLeaf (root : Value) (k : String) : Prop :=
  ∃ p y, p <+: segments k ∧ p ≠ segments k ∧ findFrom p root = some y ∧
    (y.isArray = true ∨ y.isScalar = true)

/-- A write of `v` under `k` throws exactly when it meets an array or a scalar on its way, and
changes nothing then. Otherwise `v` is found under `k`, and other keys read what they did. -/
structure SetOutcome (root : Value) (k : String) (v : Value) (w : Written) : Prop where
  outcome : w.ending = .thrown ∧ w.document = root ∨
    w.ending = .returned ∧ (⟨w.document⟩ : Message).getRawValue k = v ∧
      Unaffected root w.document k
  thrown_iff : w.ending = .thrown ↔ MeetsLeaf root k

/-- An appending of `v` under `k` throws exactly when it meets an array or a scalar on its way, or a
scalar or an object with members at its end, and changes nothing then. Otherwise the array under `k`
is longer by `v`, and other keys read what they did. -/
structure AppendOutcome (root : Value) (k : String) (v : Value) (w : Written) : Prop where
  outcome : w.ending = .thrown ∧ w.document = root ∨
    w.ending = .returned ∧
      (∃ xs, ((⟨root⟩ : Message).getRawValue k).elements? = some xs ∧
        (⟨w.document⟩ : Message).getRawValue k = .array (xs ++ [v])) ∧
      Unaffected root w.document k
  thrown_iff : w.ending = .thrown ↔ MeetsLeaf root k ∨
    ((⟨root⟩ : Message).getRawValue k).isScalar = true ∨
    ((⟨root⟩ : Message).getRawValue k).isFilled = true

theorem membersOf?_eq_none_iff (y : Value) :
    y.membersOf? = none ↔ y.isArray = true ∨ y.isScalar = true := by
  cases y <;> simp [Value.membersOf?, Value.isArray, Value.isScalar]

theorem elements?_eq_none_iff (y : Value) :
    y.elements? = none ↔ y.isScalar = true ∨ y.isFilled = true := by
  cases y with
  | object ms => cases ms <;> simp [Value.elements?, Value.isScalar, Value.isFilled]
  | _ => simp [Value.elements?, Value.isScalar, Value.isFilled]

theorem blocked_iff_meetsLeaf (root : Value) (k : String) :
    Blocked (segments k) root ↔ MeetsLeaf root k := by
  simp only [blocked_iff, membersOf?_eq_none_iff, MeetsLeaf]

/-- A key with a segment is looked up from the root on. -/
theorem find_eq_findFrom (root : Value) {k : String} (hk : segments k ≠ []) :
    (⟨root⟩ : Message).find k = findFrom (segments k) root := by
  rw [find]
  split_ifs with ha
  · refine (findFrom_leaf ?_ hk).symm
    exact (membersOf?_eq_none_iff root).mpr (Or.inl ha)
  · rfl

theorem elements?_found {root : Value} {k : String} (hk : segments k ≠ []) :
    (found root k).elements? = ((⟨root⟩ : Message).getRawValue k).elements? := by
  rw [found, getRawValue, find_eq_findFrom root hk]
  cases findFrom (segments k) root <;> rfl

theorem getRawValue_plant (root : Value) {k : String} (hk : segments k ≠ []) (y : Value) :
    (⟨plant (segments k) y root⟩ : Message).getRawValue k = y := by
  rw [getRawValue, find_eq_findFrom _ hk, findFrom_plant_self, Option.getD_some]

theorem unaffected_plant {root : Value} {k : String} (hb : ¬ Blocked (segments k) root)
    (y : Value) : Unaffected root (plant (segments k) y root) k := by
  intro k' hapart
  have hk' : segments k' ≠ [] := by
    intro hnil
    exact hapart.1 (by rw [hnil]; exact List.nil_prefix)
  have hfind : (⟨plant (segments k) y root⟩ : Message).find k' = (⟨root⟩ : Message).find k' := by
    rw [find_eq_findFrom _ hk', find_eq_findFrom _ hk', findFrom_plant_apart hapart y hb]
  exact ⟨by rw [hasKey, hfind, hasKey], by rw [getRawValue, hfind, getRawValue]⟩

section Outcomes

variable (root : Value) {k : String} (v : Value) (hk : ∃ c ∈ k.toList, c ≠ '.')

include hk

/-- **`set` is a well-behaved update of every document.** -/
theorem set_outcome : SetOutcome root k v (Document.set root k v) := by
  have hs := segments_ne_nil hk
  rcases set_cases root hs v with ⟨hb, h⟩ | ⟨hb, h⟩
  · rw [h]
    exact ⟨Or.inl ⟨rfl, rfl⟩, iff_of_true rfl ((blocked_iff_meetsLeaf root k).mp hb)⟩
  · rw [h]
    refine ⟨Or.inr ⟨rfl, getRawValue_plant root hs v, unaffected_plant hb v⟩, ?_⟩
    exact iff_of_false (by simp) fun hm => hb ((blocked_iff_meetsLeaf root k).mpr hm)

/-- **`append` extends one array of every document.** -/
theorem append_outcome : AppendOutcome root k v (Document.append root k v) := by
  have hs := segments_ne_nil hk
  have hiff : (Blocked (segments k) root ∨ (found root k).elements? = none) ↔
      MeetsLeaf root k ∨ ((⟨root⟩ : Message).getRawValue k).isScalar = true ∨
        ((⟨root⟩ : Message).getRawValue k).isFilled = true := by
    rw [elements?_found hs, elements?_eq_none_iff, blocked_iff_meetsLeaf]
  rcases append_cases root k v with ⟨hb, h⟩ | ⟨hb, xs, hxs, h⟩
  · rw [h]
    exact ⟨Or.inl ⟨rfl, rfl⟩, iff_of_true rfl (hiff.mp hb)⟩
  · rw [h]
    refine ⟨Or.inr ⟨rfl, ⟨xs, elements?_found hs ▸ hxs, getRawValue_plant root hs _⟩,
      unaffected_plant hb _⟩, ?_⟩
    refine iff_of_false (by simp) fun hm => ?_
    rcases hiff.mpr hm with hb' | hnone
    · exact hb hb'
    · rw [hxs] at hnone
      cases hnone

end Outcomes

section Sample

/-- A null becomes an object. -/
theorem set_outcome_null : SetOutcome (.object [("a", .null)]) "a.b" (.int 1)
    (Document.set (.object [("a", .null)]) "a.b" (.int 1)) :=
  set_outcome _ _ ⟨'a', by decide, by decide⟩

theorem append_outcome_array : AppendOutcome (.object [("a", .array [.int 1])]) "a" (.int 2)
    (Document.append (.object [("a", .array [.int 1])]) "a" (.int 2)) :=
  append_outcome _ _ ⟨'a', by decide, by decide⟩

end Sample

end NixSrv
