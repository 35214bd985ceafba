import NixSrv.Document

/-!
# Removal from a document

`Message::remove` goes down into the document with the loop of `set`, which makes the members it
misses.

* `Members.removeMember`, `Pointer.removeMember`, `Document.remove`: the code;
* `RemoveCase`, **`remove_cases`**: what it does;
* `OnlyRemoves`, **`onlyRemoves_iff`**: when it does nothing but remove.
-/

namespace NixSrv

open Json Message Util

/-- `removeMember(k)` on an object. -/
def Json.Members.removeMember (k : String) (ms : Members) : Members := ms.filter fun m => m.1 ≠ k

/-- `ptr->removeMember(k)`; `none` when it throws. -/
def Pointer.removeMember (k : String) (p : Pointer) : Option Pointer :=
  match p.node.membersOf? with
  | none => none
  | some ms =>
    match ms.lookup k with
    | none => some p
    | some _ => some (p.assign (.object (ms.removeMember k)))

/-- `Message::remove` on the document `root`. -/
def Document.remove (root : Value) (k : String) : Written :=
  let keys := segments k
  match keys.getLast? with
  -- `keys.end() - 1` lies before the start of the vector
  | none => { document := root, ending := .undefined }
  | some last =>
    match walk keys.dropLast { document := root } with
    | .error document => { document, ending := .thrown }
    | .ok p =>
      match p.removeMember last with
      | none => { document := p.document, ending := .thrown }
      | some p => { document := p.document, ending := .returned }

/-! ## What is found -/

theorem not_blocked_of_found {ks : List String} {x y : Value} (h : findFrom ks x = some y) :
    ¬ Blocked ks x := by
  rw [blocked_iff]
  rintro ⟨p, z, ⟨q, rfl⟩, hne, hf, hz⟩
  have hq : q ≠ [] := by
    rintro rfl
    exact hne (List.append_nil p).symm
  rw [findFrom_append, hf, Option.bind_some, findFrom_leaf hz hq] at h
  cases h

theorem isSome_findFrom_of_prefix {p ks : List String} {x : Value} (hp : p <+: ks)
    (h : (findFrom ks x).isSome) : (findFrom p x).isSome := by
  obtain ⟨q, rfl⟩ := hp
  rw [findFrom_append] at h
  exact Option.isSome_of_isSome_bind h

theorem isArray_of_not_blocked {ks : List String} (hk : ks ≠ []) {x : Value}
    (h : ¬ Blocked ks x) : x.isArray = false := by
  cases x with
  | array xs => exact absurd (blocked_of_membersOf?_eq_none rfl hk) h
  | _ => rfl

theorem hasKey_eq {root : Value} (h : root.isArray = false) (k : String) :
    (⟨root⟩ : Message).hasKey k = (findFrom (segments k) root).isSome := by
  rw [hasKey, find, if_neg (by rw [h]; exact Bool.false_ne_true)]

theorem lookup_removeMember (k k' : String) (ms : Members) :
    (ms.removeMember k).lookup k' = if k' = k then none else ms.lookup k' := by
  split_ifs with h
  · rw [h]
    exact Members.lookup_filter_self k ms
  · exact Members.lookup_filter_ne h ms

/-- What is found below a value whose member was removed. -/
theorem findFrom_object_removeMember {last : String} {p : List String} (h : ¬ [last] <+: p)
    {y : Value} {ms : Members} (hms : y.membersOf? = some ms) :
    (findFrom p (.object (ms.removeMember last))).isSome = (findFrom p y).isSome := by
  cases p with
  | nil => rfl
  | cons k p =>
    have hk : k ≠ last := by
      rintro rfl
      exact h (List.cons_prefix_cons.mpr ⟨rfl, List.nil_prefix⟩)
    rw [findFrom, findFrom, Value.member?, lookup_removeMember, if_neg hk,
      member?_of_membersOf? hms]

/-- **What is found in a document with a member removed**, under all paths that do not go through
it. -/
theorem isSome_findFrom_removed {root y : Value} {ks : List String} {last : String} {ms : Members}
    (hf : findFrom ks root = some y) (hms : y.membersOf? = some ms) {p : List String}
    (hp : ¬ ks ++ [last] <+: p) :
    (findFrom p (plant ks (.object (ms.removeMember last)) root)).isSome =
      (findFrom p root).isSome := by
  by_cases hbelow : ks <+: p
  · obtain ⟨q, rfl⟩ := hbelow
    rw [findFrom_plant_append, findFrom_append, hf, Option.bind_some]
    refine findFrom_object_removeMember (fun hq => hp ?_) hms
    exact (List.prefix_append_right_inj ks).mpr hq
  by_cases habove : p <+: ks
  · have hbefore := isSome_findFrom_of_prefix habove (x := root) (by rw [hf]; rfl)
    have hafter := isSome_findFrom_of_prefix habove
      (x := plant ks (.object (ms.removeMember last)) root) (by rw [findFrom_plant_self]; rfl)
    rw [hbefore, hafter]
  · rw [findFrom_plant_apart ⟨habove, hbelow⟩ _ (not_blocked_of_found hf)]

/-! ## What the removal does -/

/-- What a removal under the segments `ks ++ [last]` can come to. -/
inductive RemoveCase (root : Value) (ks : List String) (last : String) : Written → Prop
  | blocked (hb : Blocked (ks ++ [last]) root) : RemoveCase root ks last ⟨root, .thrown⟩
  | absent {y : Value} {ms : Members} (hf : findFrom ks root = some y)
      (hms : y.membersOf? = some ms) (hl : ms.lookup last = none) :
      RemoveCase root ks last ⟨root, .returned⟩
  | removed {x y : Value} {ms : Members} (hf : findFrom ks root = some y)
      (hms : y.membersOf? = some ms) (hl : ms.lookup last = some x) :
      RemoveCase root ks last ⟨plant ks (.object (ms.removeMember last)) root, .returned⟩
  /-- The members on the way are made. -/
  | made {document : Value} (hb : ¬ Blocked (ks ++ [last]) root) (hn : findFrom ks root = none)
      (hf : findFrom ks document = some (.object [])) :
      RemoveCase root ks last ⟨document, .returned⟩

/-- **What `remove` does.** -/
theorem remove_cases (root : Value) {k last : String} {ks : List String}
    (hk : segments k = ks ++ [last]) : RemoveCase root ks last (Document.remove root k) := by
  have hremove : Document.remove root k =
      match walk ks { document := root } with
      | .error document => { document, ending := .thrown }
      | .ok p =>
        match p.removeMember last with
        | none => { document := p.document, ending := .thrown }
        | some p => { document := p.document, ending := .returned } := by
    simp only [Document.remove, hk, List.getLast?_concat, List.dropLast_concat]
  rw [hremove]
  rcases walk_cases (reaches_root root) ks with ⟨hb, hw⟩ | ⟨p, hw, hpath, h⟩
  · rw [hw]
    exact .blocked ((blocked_append _ _ _).mpr (Or.inl hb))
  obtain rfl : p.path = ks := hpath
  rw [hw]
  cases hms : p.node.membersOf? with
  | none =>
    simp only [Pointer.removeMember, hms, (h.of_leaf hms).2]
    exact .blocked (h.blocked_of_leaf hms last)
  | some ms =>
    cases hf : findFrom p.path root with
    | none =>
      have hnode : p.node = .object [] := by rw [h.node, hf, Option.getD_none]
      have hms' := hms
      rw [hnode] at hms'
      cases hms'
      simp only [Pointer.removeMember, hms, List.lookup_nil]
      exact .made (h.not_blocked_snoc hms last) hf (by rw [h.found, hnode])
    | some y =>
      have hnode : p.node = y := by rw [h.node, hf, Option.getD_some]
      have hroot : p.document = root := h.unchanged (by rw [hf]; exact Option.some_ne_none y)
      rw [hnode] at hms
      cases hl : ms.lookup last with
      | none =>
        simp only [Pointer.removeMember, hnode, hms, hl, hroot]
        exact .absent hf hms hl
      | some x =>
        simp only [Pointer.removeMember, hnode, hms, hl, Pointer.assign, hroot]
        exact .removed hf hms hl

/-- Removing a member that is not there changes nothing. -/
theorem remove_of_absent {root y : Value} {k last : String} {ks : List String} {ms : Members}
    (hk : segments k = ks ++ [last]) (hf : findFrom ks root = some y)
    (hms : y.membersOf? = some ms) (hl : ms.lookup last = none) :
    Document.remove root k = ⟨root, .returned⟩ := by
  generalize hw : Document.remove root k = w
  cases hw ▸ remove_cases root hk with
  | blocked hb =>
    rcases (blocked_append _ _ _).mp hb with hb | ⟨z, hz, hb⟩
    · exact absurd hb (not_blocked_of_found hf)
    · rw [hf] at hz
      cases hz
      rcases (blocked_cons _ _ _).mp hb with hb | ⟨z, -, hb⟩
      · rw [hms] at hb
        cases hb
      · exact hb.elim
  | absent => rfl
  | removed hf' hms' hl' =>
    rw [hf] at hf'
    cases hf'
    rw [hms] at hms'
    cases hms'
    rw [hl] at hl'
    cases hl'
  | made _ hn _ =>
    rw [hf] at hn
    cases hn

/-! ## When a removal only removes -/

/-- A removal under `k` throws and changes nothing, or `k` is not there any more, and every key that
does not extend `k` is there as before. A removal of a key that is not there changes nothing, and
neither does a second removal. -/
structure OnlyRemoves (root : Value) (k : String) : Prop where
  outcome : (Document.remove root k).ending = .thrown ∧ (Document.remove root k).document = root ∨
    (Document.remove root k).ending = .returned ∧
      (⟨(Document.remove root k).document⟩ : Message).hasKey k = false ∧
      ∀ k', ¬ segments k <+: segments k' →
        (⟨(Document.remove root k).document⟩ : Message).hasKey k' = (⟨root⟩ : Message).hasKey k'
  absent : (⟨root⟩ : Message).hasKey k = false → (Document.remove root k).document = root
  idempotent : Document.remove (Document.remove root k).document k = Document.remove root k

/-- There is a value where the path of `k` without its last segment leads. -/
def ParentFound (root : Value) (k : String) : Prop :=
  (findFrom (segments k).dropLast root).isSome

section Removals

variable {root x y : Value} {k last : String} {ks : List String} {ms : Members}

theorem onlyRemoves_of_blocked (h : Document.remove root k = ⟨root, .thrown⟩) :
    OnlyRemoves root k :=
  ⟨Or.inl (by rw [h]; exact ⟨rfl, rfl⟩), fun _ => by rw [h], by simp only [h]⟩

variable (hk : segments k = ks ++ [last]) (hf : findFrom ks root = some y)
  (hms : y.membersOf? = some ms)

include hf hms in
theorem findFrom_snoc : findFrom (ks ++ [last]) root = ms.lookup last := by
  rw [findFrom_append, hf, Option.bind_some, findFrom, member?_of_membersOf? hms]
  exact Option.bind_fun_some _

include hf hms in
theorem isArray_of_found : root.isArray = false := by
  cases ks with
  | nil =>
    cases hf
    cases root <;> first | rfl | cases hms
  | cons k ks => exact isArray_of_not_blocked (List.cons_ne_nil k ks) (not_blocked_of_found hf)

include hk hf hms

theorem onlyRemoves_of_absent (hl : ms.lookup last = none) : OnlyRemoves root k := by
  have h := remove_of_absent hk hf hms hl
  have hkey : (⟨root⟩ : Message).hasKey k = false := by
    rw [hasKey_eq (isArray_of_found hf hms), hk, findFrom_snoc hf hms, hl]
    rfl
  exact ⟨Or.inr (by rw [h]; exact ⟨rfl, hkey, fun _ _ => rfl⟩), fun _ => by rw [h],
    by simp only [h]⟩

theorem onlyRemoves_of_removed (hl : ms.lookup last = some x)
    (h : Document.remove root k =
      ⟨plant ks (.object (ms.removeMember last)) root, .returned⟩) : OnlyRemoves root k := by
  have hroot := isArray_of_found hf hms
  have hfound := findFrom_plant_self ks (.object (ms.removeMember last)) root
  have harray := isArray_of_found hfound (membersOf?_object _)
  have hgone : (ms.removeMember last).lookup last = none := by
    rw [lookup_removeMember, if_pos rfl]
  refine ⟨Or.inr ?_, fun hkey => ?_, ?_⟩
  · rw [h]
    refine ⟨rfl, ?_, fun k' hk' => ?_⟩
    · rw [hasKey_eq harray, hk, findFrom_snoc hfound (membersOf?_object _), hgone]
      rfl
    · rw [hk] at hk'
      rw [hasKey_eq harray, hasKey_eq hroot, isSome_findFrom_removed hf hms hk']
  · rw [hasKey_eq hroot, hk, findFrom_snoc hf hms, hl] at hkey
    cases hkey
  · rw [h]
    exact remove_of_absent hk hfound (membersOf?_object _) hgone

omit hf hms in
/-- Where the members on the way are made, the last of them is a key that was not there. -/
theorem not_onlyRemoves_of_made (hb : ¬ Blocked (ks ++ [last]) root)
    (hn : findFrom ks root = none) {document : Value}
    (hf : findFrom ks document = some (.object []))
    (h : Document.remove root k = ⟨document, .returned⟩) : ¬ OnlyRemoves root k := by
  obtain ⟨k', hk'⟩ : ∃ k', segments k' = ks := by
    refine exists_segments fun s hs => mem_segments (k := k) ?_
    rw [hk]
    exact List.mem_append_left _ hs
  have hroot : root.isArray = false := isArray_of_not_blocked (by simp) hb
  have hshort : ¬ segments k <+: segments k' := by
    rw [hk, hk']
    intro hp
    have hle := hp.length_le
    rw [List.length_append, List.length_singleton] at hle
    omega
  rintro ⟨⟨ht, -⟩ | ⟨-, -, hsame⟩, -, -⟩
  · rw [h] at ht
    cases ht
  · have hkey := hsame k' hshort
    rw [h, hasKey_eq hroot, hasKey_eq (isArray_of_found hf (membersOf?_object _)), hk', hf, hn]
      at hkey
    cases hkey

end Removals

/-- **A removal only removes exactly when the value above the end of its path is there, or an array
or a scalar stops it.** -/
theorem onlyRemoves_iff (root : Value) {k : String} (hk : ∃ c ∈ k.toList, c ≠ '.') :
    OnlyRemoves root k ↔ ParentFound root k ∨ MeetsLeaf root k := by
  obtain ⟨ks, last, hks⟩ : ∃ ks last, segments k = ks ++ [last] :=
    ⟨_, _, (List.dropLast_append_getLast (segments_ne_nil hk)).symm⟩
  have hparent : ParentFound root k ↔ (findFrom ks root).isSome := by
    rw [ParentFound, hks, List.dropLast_concat]
  rw [hparent, ← blocked_iff_meetsLeaf, hks]
  generalize hw : Document.remove root k = w
  cases hw ▸ remove_cases root hks with
  | blocked hb => exact iff_of_true (onlyRemoves_of_blocked hw) (Or.inr hb)
  | absent hf hms hl =>
    exact iff_of_true (onlyRemoves_of_absent hks hf hms hl) (Or.inl (by rw [hf]; rfl))
  | removed hf hms hl =>
    exact iff_of_true (onlyRemoves_of_removed hks hf hms hl hw) (Or.inl (by rw [hf]; rfl))
  | made hb hn hf =>
    refine iff_of_false (not_onlyRemoves_of_made hks hb hn hf hw) ?_
    rintro (hs | hb')
    · rw [hn] at hs
      cases hs
    · exact hb hb'

section Sample

theorem onlyRemoves_null : OnlyRemoves (.object [("a", .null)]) "a.b" :=
  (onlyRemoves_iff _ ⟨'a', by decide, by decide⟩).mpr (Or.inl (by unfold ParentFound; decide))

/-- The removal of `a.b` makes `a`. -/
theorem not_onlyRemoves_empty :
    (Document.remove (.object []) "a.b").ending = .returned ∧
      (⟨.object []⟩ : Message).hasKey "a" = false ∧
      (⟨(Document.remove (.object []) "a.b").document⟩ : Message).hasKey "a" = true ∧
      ¬ OnlyRemoves (.object []) "a.b" := by
  have hafter : (⟨(Document.remove (.object []) "a.b").document⟩ : Message).hasKey "a" = true := by
    decide
  refine ⟨by decide, by decide, hafter, ?_⟩
  rintro ⟨⟨ht, -⟩ | ⟨-, -, hsame⟩, -, -⟩
  · revert ht
    decide
  · have hkey := hsame "a" (by decide)
    rw [hafter] at hkey
    revert hkey
    decide

end Sample

end NixSrv
