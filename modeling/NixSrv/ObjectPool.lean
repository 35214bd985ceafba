import Mathlib.Data.Fintype.Card
import NixSrv.Lib.Condvar
import NixSrv.Lib.Transition

/-!
# The object pool

`nix::ObjectPool` under `D` threads, each with a pointer of its own that it passes to `acquire` and
resets to release. A control block is a number, and its owners are the pointers with that number.

* `SharedPtr`, `ObjectPool`, `useCount`, `unique`: pointers, the state and ownership;
* `ObjectPool.step`, `ObjectPool.system`: the code of `acquire` and of a release, and runs;
* `PtrCase`, **`ptr_cases`**: what a step does to the pointers;
* `Shape`, **`find_unique`**: the entries of the pool keep their blocks, so the first one is taken;
* `Exclusive`, **`exclusive_iff`**: when acquired objects are held exclusively.
-/

namespace NixSrv

open Transition

/-- A `std::shared_ptr` that is not null. -/
structure SharedPtr where
  object : ℕ
  /-- The control block. -/
  block : ℕ
  deriving DecidableEq

namespace ObjectPool

/-- Where a thread is. The reset of its pointer is part of a call of `acquire` with a timeout or of
a release. -/
inductive Pc where
  | out
  | reset (acquire : Option ℤ)
  /-- The control block is gone, and its deleter is about to call `notify_all`. -/
  | notify (acquire : Option ℤ)
  /-- Before the pass over the pool. -/
  | scan (timeout : ℤ)
  /-- The pass has found nothing, and the mutex is held. -/
  | scanned (timeout : ℤ)
  | waiting (timeout : ℤ)
  | acquired (success : Bool)
  deriving DecidableEq

namespace Pc

/-- The thread is in no call. -/
def returned : Pc → Bool
  | out | acquired _ => true
  | _ => false

/-- Where a thread that waits goes on when it is notified. -/
def wake : Pc → Option Pc
  | waiting timeout => some (scan timeout)
  | _ => none

/-- Where the code goes on after the reset of the pointer. -/
def afterReset : Option ℤ → Pc
  | some timeout => scan timeout
  | none => out

end Pc

inductive Event (D : ℕ) where
  /-- A thread calls `acquire` with a timeout, or releases its pointer. -/
  | call (t : Fin D) (acquire : Option ℤ)
  | run (t : Fin D)
  /-- The wait of a thread times out. -/
  | expire (t : Fin D)
  /-- A thread wakes up without being notified. -/
  | spurious (t : Fin D)

end ObjectPool

open ObjectPool in
/-- A pool and the threads that use it. -/
structure ObjectPool (D : ℕ) where
  pool : List SharedPtr
  /-- The number of the next control block. -/
  nextBlock : ℕ
  owner : Option (Fin D) := none
  /-- The pointer of each thread. -/
  ptrs : Fin D → Option SharedPtr
  threads : Fin D → Pc

namespace ObjectPool

variable {D : ℕ} (s : ObjectPool D)

/-- `ObjectPool(size)`, with no thread in a call. Its objects are numbered. -/
def new (D size : ℕ) : ObjectPool D where
  pool := (List.range size).map fun i => ⟨i, i⟩
  nextBlock := size
  ptrs _ := none
  threads _ := .out

/-- The number of owners of a control block. -/
def useCount (block : ℕ) : ℕ :=
  (s.pool.map SharedPtr.block).count block +
    (Finset.univ.filter fun t => (s.ptrs t).any (·.block = block)).card

/-- `shared_ptr::unique`. -/
def unique (it : SharedPtr) : Bool := s.useCount it.block = 1

/-- Thread `t` goes to `pc`. -/
def goto (t : Fin D) (pc : Pc) : ObjectPool D :=
  { s with threads := Function.update s.threads t pc }

/-- The pointer of thread `t` becomes `ptr`. -/
def assign (t : Fin D) (ptr : Option SharedPtr) : ObjectPool D :=
  { s with ptrs := Function.update s.ptrs t ptr }

/-- One step of a thread. -/
def step (t : Fin D) : Option (ObjectPool D) :=
  match s.threads t with
  | .reset acquire =>
    match s.ptrs t with
    | none => some (s.goto t (.afterReset acquire))
    | some ptr =>
      let s := s.assign t none
      -- the deleter runs when the last owner of a control block goes
      some (s.goto t (if s.useCount ptr.block = 0 then .notify acquire else .afterReset acquire))
  | .notify acquire => some { s with
      threads := Function.update (Condvar.notifyAll Pc.wake s.threads) t (.afterReset acquire) }
  | .scan timeout =>
    if s.owner = none then
      match s.pool.find? s.unique with
      | some it => some (ObjectPool.goto
          { s.assign t (some ⟨it.object, s.nextBlock⟩) with nextBlock := s.nextBlock + 1 } t
          (.acquired true))
      | none => some (ObjectPool.goto { s with owner := some t } t (.scanned timeout))
    else none
  | .scanned timeout => some (ObjectPool.goto { s with owner := none } t (.waiting timeout))
  | .out | .waiting _ | .acquired _ => none

def next : Event D → Option (ObjectPool D)
  | .call t acquire => if (s.threads t).returned then some (s.goto t (.reset acquire)) else none
  | .run t => s.step t
  | .expire t =>
    match s.threads t with
    | .waiting timeout =>
      if timeout ≠ -1 ∧ s.owner = none then some (s.goto t (.acquired false)) else none
    | _ => none
  | .spurious t =>
    match s.threads t with
    | .waiting timeout => some (s.goto t (.scan timeout))
    | _ => none

/-- **A pool of the given size under `D` threads**, whose steps are interleaved in any way. -/
def system (D size : ℕ) : System (ObjectPool D) (Event D) := .ofNext (new D size) next

/-- A step of a run. -/
abbrev Move (D : ℕ) := Transition.Move (ObjectPool D) (Event D)

/-- The thread that passes over the pool in a step. -/
def scanner (m : Move D) : Option (Fin D) :=
  match m.event with
  | .run t =>
    match m.pre.threads t with
    | .scan _ => some t
    | _ => none
  | _ => none

/-! ## Exclusive use -/

/-- No thread holds the object. -/
def NoHolder (o : ℕ) : Prop := ∀ t ptr, s.ptrs t = some ptr → ptr.object ≠ o

/-- The number of acquired pointers. -/
def outstanding : ℕ := (Finset.univ.filter fun t => (s.ptrs t).isSome).card

/-- What exclusive use of the `size` objects asks of a step. -/
structure Exclusive (size : ℕ) (m : Move D) : Prop where
  one_holder : ∀ t u ptr ptr', m.post.ptrs t = some ptr → m.post.ptrs u = some ptr' →
    ptr.object = ptr'.object → t = u
  bounded : m.post.outstanding ≤ size
  /-- A pass over the pool finds an object exactly when one has no holder. -/
  succeeds : ∀ t, scanner m = some t →
    ((m.post.ptrs t).isSome = true ↔ ∃ o < size, m.pre.NoHolder o)
  released : ∀ t ptr, m.pre.ptrs t = some ptr → m.post.ptrs t = none →
    m.post.NoHolder ptr.object

/-- A pass over a pool that is not empty is made when no acquired pointer is outstanding. -/
def ScansFree (size : ℕ) (m : Move D) : Prop :=
  scanner m ≠ none → 0 < size → ∀ u, m.pre.ptrs u = none

instance (size : ℕ) (m : Move D) : Decidable (ScansFree size m) := by
  unfold ScansFree; infer_instance

/-! ## What a step does -/

inductive StepCase (s : ObjectPool D) : Event D → ObjectPool D → Prop
  | called (t : Fin D) (acquire : Option ℤ) (hp : (s.threads t).returned = true) :
      StepCase s (.call t acquire) (s.goto t (.reset acquire))
  | resetNull (t : Fin D) (acquire : Option ℤ) (hp : s.threads t = .reset acquire)
      (hn : s.ptrs t = none) : StepCase s (.run t) (s.goto t (.afterReset acquire))
  | reset (t : Fin D) (acquire : Option ℤ) (ptr : SharedPtr) (pc : Pc)
      (hp : s.threads t = .reset acquire) (hs : s.ptrs t = some ptr) :
      StepCase s (.run t) ((s.assign t none).goto t pc)
  | notified (t : Fin D) (acquire : Option ℤ) (hp : s.threads t = .notify acquire) :
      StepCase s (.run t) { s with
        threads := Function.update (Condvar.notifyAll Pc.wake s.threads) t (.afterReset acquire) }
  | found (t : Fin D) (timeout : ℤ) (it : SharedPtr) (hp : s.threads t = .scan timeout)
      (hf : s.pool.find? s.unique = some it) : StepCase s (.run t) (ObjectPool.goto
        { s.assign t (some ⟨it.object, s.nextBlock⟩) with nextBlock := s.nextBlock + 1 } t
        (.acquired true))
  | missed (t : Fin D) (timeout : ℤ) (hp : s.threads t = .scan timeout)
      (hf : s.pool.find? s.unique = none) :
      StepCase s (.run t) (ObjectPool.goto { s with owner := some t } t (.scanned timeout))
  | waited (t : Fin D) (timeout : ℤ) (hp : s.threads t = .scanned timeout) :
      StepCase s (.run t) (ObjectPool.goto { s with owner := none } t (.waiting timeout))
  | expired (t : Fin D) (timeout : ℤ) (hp : s.threads t = .waiting timeout) :
      StepCase s (.expire t) (s.goto t (.acquired false))
  | woke (t : Fin D) (timeout : ℤ) (hp : s.threads t = .waiting timeout) :
      StepCase s (.spurious t) (s.goto t (.scan timeout))

variable {s} {n : ℕ} {s' : ObjectPool D} {e : Event D}

theorem step_cases (h : (system D n).step s e s') : StepCase s e s' := by
  change s.next e = some s' at h
  cases e with
  | call t acquire =>
    simp only [next] at h
    split_ifs at h with hp
    cases h
    exact .called t acquire hp
  | expire t =>
    simp only [next] at h
    split at h
    · rename_i timeout hp
      split_ifs at h
      cases h
      exact .expired t timeout hp
    · cases h
  | spurious t =>
    simp only [next] at h
    split at h
    · rename_i timeout hp
      cases h
      exact .woke t timeout hp
    · cases h
  | run t =>
    simp only [next, step] at h
    cases hp : s.threads t with
    | reset acquire =>
      simp only [hp] at h
      cases hs : s.ptrs t with
      | none =>
        simp only [hs] at h
        cases h
        exact .resetNull t acquire hp hs
      | some ptr =>
        simp only [hs] at h
        cases h
        exact .reset t acquire ptr _ hp hs
    | notify acquire =>
      simp only [hp] at h
      cases h
      exact .notified t acquire hp
    | scan timeout =>
      simp only [hp] at h
      split_ifs at h with ho
      cases hf : s.pool.find? s.unique with
      | none =>
        simp only [hf] at h
        cases h
        exact .missed t timeout hp hf
      | some it =>
        simp only [hf] at h
        cases h
        exact .found t timeout it hp hf
    | scanned timeout =>
      simp only [hp] at h
      cases h
      exact .waited t timeout hp
    | out | waiting | acquired =>
      simp only [hp] at h
      cases h

/-! ## The entries of the pool -/

/-- The pointer of the thread has been reset in this call. -/
def Pc.emptied : Pc → Bool
  | notify _ | scan _ | scanned _ | waiting _ => true
  | _ => false

/-- The entries keep the blocks they were made with, and acquired pointers have others. -/
structure Shape (size : ℕ) (s : ObjectPool D) : Prop where
  pool : s.pool = (List.range size).map fun i => ⟨i, i⟩
  nextBlock : size ≤ s.nextBlock
  /-- Every acquired pointer leads to the first object. -/
  ptrs : ∀ t ptr, s.ptrs t = some ptr → ptr.object = 0 ∧ 0 < size ∧ size ≤ ptr.block
  emptied : ∀ t, (s.threads t).emptied = true → s.ptrs t = none

theorem Shape.unique (h : Shape n s) {i : ℕ} (hi : i < n) : s.unique ⟨i, i⟩ = true := by
  have hpool : (s.pool.map SharedPtr.block).count i = 1 := by
    rw [h.pool, List.map_map]
    exact List.count_eq_one_of_mem (by simpa [Function.comp_def] using List.nodup_range)
      (by simpa using hi)
  have hptrs : (Finset.univ.filter fun t => (s.ptrs t).any (·.block = i)) = ∅ := by
    rw [Finset.filter_eq_empty_iff]
    intro t _ ht
    obtain ⟨ptr, hptr, hb⟩ := (Option.any_eq_true _ _).mp ht
    have hge := (h.ptrs t ptr hptr).2.2
    have hi' : ptr.block = i := by simpa using hb
    omega
  rw [ObjectPool.unique, useCount, hpool, hptrs]
  rfl

/-- **Every entry is unique, so that a pass over the pool finds the first one.** -/
theorem Shape.find_unique (h : Shape n s) :
    s.pool.find? s.unique = if n = 0 then none else some ⟨0, 0⟩ := by
  cases n with
  | zero => rw [h.pool]; rfl
  | succ n =>
    rw [h.pool, List.range_succ_eq_map, List.map_cons,
      List.find?_cons_of_pos (h.unique (Nat.succ_pos n))]
    rfl

theorem Shape.new (D n : ℕ) : Shape n (new D n) where
  pool := rfl
  nextBlock := le_refl n
  ptrs _ _ h := by cases h
  emptied _ _ := rfl

/-- A step that leaves the pointers as they are. -/
theorem Shape.of_ptrs (h : Shape n s) (hp : s'.pool = s.pool) (hn : s'.nextBlock = s.nextBlock)
    (hptrs : s'.ptrs = s.ptrs) (ht : ∀ u, (s'.threads u).emptied = true → s.ptrs u = none) :
    Shape n s' :=
  ⟨hp ▸ h.pool, hn ▸ h.nextBlock, hptrs ▸ h.ptrs, fun u hu => hptrs ▸ ht u hu⟩

theorem Shape.emptied_goto (h : Shape n s) {t : Fin D} {pc : Pc}
    (hpc : pc.emptied = true → s.ptrs t = none) (u : Fin D)
    (hu : ((s.goto t pc).threads u).emptied = true) : s.ptrs u = none := by
  by_cases he : u = t
  · subst he
    exact hpc (by simpa [ObjectPool.goto] using hu)
  · exact h.emptied u (by simpa [ObjectPool.goto, he] using hu)

theorem Pc.emptied_notifyAll (threads : Fin D → Pc) (u : Fin D) :
    (Condvar.notifyAll Pc.wake threads u).emptied = (threads u).emptied := by
  unfold Condvar.notifyAll
  cases threads u <;> rfl

theorem Shape.step (hs : Shape n s) (h : (system D n).step s e s') : Shape n s' := by
  cases step_cases h with
  | called t acquire hp =>
    exact hs.of_ptrs rfl rfl rfl (hs.emptied_goto fun h => by cases h)
  | resetNull t acquire hp hn =>
    exact hs.of_ptrs rfl rfl rfl (hs.emptied_goto fun _ => hn)
  | reset t acquire ptr pc hp hptr =>
    refine ⟨hs.pool, hs.nextBlock, fun u p hu => ?_, fun u hu => ?_⟩
    · by_cases he : u = t
      · subst he
        simp [ObjectPool.goto, assign] at hu
      · exact hs.ptrs u p (by simpa [ObjectPool.goto, assign, he] using hu)
    · by_cases he : u = t
      · subst he
        simp [ObjectPool.goto, assign]
      · have hnone := hs.emptied u (by simpa [ObjectPool.goto, assign, he] using hu)
        simpa [ObjectPool.goto, assign, he] using hnone
  | notified t acquire hp =>
    refine hs.of_ptrs rfl rfl rfl fun u hu => ?_
    by_cases he : u = t
    · subst he
      exact hs.emptied u (by rw [hp]; rfl)
    · refine hs.emptied u ?_
      rw [← Pc.emptied_notifyAll]
      simpa [he] using hu
  | found t timeout it hp hf =>
    rw [hs.find_unique] at hf
    split_ifs at hf with hn
    cases hf
    have hpos : 0 < n := Nat.pos_of_ne_zero hn
    refine ⟨hs.pool, Nat.le_succ_of_le hs.nextBlock, fun u p hu => ?_, fun u hu => ?_⟩
    · by_cases he : u = t
      · subst he
        obtain rfl : ⟨0, s.nextBlock⟩ = p := by simpa [ObjectPool.goto, assign] using hu
        exact ⟨rfl, hpos, hs.nextBlock⟩
      · exact hs.ptrs u p (by simpa [ObjectPool.goto, assign, he] using hu)
    · by_cases he : u = t
      · subst he
        simp [ObjectPool.goto, Pc.emptied] at hu
      · have hnone := hs.emptied u (by simpa [ObjectPool.goto, assign, he] using hu)
        simpa [ObjectPool.goto, assign, he] using hnone
  | missed t timeout hp hf | waited t timeout hp =>
    exact hs.of_ptrs rfl rfl rfl (hs.emptied_goto fun _ => hs.emptied t (by rw [hp]; rfl))
  | expired t timeout hp => exact hs.of_ptrs rfl rfl rfl (hs.emptied_goto fun h => by cases h)
  | woke t timeout hp =>
    exact hs.of_ptrs rfl rfl rfl (hs.emptied_goto fun _ => hs.emptied t (by rw [hp]; rfl))

theorem shape_of_run {tr : List (Move D)} (hr : Run (system D n) tr s) : Shape n s := by
  refine hr.state_invariant (I := Shape n) ?_ fun s e s' hs h => hs.step h
  rintro _ rfl
  exact .new D n

/-! ## Runs -/

/-- At most one acquired pointer is outstanding. -/
def AtMostOne (s : ObjectPool D) : Prop :=
  ∀ t u ptr ptr', s.ptrs t = some ptr → s.ptrs u = some ptr' → t = u

/-- What a step does to the acquired pointers. -/
theorem ptrs_of_step (hs : Shape n s) (h : (system D n).step s e s') :
    (scanner ⟨s, e, s'⟩ = none ∧ ∀ u ptr, s'.ptrs u = some ptr → s.ptrs u = some ptr) ∨
    ∃ t, scanner ⟨s, e, s'⟩ = some t ∧ s.ptrs t = none ∧
      (n = 0 ∧ s'.ptrs = s.ptrs ∨
        0 < n ∧ s'.ptrs = Function.update s.ptrs t (some ⟨0, s.nextBlock⟩)) := by
  cases step_cases h with
  | called t acquire | expired t timeout | woke t timeout =>
    exact Or.inl ⟨rfl, fun _ _ hu => hu⟩
  | resetNull t acquire hp | notified t acquire hp | waited t timeout hp =>
    exact Or.inl ⟨by simp only [scanner, hp], fun _ _ hu => hu⟩
  | reset t acquire ptr pc hp hptr =>
    refine Or.inl ⟨by simp only [scanner, hp], fun u p hu => ?_⟩
    by_cases he : u = t
    · subst he
      simp [goto, assign] at hu
    · simpa [goto, assign, he] using hu
  | found t timeout it hp hf =>
    rw [hs.find_unique] at hf
    split_ifs at hf with hn
    cases hf
    exact Or.inr ⟨t, by simp only [scanner, hp], hs.emptied t (by rw [hp]; rfl),
      Or.inr ⟨Nat.pos_of_ne_zero hn, rfl⟩⟩
  | missed t timeout hp hf =>
    rw [hs.find_unique] at hf
    split_ifs at hf with hn
    exact Or.inr ⟨t, by simp only [scanner, hp], hs.emptied t (by rw [hp]; rfl), Or.inl ⟨hn, rfl⟩⟩

theorem AtMostOne.step (hs : Shape n s) (h₁ : AtMostOne s) (h : (system D n).step s e s')
    (hc : ScansFree n ⟨s, e, s'⟩) : AtMostOne s' := by
  rcases ptrs_of_step hs h with ⟨-, hsub⟩ | ⟨t, hscan, ht, ⟨hn, he⟩ | ⟨hn, he⟩⟩
  · exact fun t u ptr ptr' hp hp' => h₁ t u ptr ptr' (hsub t ptr hp) (hsub u ptr' hp')
  · intro t u ptr ptr'
    rw [he]
    exact h₁ t u ptr ptr'
  · have hfree := hc (by rw [hscan]; simp) hn
    have hone : ∀ u ptr, s'.ptrs u = some ptr → u = t := by
      intro u ptr hu
      by_contra hne
      rw [he, Function.update_of_ne hne, hfree u] at hu
      cases hu
    exact fun u u' ptr ptr' hp hp' => (hone u ptr hp).trans (hone u' ptr' hp').symm

theorem bounded_of_atMostOne (hs : Shape n s) (h₁ : AtMostOne s) : s.outstanding ≤ n := by
  by_cases hany : ∃ t ptr, s.ptrs t = some ptr
  · obtain ⟨t, ptr, hp⟩ := hany
    have hone : s.outstanding ≤ 1 := Finset.card_le_one.mpr fun u hu v hv => by
      obtain ⟨p, hp⟩ := Option.isSome_iff_exists.mp (Finset.mem_filter.mp hu).2
      obtain ⟨q, hq⟩ := Option.isSome_iff_exists.mp (Finset.mem_filter.mp hv).2
      exact h₁ u v p q hp hq
    have hpos := (hs.ptrs t ptr hp).2.1
    omega
  · have hzero : s.outstanding = 0 := by
      rw [outstanding, Finset.card_eq_zero, Finset.filter_eq_empty_iff]
      intro t _ ht
      obtain ⟨ptr, hp⟩ := Option.isSome_iff_exists.mp ht
      exact hany ⟨t, ptr, hp⟩
    omega

/-- A pass that is not made with all objects free hands out one that is held. -/
theorem scansFree_of_exclusive (hs : Shape n s) (h : (system D n).step s e s')
    (hx : Exclusive n ⟨s, e, s'⟩) : ScansFree n ⟨s, e, s'⟩ := by
  intro hscan hn u
  rcases ptrs_of_step hs h with ⟨hno, -⟩ | ⟨t, -, ht, ⟨h0, -⟩ | ⟨-, he⟩⟩
  · exact absurd hno hscan
  · omega
  cases hu : s.ptrs u with
  | none => rfl
  | some ptr =>
    have hne : u ≠ t := by
      rintro rfl
      rw [ht] at hu; cases hu
    have htook : s'.ptrs t = some ⟨0, s.nextBlock⟩ := by rw [he, Function.update_self]
    have hheld : s'.ptrs u = some ptr := by rw [he, Function.update_of_ne hne, hu]
    exact absurd (hx.one_holder u t _ _ hheld htook (hs.ptrs u ptr hu).1) hne

theorem exclusive_of_scansFree (hs : Shape n s) (h₁ : AtMostOne s) (h : (system D n).step s e s')
    (hc : ScansFree n ⟨s, e, s'⟩) : Exclusive n ⟨s, e, s'⟩ := by
  have h₁' := h₁.step hs h hc
  refine ⟨fun t u p q hp hq _ => h₁' t u p q hp hq, bounded_of_atMostOne (hs.step h) h₁', ?_, ?_⟩
  · intro t hscan
    rcases ptrs_of_step hs h with ⟨hno, -⟩ | ⟨t', hscan', ht, ⟨hn, he⟩ | ⟨hn, he⟩⟩
    · rw [hno] at hscan; cases hscan
    all_goals
      obtain rfl : t' = t := Option.some.inj (hscan'.symm.trans hscan)
    · simp [he, ht, hn]
    · have hfree := hc (by rw [hscan]; simp) hn
      have hno : s.NoHolder 0 := fun u ptr hu => by rw [hfree u] at hu; cases hu
      simp only [he, Function.update_self, Option.isSome_some, true_iff]
      exact ⟨0, hn, hno⟩
  · intro t ptr hp hp' u q hq _
    rcases ptrs_of_step hs h with ⟨-, hsub⟩ | ⟨t', -, ht, ⟨-, he⟩ | ⟨-, he⟩⟩
    · obtain rfl := h₁ t u ptr q hp (hsub u q hq)
      rw [hp'] at hq; cases hq
    · rw [he, hp] at hp'; cases hp'
    · have hne : t ≠ t' := by
        rintro rfl
        rw [ht] at hp; cases hp
      rw [he, Function.update_of_ne hne, hp] at hp'
      cases hp'

/-- While every pass has been made with all objects free, at most one is held. -/
theorem atMostOne_of_run {tr : List (Move D)} (hr : Run (system D n) tr s)
    (hc : EachMove (fun _ m => ScansFree n m) tr) : AtMostOne s := by
  refine hr.invariant (I := fun _ s => AtMostOne s) ?_ ?_ hc
  · rintro _ rfl t u ptr ptr' hp
    cases hp
  · exact fun tr s e s' hr h₁ h hc => h₁.step (shape_of_run hr) h hc

/-- **Use of the objects is exclusive in a run exactly when no pass over the pool is made while an
acquired pointer is outstanding.** -/
theorem exclusive_iff {tr : List (Move D)} (hr : Run (system D n) tr s) :
    EachMove (fun _ m => Exclusive n m) tr ↔ EachMove (fun _ m => ScansFree n m) tr := by
  refine hr.eachMove_iff fun tr s e s' hr hc h => ?_
  exact ⟨scansFree_of_exclusive (shape_of_run hr) h,
    exclusive_of_scansFree (shape_of_run hr) (atMostOne_of_run hr hc) h⟩

section Sample

/-- The run of two threads on a pool of two objects with the given events, and its last state. -/
abbrev runOf (es : List (Event 2)) : List (Move 2) × ObjectPool 2 := traceOf next (new 2 2) es

/-- A thread acquires an object and releases it before another thread acquires one. -/
def oneAfterAnother : List (Event 2) :=
  [.call 0 (some (-1)), .run 0, .run 0, .call 0 none, .run 0, .run 0,
    .call 1 (some (-1)), .run 1, .run 1]

/-- Both threads acquire an object. -/
def bothAcquire : List (Event 2) :=
  [.call 0 (some (-1)), .run 0, .run 0, .call 1 (some (-1)), .run 1, .run 1]

theorem exclusive_iff_oneAfterAnother :
    EachMove (fun _ m => Exclusive 2 m) (runOf oneAfterAnother).1 :=
  (exclusive_iff (run_traceOf (by decide))).mpr (by decide)

/-- The second thread gets the object that the first one holds. -/
theorem not_exclusive_bothAcquire : ∃ s, Run (system 2 2) (runOf bothAcquire).1 s ∧
    s.ptrs 0 = some ⟨0, 2⟩ ∧ s.ptrs 1 = some ⟨0, 3⟩ ∧
    ¬ EachMove (fun _ m => Exclusive 2 m) (runOf bothAcquire).1 := by
  have hr : Run (system 2 2) (runOf bothAcquire).1 _ := run_traceOf (by decide)
  refine ⟨_, hr, by decide, by decide, fun h => ?_⟩
  have hscan : EachMove (fun _ m => ScansFree 2 m) (runOf bothAcquire).1 :=
    hr.eachMove_imp (fun _ _ _ _ hr _ _ hs => scansFree_of_exclusive (shape_of_run hr) hs) h
  exact absurd hscan (by decide)

end Sample

end ObjectPool

end NixSrv
