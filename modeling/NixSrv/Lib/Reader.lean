import Mathlib.Algebra.Order.Ring.Int
import Mathlib.Algebra.Ring.Nat
import Mathlib.Data.List.Basic

/-!
# Readers of buffers

A reader looks at a buffer from an offset and gives a value with the offset to go on from, or fails.
Offsets are integers, as a reader may step before the start of its buffer or behind its end.

* `Reader`, `replicate`, `iterate`: readers and their loops;
* `ReadsAs`, **`ReadsAs.bind`**: wherever a text stands in a buffer at a multiple of `al` it is read
  as a value, and a text that is cut short is not read to its end;
* `StaysBehind`, `FailsBehind`: what reads behind the end of a buffer does not come back;
* `Misreads`, `Misreads.bind_left`, `Misreads.bind_right`: texts that are never read as a value;
* `writeAll`, `Exact`, **`Exact.cons`**, **`Exact.replicate`**: writers, and exactly when what they
  write is read as what it was written from;
* `Ensures`, `Ensures.replicate`: what every value that is read meets.
-/

/-- A reader: the buffer, the offset, and the value read with the offset behind it. -/
def Reader (β ε α : Type) : Type := List β → ℤ → Except ε (α × ℤ)

namespace Reader

variable {β ε α γ σ : Type}

instance : Monad (Reader β ε) where
  pure a := fun _ o => .ok (a, o)
  bind r k := fun buf o => (r buf o).bind fun (a, o) => k a buf o

def raise (e : ε) : Reader β ε α := fun _ _ => .error e

/-- What is done with a value that was read may fail, too. -/
def lift (x : Except ε α) : Reader β ε α := fun _ o => x.map fun a => (a, o)

/-- Read `n` values. -/
def replicate (r : Reader β ε α) : ℕ → Reader β ε (List α)
  | 0 => pure []
  | n + 1 => do
    let a ← r
    let as ← replicate r n
    return a :: as

/-- A loop of `n` passes that hands a state on. -/
def iterate (step : σ → Reader β ε σ) : ℕ → σ → Reader β ε σ
  | 0, s => pure s
  | n + 1, s => do
    let s ← step s
    iterate step n s

section Run

variable {r : Reader β ε α} {k : α → Reader β ε γ} {buf : List β} {o : ℤ}

@[simp] theorem pure_apply (a : α) : (pure a : Reader β ε α) buf o = .ok (a, o) := rfl

@[simp] theorem lift_ok (a : α) : (lift (.ok a) : Reader β ε α) buf o = .ok (a, o) := rfl

@[simp] theorem lift_error (e : ε) : (lift (.error e) : Reader β ε α) buf o = .error e := rfl

theorem bind_of_ok {a : α} {o' : ℤ} (h : r buf o = .ok (a, o')) :
    (r >>= k) buf o = k a buf o' := by
  change (r buf o).bind _ = _
  rw [h]
  rfl

theorem bind_of_error {e : ε} (h : r buf o = .error e) : (r >>= k) buf o = .error e := by
  change (r buf o).bind _ = _
  rw [h]
  rfl

/-- **A sequence of readers succeeds when each of them does.** -/
theorem bind_eq_ok {c : γ} {o' : ℤ} : (r >>= k) buf o = .ok (c, o') ↔
    ∃ a o₁, r buf o = .ok (a, o₁) ∧ k a buf o₁ = .ok (c, o') := by
  constructor
  · intro h
    cases hr : r buf o with
    | error e =>
      rw [bind_of_error hr] at h
      cases h
    | ok p => exact ⟨p.1, p.2, rfl, (bind_of_ok hr).symm.trans h⟩
  · rintro ⟨a, o₁, hr, hk⟩
    rw [bind_of_ok hr, hk]

theorem bind_assoc {δ : Type} {l : γ → Reader β ε δ} :
    (r >>= k) >>= l = r >>= fun a => k a >>= l := by
  funext buf o
  cases h : r buf o with
  | error e => rw [bind_of_error h, bind_of_error (bind_of_error h)]
  | ok p =>
    rw [bind_of_ok h]
    change ((r >>= k) buf o).bind _ = _
    rw [bind_of_ok h]
    rfl

theorem lift_eq_ok {x : Except ε α} {a : α} {o' : ℤ} :
    (lift x : Reader β ε α) buf o = .ok (a, o') ↔ x = .ok a ∧ o' = o := by
  cases x with
  | error e => simp
  | ok b => simp [eq_comm]

end Run

theorem length_replicate {r : Reader β ε α} {n : ℕ} {buf : List β} : ∀ {o o' : ℤ} {as : List α},
    replicate r n buf o = .ok (as, o') → as.length = n := by
  induction n with
  | zero =>
    intro o o' as h
    cases h
    rfl
  | succ n ih =>
    intro o o' as h
    obtain ⟨a, o₁, -, h⟩ := bind_eq_ok.mp h
    obtain ⟨as', o₂, has, h⟩ := bind_eq_ok.mp h
    cases h
    rw [List.length_cons, ih has]

/-- **A loop that reads a value in each pass is a loop that reads all of them first**, as long as
no pass fails after its value was read. -/
theorem iterate_eq_ok {r : Reader β ε α} {f : σ → α → Except ε σ} {g : σ → α → σ}
    {P : α → Prop} (hP : ∀ s a s', f s a = .ok s' ↔ P a ∧ s' = g s a) (n : ℕ) :
    ∀ {s s' : σ} {buf : List β} {o o' : ℤ},
      iterate (fun s => do let a ← r; lift (f s a)) n s buf o = .ok (s', o') ↔
        ∃ as, replicate r n buf o = .ok (as, o') ∧ (∀ a ∈ as, P a) ∧ s' = as.foldl g s := by
  induction n with
  | zero =>
    intro s s' buf o o'
    simp only [iterate, replicate, pure_apply, Except.ok.injEq, Prod.mk.injEq]
    constructor
    · rintro ⟨rfl, rfl⟩
      exact ⟨[], ⟨rfl, rfl⟩, by simp, rfl⟩
    · rintro ⟨as, ⟨rfl, rfl⟩, -, rfl⟩
      exact ⟨rfl, rfl⟩
  | succ n ih =>
    intro s s' buf o o'
    simp only [iterate, replicate, bind_eq_ok, lift_eq_ok, pure_apply, Except.ok.injEq,
      Prod.mk.injEq, ih, hP]
    constructor
    · rintro ⟨s₁, o₁, ⟨a, o₂, ha, ⟨hPa, rfl⟩, rfl⟩, as, has, hall, rfl⟩
      exact ⟨a :: as, ⟨a, o₁, ha, as, o', has, rfl, rfl⟩, List.forall_mem_cons.mpr ⟨hPa, hall⟩, rfl⟩
    · rintro ⟨as', ⟨a, o₁, ha, as, o₂, has, rfl, rfl⟩, hall, rfl⟩
      obtain ⟨hPa, hall⟩ := List.forall_mem_cons.mp hall
      exact ⟨_, o₁, ⟨a, o₁, ha, ⟨hPa, rfl⟩, rfl⟩, as, has, hall, rfl⟩

/-! ## Texts that are read as a value -/

/-- A read that starts behind the end of the buffer ends there. -/
def StaysBehind (r : Reader β ε α) : Prop :=
  ∀ buf (o : ℤ), (buf.length : ℤ) < o → ∀ a o', r buf o = .ok (a, o') → (buf.length : ℤ) < o'

/-- Wherever `bs` stands in a buffer at a multiple of `al`, `r` reads `a` and goes on behind it. At
the end of a buffer that ends within `bs` it fails, or goes on behind the end. -/
structure ReadsAs (al : ℕ) (r : Reader β ε α) (bs : List β) (a : α) : Prop where
  dvd_length : al ∣ bs.length
  run : ∀ pre post, al ∣ pre.length →
    r (pre ++ bs ++ post) pre.length = .ok (a, ((pre ++ bs).length : ℤ))
  cut : ∀ pre n, al ∣ pre.length → n < bs.length → ∀ a' o,
    r (pre ++ bs.take n) pre.length = .ok (a', o) → ((pre ++ bs.take n).length : ℤ) < o

theorem StaysBehind.pure (a : α) : StaysBehind (pure a : Reader β ε α) := by
  intro buf o ho a' o' h
  cases h
  exact ho

theorem StaysBehind.raise (e : ε) : StaysBehind (raise e : Reader β ε α) := by
  intro buf o _ a o' h
  cases h

theorem StaysBehind.lift (x : Except ε α) : StaysBehind (lift x : Reader β ε α) := by
  intro buf o ho a o' h
  rw [(lift_eq_ok.mp h).2]
  exact ho

theorem StaysBehind.bind {r : Reader β ε α} {k : α → Reader β ε γ} (hr : StaysBehind r)
    (hk : ∀ a, StaysBehind (k a)) : StaysBehind (r >>= k) := by
  intro buf o ho c o' h
  obtain ⟨a, o₁, h₁, h₂⟩ := bind_eq_ok.mp h
  exact hk a buf o₁ (hr buf o ho a o₁ h₁) c o' h₂

/-- A read that starts behind the end of the buffer fails. -/
def FailsBehind (r : Reader β ε α) : Prop :=
  ∀ buf (o : ℤ), (buf.length : ℤ) < o → ∀ a o', r buf o ≠ .ok (a, o')

theorem FailsBehind.staysBehind {r : Reader β ε α} (hr : FailsBehind r) : StaysBehind r :=
  fun buf o ho a o' h => absurd h (hr buf o ho a o')

theorem FailsBehind.bind {r : Reader β ε α} (hr : FailsBehind r) (k : α → Reader β ε γ) :
    FailsBehind (r >>= k) := by
  intro buf o ho c o' h
  obtain ⟨a, o₁, h₁, -⟩ := bind_eq_ok.mp h
  exact hr buf o ho a o₁ h₁

theorem StaysBehind.replicate {r : Reader β ε α} (hr : StaysBehind r) (n : ℕ) :
    StaysBehind (replicate r n) := by
  induction n with
  | zero => exact .pure []
  | succ n ih => exact hr.bind fun _ => ih.bind fun _ => .pure _

namespace ReadsAs

variable {al : ℕ} {r : Reader β ε α} {bs bs' : List β} {a : α}

theorem pure (a : α) : ReadsAs al (pure a : Reader β ε α) [] a where
  dvd_length := by simp
  run pre post _ := by simp
  cut pre n _ hn := absurd hn (Nat.not_lt_zero n)

/-- Texts one after another are read by readers one after another, as long as the second reader does
not make up for a first text that is cut short. -/
theorem bind_of_cut {k : α → Reader β ε γ} {c : γ} (hr : ReadsAs al r bs a)
    (hcut : ∀ pre n, al ∣ pre.length → n < bs.length → ∀ c' o,
      (r >>= k) (pre ++ bs.take n) pre.length = .ok (c', o) →
      ((pre ++ bs.take n).length : ℤ) < o)
    (hk : ReadsAs al (k a) bs' c) : ReadsAs al (r >>= k) (bs ++ bs') c where
  dvd_length := by
    rw [List.length_append]
    exact Nat.dvd_add hr.dvd_length hk.dvd_length
  run pre post hpre := by
    have hal : al ∣ (pre ++ bs).length := by
      rw [List.length_append]
      exact Nat.dvd_add hpre hr.dvd_length
    have h₁ := hr.run pre (bs' ++ post) hpre
    have h₂ := hk.run (pre ++ bs) post hal
    simp only [List.append_assoc] at h₁ h₂ ⊢
    rw [bind_of_ok h₁, h₂]
  cut pre n hpre hn c' o h := by
    by_cases hlt : n < bs.length
    · rw [List.take_append_of_le_length hlt.le] at h ⊢
      exact hcut pre n hpre hlt c' o h
    · have hle : bs.length ≤ n := not_lt.mp hlt
      have hal : al ∣ (pre ++ bs).length := by
        rw [List.length_append]
        exact Nat.dvd_add hpre hr.dvd_length
      rw [List.take_append, List.take_of_length_le hle, ← List.append_assoc] at h ⊢
      rw [bind_of_ok (hr.run pre _ hpre)] at h
      refine hk.cut (pre ++ bs) (n - bs.length) hal ?_ c' o h
      rw [List.length_append] at hn
      omega

/-- **Texts one after another are read by readers one after another.** -/
theorem bind {k : α → Reader β ε γ} {c : γ} (hr : ReadsAs al r bs a)
    (hk : ReadsAs al (k a) bs' c) (hs : ∀ a, StaysBehind (k a)) :
    ReadsAs al (r >>= k) (bs ++ bs') c := by
  refine hr.bind_of_cut (fun pre n hpre hlt c' o h => ?_) hk
  obtain ⟨a', o₁, h₁, h₂⟩ := bind_eq_ok.mp h
  exact hs a' _ o₁ (hr.cut pre n hpre hlt a' o₁ h₁) c' o h₂

/-- Where the first reader fails on a text that is cut short, the second may step back. -/
theorem bind_of_fails {k : α → Reader β ε γ} {c : γ} (hr : ReadsAs al r bs a)
    (hf : ∀ pre n, n < bs.length → ∀ a' o, r (pre ++ bs.take n) pre.length ≠ .ok (a', o))
    (hk : ReadsAs al (k a) bs' c) : ReadsAs al (r >>= k) (bs ++ bs') c := by
  refine hr.bind_of_cut (fun pre n _ hlt c' o h => ?_) hk
  obtain ⟨a', o₁, h₁, -⟩ := bind_eq_ok.mp h
  exact absurd h₁ (hf pre n hlt a' o₁)

theorem map {f : α → γ} (hr : ReadsAs al r bs a) :
    ReadsAs al (r >>= fun a => Pure.pure (f a)) bs (f a) := by
  simpa using hr.bind (ReadsAs.pure (f a)) fun _ => .pure _

end ReadsAs

/-! ## Texts that are never read as a value -/

/-- Wherever `bs` stands in a buffer at a multiple of `al`, `r` does not read `a`. -/
def Misreads (al : ℕ) (r : Reader β ε α) (bs : List β) (a : α) : Prop :=
  ∀ pre post o, al ∣ pre.length → r (pre ++ bs ++ post) pre.length ≠ .ok (a, o)

namespace Misreads

variable {al : ℕ} {r : Reader β ε α} {bs bs' : List β} {a : α} {k : α → Reader β ε γ} {c : γ}

/-- What is read first shows in the result. -/
theorem bind_left (hr : Misreads al r bs a)
    (hk : ∀ a' buf o o', k a' buf o = .ok (c, o') → a' = a) :
    Misreads al (r >>= k) (bs ++ bs') c := by
  intro pre post o hpre h
  obtain ⟨a', o₁, h₁, h₂⟩ := bind_eq_ok.mp h
  rw [hk a' _ o₁ o h₂, ← List.append_assoc, List.append_assoc (pre ++ bs)] at h₁
  exact hr pre (bs' ++ post) o₁ hpre h₁

theorem bind_right (hr : ReadsAs al r bs a) (hk : Misreads al (k a) bs' c) :
    Misreads al (r >>= k) (bs ++ bs') c := by
  intro pre post o hpre h
  have hal : al ∣ (pre ++ bs).length := by
    rw [List.length_append]
    exact Nat.dvd_add hpre hr.dvd_length
  have h₁ := hr.run pre (bs' ++ post) hpre
  simp only [List.append_assoc] at h h₁
  rw [bind_of_ok h₁] at h
  refine hk (pre ++ bs) post o hal ?_
  simpa only [List.append_assoc] using h

end Misreads

/-! ## Writers and their readers -/

/-- Texts written one after another; the whole fails when one of them does. -/
def writeAll : List (Except ε (List β)) → Except ε (List β)
  | [] => .ok []
  | w :: ws => do
    let bs ← w
    let rest ← writeAll ws
    return bs ++ rest

theorem writeAll_cons_eq_ok {w : Except ε (List β)} {ws : List (Except ε (List β))} {bs : List β} :
    writeAll (w :: ws) = .ok bs ↔ ∃ b₁ b₂, w = .ok b₁ ∧ writeAll ws = .ok b₂ ∧ bs = b₁ ++ b₂ := by
  cases w with
  | error e => simp [writeAll, bind, Except.bind]
  | ok b₁ =>
    cases h : writeAll ws with
    | error e => simp [writeAll, h, bind, Except.bind]
    | ok b₂ => simp [writeAll, h, bind, Except.bind, pure, Except.pure, eq_comm]

theorem writeAll_singleton (w : Except ε (List β)) : writeAll [w] = w := by
  cases w with
  | error e => rfl
  | ok bs => exact congrArg Except.ok (List.append_nil bs)

/-- What is written is written in full when each part is. -/
theorem exists_writeAll_iff {ws : List (Except ε (List β))} :
    (∃ bs, writeAll ws = .ok bs) ↔ ∀ w ∈ ws, ∃ bs, w = .ok bs := by
  induction ws with
  | nil => simp [writeAll]
  | cons w ws ih =>
    rw [List.forall_mem_cons, ← ih]
    constructor
    · rintro ⟨bs, h⟩
      obtain ⟨b₁, b₂, h₁, h₂, -⟩ := writeAll_cons_eq_ok.mp h
      exact ⟨⟨b₁, h₁⟩, b₂, h₂⟩
    · rintro ⟨⟨b₁, h₁⟩, b₂, h₂⟩
      exact ⟨b₁ ++ b₂, writeAll_cons_eq_ok.mpr ⟨b₁, b₂, h₁, h₂, rfl⟩⟩

/-- What `w` writes is read as `a` when `p` holds, and never read as `a` when it does not. -/
def Exact (al : ℕ) (p : Prop) (w : Except ε (List β)) (r : Reader β ε α) (a : α) : Prop :=
  ∀ bs, w = .ok bs → (p → ReadsAs al r bs a) ∧ (¬p → Misreads al r bs a)

namespace Exact

variable {al : ℕ} {p q : Prop} {w : Except ε (List β)} {ws : List (Except ε (List β))}
  {r : Reader β ε α} {a : α} {k : α → Reader β ε γ} {c : γ}

theorem of_readsAs (h : ∀ bs, w = .ok bs → ReadsAs al r bs a) : Exact al True w r a :=
  fun bs hbs => ⟨fun _ => h bs hbs, fun hp => absurd trivial hp⟩

theorem congr (h : Exact al p w r a) (hpq : p ↔ q) : Exact al q w r a := by
  rwa [← propext hpq]

/-- **One part after another**: the whole is read when both parts are. -/
theorem cons (hr : Exact al p w r a) (hk : Exact al q (writeAll ws) (k a) c)
    (hs : ∀ a, StaysBehind (k a)) (hinj : ∀ a' buf o o', k a' buf o = .ok (c, o') → a' = a) :
    Exact al (p ∧ q) (writeAll (w :: ws)) (r >>= k) c := by
  intro bs hbs
  obtain ⟨b₁, b₂, h₁, h₂, rfl⟩ := writeAll_cons_eq_ok.mp hbs
  refine ⟨fun ⟨hp, hq⟩ => ((hr b₁ h₁).1 hp).bind ((hk b₂ h₂).1 hq) hs, fun hpq => ?_⟩
  by_cases hp : p
  · exact .bind_right ((hr b₁ h₁).1 hp) ((hk b₂ h₂).2 fun hq => hpq ⟨hp, hq⟩)
  · exact ((hr b₁ h₁).2 hp).bind_left hinj

/-- A part that is always read, and need not show in the result. -/
theorem cons_true (hr : Exact al True w r a) (hk : Exact al q (writeAll ws) (k a) c)
    (hs : ∀ a, StaysBehind (k a)) : Exact al q (writeAll (w :: ws)) (r >>= k) c := by
  intro bs hbs
  obtain ⟨b₁, b₂, h₁, h₂, rfl⟩ := writeAll_cons_eq_ok.mp hbs
  have hd := (hr b₁ h₁).1 trivial
  exact ⟨fun hq => hd.bind ((hk b₂ h₂).1 hq) hs, fun hq => .bind_right hd ((hk b₂ h₂).2 hq)⟩

/-- What is done with the value that was read, and shows it. -/
theorem finish (h : Exact al p w r a) (hk : k a = pure c) (hs : ∀ a, StaysBehind (k a))
    (hinj : ∀ a' buf o o', k a' buf o = .ok (c, o') → a' = a) : Exact al p w (r >>= k) c := by
  have hnil : Exact al True (writeAll []) (k a) c := by
    refine of_readsAs fun bs hbs => ?_
    cases hbs
    rw [hk]
    exact .pure c
  have hcons := (h.cons hnil hs hinj).congr (and_iff_left trivial)
  rwa [writeAll_singleton] at hcons

theorem map {f : α → γ} (hf : Function.Injective f) (h : Exact al p w r a) :
    Exact al p w (r >>= fun a => Pure.pure (f a)) (f a) := by
  refine h.finish rfl (fun _ => .pure _) fun a' buf o o' h' => ?_
  rw [pure_apply, Except.ok.injEq, Prod.mk.injEq] at h'
  exact hf h'.1

/-- **A list is read when each of its members is.** -/
theorem replicate {ι : Type} {p : ι → Prop} {w : ι → Except ε (List β)} {value : ι → α}
    (hs : StaysBehind r) {xs : List ι} (h : ∀ x ∈ xs, Exact al (p x) (w x) r (value x)) :
    Exact al (∀ x ∈ xs, p x) (writeAll (xs.map w)) (Reader.replicate r xs.length)
      (xs.map value) := by
  induction xs with
  | nil =>
    refine (of_readsAs fun bs hbs => ?_).congr (by simp)
    cases hbs
    exact .pure []
  | cons x xs ih =>
    have hxs := ih fun y hy => h y (List.mem_cons_of_mem x hy)
    refine ((h x List.mem_cons_self).cons (hxs.map fun as as' h => (List.cons.inj h).2)
      (fun _ => (hs.replicate _).bind fun _ => .pure _) fun a' buf o o' h => ?_).congr
      List.forall_mem_cons.symm
    obtain ⟨as, o₁, -, h⟩ := bind_eq_ok.mp h
    rw [pure_apply, Except.ok.injEq, Prod.mk.injEq] at h
    exact (List.cons.inj h.1).1

end Exact

/-! ## What every value that is read meets -/

/-- What is read from a buffer that meets `B` meets `P`. -/
def Ensures (B : List β → Prop) (r : Reader β ε α) (P : α → Prop) : Prop :=
  ∀ buf, B buf → ∀ o a o', r buf o = .ok (a, o') → P a

namespace Ensures

variable {B : List β → Prop} {r : Reader β ε α} {P : α → Prop} {k : α → Reader β ε γ}
  {Q : γ → Prop}

theorem pure {a : α} (h : P a) : Ensures B (pure a : Reader β ε α) P := by
  intro buf _ o a' o' h'
  cases h'
  exact h

theorem raise (e : ε) : Ensures B (raise e : Reader β ε α) P := by
  intro buf _ o a o' h
  cases h

theorem lift {x : Except ε α} (h : ∀ a, x = .ok a → P a) :
    Ensures B (lift x : Reader β ε α) P := by
  intro buf _ o a o' h'
  exact h a (lift_eq_ok.mp h').1

theorem bind (hr : Ensures B r P) (hk : ∀ a, P a → Ensures B (k a) Q) :
    Ensures B (r >>= k) Q := by
  intro buf hB o c o' h
  obtain ⟨a, o₁, h₁, h₂⟩ := bind_eq_ok.mp h
  exact hk a (hr buf hB o a o₁ h₁) buf hB o₁ c o' h₂

theorem mono (hr : Ensures B r P) {P' : α → Prop} (h : ∀ a, P a → P' a) : Ensures B r P' :=
  fun buf hB o a o' hra => h a (hr buf hB o a o' hra)

/-- **Every value of a list meets what one value meets**, and the list has its length. -/
theorem replicate (hr : Ensures B r P) (n : ℕ) :
    Ensures B (Reader.replicate r n) fun as => as.length = n ∧ ∀ a ∈ as, P a := by
  induction n with
  | zero => exact .pure ⟨rfl, by simp⟩
  | succ n ih =>
    refine hr.bind fun a ha => ih.bind fun as has => .pure ⟨?_, ?_⟩
    · rw [List.length_cons, has.1]
    · exact List.forall_mem_cons.mpr ⟨ha, has.2⟩

end Ensures

end Reader
