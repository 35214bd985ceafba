import Mathlib.Data.List.Induction
import Mathlib.Logic.Basic
import Mathlib.Logic.Relation

/-!
# Transition systems and their runs

* `System`, `Move`, `Run`: labelled transition systems and their finite runs, oldest move first;
* `EachMove`: every move of a run meets a condition on the run before it;
* **`Run.invariant`**: what holds at the start and is kept by every move holds after every run;
* `Run.eachMove_imp`, **`Run.eachMove_iff`**: conditions on the moves, compared move by move;
* **`Run.continued`**: steps that can be made from the end of a run;
* `Projects`, **`Projects.run`**, `Simulates`, **`Simulates.run`**: systems whose runs are runs of
  another system;
* `System.ofNext`, **`run_trace`**: systems given by a partial function, whose runs are computed.
-/

namespace Transition

variable {σ ε : Type*}

/-- A labelled transition system. -/
structure System (σ ε : Type*) where
  init : σ → Prop
  step : σ → ε → σ → Prop

/-- One move of a run, with the states around it. -/
structure Move (σ ε : Type*) where
  pre : σ
  event : ε
  post : σ

/-- The runs of a system, with the state they end in. -/
inductive Run (S : System σ ε) : List (Move σ ε) → σ → Prop
  | nil {s : σ} : S.init s → Run S [] s
  | snoc {tr : List (Move σ ε)} {s s' : σ} {e : ε} :
      Run S tr s → S.step s e s' → Run S (tr ++ [⟨s, e, s'⟩]) s'

/-! ## Conditions on the moves of a run -/

/-- Every move of `tr` meets `C` after the history `hist`. -/
def EachMoveFrom (C : List (Move σ ε) → Move σ ε → Prop) :
    List (Move σ ε) → List (Move σ ε) → Prop
  | _, [] => True
  | hist, m :: tr => C hist m ∧ EachMoveFrom C (hist ++ [m]) tr

/-- Every move of a run meets `C`, a condition on the run so far and the move. -/
def EachMove (C : List (Move σ ε) → Move σ ε → Prop) (tr : List (Move σ ε)) : Prop :=
  EachMoveFrom C [] tr

variable {C D : List (Move σ ε) → Move σ ε → Prop}

instance decidableEachMoveFrom [∀ hist m, Decidable (C hist m)] :
    ∀ hist tr, Decidable (EachMoveFrom C hist tr)
  | _, [] => isTrue trivial
  | hist, m :: tr =>
    haveI := decidableEachMoveFrom (hist ++ [m]) tr
    inferInstanceAs (Decidable (C hist m ∧ EachMoveFrom C (hist ++ [m]) tr))

instance [∀ hist m, Decidable (C hist m)] (tr : List (Move σ ε)) : Decidable (EachMove C tr) :=
  decidableEachMoveFrom [] tr

theorem eachMoveFrom_snoc (tr : List (Move σ ε)) (m : Move σ ε) :
    ∀ hist, EachMoveFrom C hist (tr ++ [m]) ↔ EachMoveFrom C hist tr ∧ C (hist ++ tr) m := by
  induction tr with
  | nil => intro hist; simp [EachMoveFrom]
  | cons m' tr ih =>
    intro hist
    simp only [List.cons_append, EachMoveFrom, ih, and_assoc, List.append_assoc, List.nil_append]

@[simp] theorem eachMove_nil : EachMove C [] := trivial

@[simp] theorem eachMove_snoc (tr : List (Move σ ε)) (m : Move σ ε) :
    EachMove C (tr ++ [m]) ↔ EachMove C tr ∧ C tr m := by
  simp only [EachMove, eachMoveFrom_snoc, List.nil_append]

theorem EachMove.and {tr : List (Move σ ε)} (hc : EachMove C tr) (hd : EachMove D tr) :
    EachMove (fun hist m => C hist m ∧ D hist m) tr := by
  induction tr using List.reverseRecOn with
  | nil => trivial
  | append_singleton tr m ih =>
    rw [eachMove_snoc] at hc hd ⊢
    exact ⟨ih hc.1 hd.1, hc.2, hd.2⟩

theorem EachMove.mono {tr : List (Move σ ε)} (h : ∀ hist m, C hist m → D hist m)
    (hc : EachMove C tr) : EachMove D tr := by
  induction tr using List.reverseRecOn with
  | nil => trivial
  | append_singleton tr m ih =>
    rw [eachMove_snoc] at hc ⊢
    exact ⟨ih hc.1, h _ _ hc.2⟩

/-- A condition on the moves alone holds of every move. -/
theorem EachMove.of_mem {P : Move σ ε → Prop} {tr : List (Move σ ε)} {m : Move σ ε}
    (h : EachMove (fun _ m => P m) tr) (hm : m ∈ tr) : P m := by
  induction tr using List.reverseRecOn with
  | nil => cases hm
  | append_singleton tr m' ih =>
    rw [eachMove_snoc] at h
    rcases List.mem_append.mp hm with hm | hm
    · exact ih h.1 hm
    · rw [List.mem_singleton.mp hm]
      exact h.2

/-- A condition that moves meet after any history. -/
theorem eachMove_of_forall {tr : List (Move σ ε)} (h : ∀ m ∈ tr, ∀ hist, C hist m) :
    EachMove C tr := by
  induction tr using List.reverseRecOn with
  | nil => trivial
  | append_singleton tr m ih =>
    rw [eachMove_snoc]
    exact ⟨ih fun m' hm' => h m' (List.mem_append_left _ hm'),
      h m (List.mem_append_right _ (List.mem_singleton_self _)) tr⟩

theorem EachMove.of_append {tr tr' : List (Move σ ε)} (h : EachMove C (tr ++ tr')) :
    EachMove C tr := by
  induction tr' using List.reverseRecOn with
  | nil => rwa [List.append_nil] at h
  | append_singleton tr' m ih =>
    rw [← List.append_assoc, eachMove_snoc] at h
    exact ih h.1

/-! ## Invariants -/

variable {S : System σ ε}

/-- **The invariant rule**, for invariants that may speak of the history of the run and for runs
whose moves all meet `C`. -/
theorem Run.invariant {I : List (Move σ ε) → σ → Prop} (hinit : ∀ s, S.init s → I [] s)
    (hstep : ∀ tr s e s', Run S tr s → I tr s → S.step s e s' → C tr ⟨s, e, s'⟩ →
      I (tr ++ [⟨s, e, s'⟩]) s')
    {tr : List (Move σ ε)} {s : σ} (hr : Run S tr s) (hc : EachMove C tr) : I tr s := by
  induction hr with
  | nil h => exact hinit _ h
  | snoc hr hs ih =>
    rw [eachMove_snoc] at hc
    exact hstep _ _ _ _ hr (ih hc.1) hs hc.2

/-- A condition that follows from another one, move by move. -/
theorem Run.eachMove_imp (h : ∀ tr s e s', Run S tr s → EachMove C tr → EachMove D tr →
      S.step s e s' → C tr ⟨s, e, s'⟩ → D tr ⟨s, e, s'⟩)
    {tr : List (Move σ ε)} {s : σ} (hr : Run S tr s) (hc : EachMove C tr) : EachMove D tr := by
  induction hr with
  | nil _ => trivial
  | snoc hr hs ih =>
    rw [eachMove_snoc] at hc ⊢
    exact ⟨ih hc.1, h _ _ _ _ hr hc.1 (ih hc.1) hs hc.2⟩

/-- **Two conditions on the moves of a run agree** when they do on every move that comes after moves
which meet the second. -/
theorem Run.eachMove_iff (h : ∀ tr s e s', Run S tr s → EachMove D tr → S.step s e s' →
      (C tr ⟨s, e, s'⟩ ↔ D tr ⟨s, e, s'⟩))
    {tr : List (Move σ ε)} {s : σ} (hr : Run S tr s) : EachMove C tr ↔ EachMove D tr :=
  ⟨hr.eachMove_imp fun _ _ _ _ hr _ hd hs => (h _ _ _ _ hr hd hs).mp,
    hr.eachMove_imp fun _ _ _ _ hr hd _ hs => (h _ _ _ _ hr hd hs).mpr⟩

/-- The invariant rule for a property of states. -/
theorem Run.state_invariant {I : σ → Prop} (hinit : ∀ s, S.init s → I s)
    (hstep : ∀ s e s', I s → S.step s e s' → I s') {tr : List (Move σ ε)} {s : σ}
    (hr : Run S tr s) : I s := by
  induction hr with
  | nil h => exact hinit _ h
  | snoc _ hs ih => exact hstep _ _ _ ih hs

/-- A property that every move establishes or keeps, whatever the state before the run. -/
theorem Run.move_mem {P : Move σ ε → Prop} (h : ∀ tr s e s', Run S tr s → S.step s e s' →
    P ⟨s, e, s'⟩) {tr : List (Move σ ε)} {s : σ} (hr : Run S tr s) : ∀ m ∈ tr, P m := by
  induction hr with
  | nil _ => intro m hm; cases hm
  | snoc hr hs ih =>
    intro m hm
    rcases List.mem_append.mp hm with hm | hm
    · exact ih m hm
    · rw [List.mem_singleton.mp hm]; exact h _ _ _ _ hr hs

/-- A run that moves ends where its last move does. -/
theorem Run.exists_post {tr : List (Move σ ε)} {s : σ} (hr : Run S tr s) (hne : tr ≠ []) :
    ∃ m ∈ tr, m.post = s := by
  cases hr with
  | nil _ => exact absurd rfl hne
  | @snoc tr s' _ e hr hs =>
    exact ⟨⟨s', e, s⟩, List.mem_append_right _ (List.mem_singleton_self _), rfl⟩

/-- A run ends where its last move does. -/
theorem Run.post_eq {tr : List (Move σ ε)} {m : Move σ ε} {s : σ} (hr : Run S (tr ++ [m]) s) :
    m.post = s := by
  generalize htr : tr ++ [m] = tr' at hr
  cases hr with
  | nil _ => simp at htr
  | snoc _ _ =>
    obtain ⟨-, hm⟩ := List.append_inj' htr rfl
    cases hm
    rfl

/-- Steps that can be made from the end of a run continue the run. -/
theorem Run.continued {P : Move σ ε → Prop} {s s' : σ}
    (h : Relation.ReflTransGen (fun s s' => ∃ e, S.step s e s' ∧ P ⟨s, e, s'⟩) s s')
    {hist : List (Move σ ε)} (hr : Run S hist s) :
    ∃ rest, Run S (hist ++ rest) s' ∧ ∀ m ∈ rest, P m := by
  induction h with
  | refl => exact ⟨[], by rwa [List.append_nil], fun _ hm => by cases hm⟩
  | tail _ hstep ih =>
    obtain ⟨rest, hr', hP⟩ := ih
    obtain ⟨e, hs, hm⟩ := hstep
    refine ⟨rest ++ [_], by rw [← List.append_assoc]; exact hr'.snoc hs, fun m hmem => ?_⟩
    rcases List.mem_append.mp hmem with hmem | hmem
    · exact hP m hmem
    · rw [List.mem_singleton.mp hmem]
      exact hm

/-- Every prefix of a run is a run, ending where its next move begins. -/
theorem Run.of_append {hist rest : List (Move σ ε)} {m : Move σ ε} {s : σ}
    (hr : Run S (hist ++ m :: rest) s) : Run S hist m.pre ∧ S.step m.pre m.event m.post := by
  generalize htr : hist ++ m :: rest = tr at hr
  induction hr generalizing rest with
  | nil _ => simp at htr
  | @snoc tr s s' e hr hs ih =>
    rcases List.eq_nil_or_concat rest with rfl | ⟨rest', m', rfl⟩
    · obtain ⟨rfl, hm⟩ := List.append_inj' htr rfl
      cases hm
      exact ⟨hr, hs⟩
    · rw [List.concat_eq_append, ← List.cons_append, ← List.append_assoc] at htr
      exact ih (List.append_inj' htr rfl).1

/-! ## Systems that run as another one -/

section Simulation

variable {σ' ε' : Type*}

/-- The states of `S` seen as states of `T` by `f`. A move of `S` is the step of `T` with the label
that `g` gives, or leaves the state of `T` alone where there is none. -/
structure Projects (S : System σ ε) (T : System σ' ε') (f : σ → σ') (g : Move σ ε → Option ε') :
    Prop where
  init : ∀ s, S.init s → T.init (f s)
  step : ∀ s e s', S.step s e s' →
    (∃ e', g ⟨s, e, s'⟩ = some e' ∧ T.step (f s) e' (f s')) ∨ g ⟨s, e, s'⟩ = none ∧ f s' = f s

/-- The moves of a run, seen in the other system. -/
def projection (f : σ → σ') (g : Move σ ε → Option ε') (tr : List (Move σ ε)) :
    List (Move σ' ε') :=
  tr.filterMap fun m => (g m).map fun e' => ⟨f m.pre, e', f m.post⟩

theorem projection_snoc (f : σ → σ') (g : Move σ ε → Option ε') (tr : List (Move σ ε))
    (m : Move σ ε) : projection f g (tr ++ [m]) =
      projection f g tr ++ ((g m).map fun e' => ⟨f m.pre, e', f m.post⟩).toList := by
  rw [projection, List.filterMap_append]
  cases hg : g m <;> simp [projection, hg]

/-- **The runs of one system are runs of the other, with pauses.** -/
theorem Projects.run {T : System σ' ε'} {f : σ → σ'} {g : Move σ ε → Option ε'}
    (h : Projects S T f g) {tr : List (Move σ ε)} {s : σ} (hr : Run S tr s) :
    Run T (projection f g tr) (f s) := by
  induction hr with
  | nil hs => exact .nil (h.init _ hs)
  | @snoc tr s s' e hr hs ih =>
    rw [projection_snoc]
    rcases h.step _ _ _ hs with ⟨e', hg, hstep⟩ | ⟨hg, hsame⟩
    · rw [hg]
      exact ih.snoc hstep
    · rw [hg, Option.map_none, Option.toList_none, List.append_nil, hsame]
      exact ih

/-- The states of `S` seen as states of `T` by `f`, and its moves as labels by `g`. -/
structure Simulates (S : System σ ε) (T : System σ' ε') (f : σ → σ') (g : Move σ ε → ε') :
    Prop where
  init : ∀ s, S.init s → T.init (f s)
  step : ∀ s e s', S.step s e s' → T.step (f s) (g ⟨s, e, s'⟩) (f s')

/-- A move, seen in the other system. -/
def Move.via (f : σ → σ') (g : Move σ ε → ε') (m : Move σ ε) : Move σ' ε' :=
  ⟨f m.pre, g m, f m.post⟩

/-- **The runs of one system are runs of the other.** -/
theorem Simulates.run {T : System σ' ε'} {f : σ → σ'} {g : Move σ ε → ε'} (h : Simulates S T f g)
    {tr : List (Move σ ε)} {s : σ} (hr : Run S tr s) : Run T (tr.map (Move.via f g)) (f s) := by
  have hp : Projects S T f fun m => some (g m) :=
    ⟨h.init, fun s e s' hs => Or.inl ⟨_, rfl, h.step s e s' hs⟩⟩
  have hmap : projection f (fun m => some (g m)) tr = tr.map (Move.via f g) :=
    congrFun List.filterMap_eq_map' tr
  exact hmap ▸ hp.run hr

end Simulation

/-! ## Systems given by a function -/

/-- The numerals of `Fin 2`, the threads of sample runs. -/
instance neZero_two : @NeZero ℕ Zero.ofOfNat0 2 := Nat.instNeZeroSucc

/-- The system that starts in `s₀` and moves by a partial function. -/
def System.ofNext (s₀ : σ) (next : σ → ε → Option σ) : System σ ε where
  init s := s = s₀
  step s e s' := next s e = some s'

/-- The moves of a run of such a system tell where it ends. -/
theorem Run.end_unique {s₀ : σ} {next : σ → ε → Option σ} {tr : List (Move σ ε)} {s s' : σ}
    (hr : Run (System.ofNext s₀ next) tr s) (hr' : Run (System.ofNext s₀ next) tr s') : s = s' := by
  rcases List.eq_nil_or_concat tr with rfl | ⟨tr, m, rfl⟩
  · have hinit : ∀ {s}, Run (System.ofNext s₀ next) [] s → s = s₀ := by
      intro s h
      generalize htr : ([] : List (Move σ ε)) = tr at h
      cases h with
      | nil h => exact h
      | snoc _ _ => simp at htr
    exact (hinit hr).trans (hinit hr').symm
  · rw [List.concat_eq_append] at hr hr'
    exact hr.post_eq.symm.trans hr'.post_eq

/-- The moves made on a list of events, and the state after them. -/
def trace (next : σ → ε → Option σ) : σ → List ε → Option (List (Move σ ε) × σ)
  | s, [] => some ([], s)
  | s, e :: es =>
    match next s e with
    | none => none
    | some s' => (trace next s' es).map fun r => (⟨s, e, s'⟩ :: r.1, r.2)

theorem run_trace_from {s₀ : σ} {next : σ → ε → Option σ} (es : List ε) :
    ∀ {hist tr : List (Move σ ε)} {s s' : σ}, Run (System.ofNext s₀ next) hist s →
      trace next s es = some (tr, s') → Run (System.ofNext s₀ next) (hist ++ tr) s' := by
  induction es with
  | nil =>
    intro hist tr s s' hr h
    cases h
    simpa using hr
  | cons e es ih =>
    intro hist tr s s' hr h
    simp only [trace] at h
    cases hn : next s e with
    | none => simp [hn] at h
    | some t =>
      simp only [hn, Option.map_eq_some_iff] at h
      obtain ⟨⟨tr', t'⟩, ht, he⟩ := h
      cases he
      have := ih (Run.snoc hr (show (System.ofNext s₀ next).step s e t from hn)) ht
      simpa using this

/-- **The computed trace of a list of events is a run.** -/
theorem run_trace {s₀ : σ} {next : σ → ε → Option σ} {es : List ε} {tr : List (Move σ ε)} {s : σ}
    (h : trace next s₀ es = some (tr, s)) : Run (System.ofNext s₀ next) tr s := by
  simpa using run_trace_from es (Run.nil (S := System.ofNext s₀ next) rfl) h

/-- The moves made on a list of events, and the state after them, for a list that can be run. -/
def traceOf (next : σ → ε → Option σ) (s : σ) (es : List ε) : List (Move σ ε) × σ :=
  (trace next s es).getD ([], s)

theorem run_traceOf {s₀ : σ} {next : σ → ε → Option σ} {es : List ε}
    (h : (trace next s₀ es).isSome = true) :
    Run (System.ofNext s₀ next) (traceOf next s₀ es).1 (traceOf next s₀ es).2 := by
  obtain ⟨r, hr⟩ := Option.isSome_iff_exists.mp h
  rw [traceOf, hr]
  exact run_trace hr

end Transition
