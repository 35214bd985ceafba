import NixSrv.Lib.Map
import NixSrv.Lib.Transition
import NixSrv.Message

/-!
# Access control

`nix::core::Auth` and the access modifiers of routes. A call of `check_access` may write into the
table of keys, so that calls are the moves of a transition system.

* `Auth.new`, `Auth.checkAccess`, `Auth.system`: the constructor, a call and runs of calls;
* `configured`, `MayAccess`: the keys of the constructor and what they open;
* `Kept`, **`kept_of_run`**: the table keeps these keys, and holds others without a level only;
* **`governed_iff`**: when verdicts follow from the configured keys.
-/

namespace NixSrv

open Json Transition

/-- `Route::AccessModifier_t`. -/
inductive AccessModifier where
  | any
  | public_
  | apiPrivate
  | admin
  deriving DecidableEq, Repr

/-- `Auth::KeyType_t`. -/
inductive KeyType where
  /-- The value of an entry that `operator[]` makes, which is none of the enumerators. -/
  | unset
  | keyPublic
  | keyPrivate
  | keyAdmin
  | keyTest
  deriving DecidableEq, Repr

structure Auth where
  authKeys : Map String KeyType := ∅
  developmentMode : Bool

/-- What `check_access` returns, and the text it leaves in `error_msg`. -/
structure Verdict where
  authorized : Bool
  errorMsg : String := ""
  deriving DecidableEq, Repr

namespace Auth

/-- `Auth(development_mode)`. -/
def new (developmentMode : Bool) : Auth where
  authKeys :=
    if developmentMode then
      ((((∅ : Map String KeyType).insert "_development_key_" .keyTest).insert
        "_development_key_public_" .keyPublic).insert
        "_development_key_private_" .keyPrivate).insert
        "_development_key_admin_" .keyAdmin
    else ∅
  developmentMode := developmentMode

/-- The value of `auth_keys_[api_key]`. -/
def level (auth : Auth) (apiKey : String) : KeyType := (auth.authKeys.lookup apiKey).getD .unset

/-- `auth_keys_[api_key]` makes an entry where there is none. -/
def index (auth : Auth) (apiKey : String) : Auth :=
  { auth with authKeys := Map.emplace apiKey .unset auth.authKeys }

section Calls

variable [Jsoncpp]

/-- The key a request carries. -/
abbrev apiKeyOf (msg : Message) : String := msg.getString "@api_key" ""

def checkAccess (auth : Auth) (msg : Message) (route : AccessModifier) : Verdict × Auth :=
  if route = .any then ({ authorized := true }, auth)
  else
    let apiKey := apiKeyOf msg
    -- the condition on the test key is evaluated in development mode only
    let type := auth.level apiKey
    let auth := if auth.developmentMode then auth.index apiKey else auth
    if auth.developmentMode ∧ type = .keyTest then ({ authorized := true }, auth)
    else if apiKey = "" then ({ authorized := false, errorMsg := "No api_key found" }, auth)
    else if apiKey ∉ auth.authKeys then
      ({ authorized := false, errorMsg := "Invalid api_key " ++ apiKey }, auth)
    else match route with
    | .public_ => ({ authorized := true }, auth)
    | .apiPrivate =>
      ({ authorized := auth.level apiKey = .keyPrivate ∨ auth.level apiKey = .keyAdmin }, auth)
    | .admin => ({ authorized := auth.level apiKey = .keyAdmin }, auth)
    | .any => ({ authorized := false, errorMsg := "Unauthorized" }, auth)

/-- A call of `check_access`. -/
structure Call where
  msg : Message
  route : AccessModifier

/-- **Any calls, one after another**, on what the constructor makes. -/
def system (developmentMode : Bool) : System Auth Call :=
  .ofNext (.new developmentMode) fun auth c => some (auth.checkAccess c.msg c.route).2

/-- A call in a run. -/
abbrev Move := Transition.Move Auth Call

def verdictIn (m : Move) : Bool := (m.pre.checkAccess m.event.msg m.event.route).1.authorized

/-! ## What the keys open -/

/-- The level of a key given at construction. -/
def configured (developmentMode : Bool) (apiKey : String) : Option KeyType :=
  (new developmentMode).authKeys.lookup apiKey

/-- The routes a key opens. -/
def MayAccess (developmentMode : Bool) (apiKey : String) (route : AccessModifier) : Prop :=
  route = .any ∨ ∃ type, configured developmentMode apiKey = some type ∧
    ((type = .keyTest ∧ developmentMode = true) ∨ route = .public_ ∨
      (route = .apiPrivate ∧ (type = .keyPrivate ∨ type = .keyAdmin)) ∨
      (route = .admin ∧ type = .keyAdmin))

/-- The table holds the configured keys, and in development mode other keys without a level. -/
structure Kept (developmentMode : Bool) (auth : Auth) : Prop where
  mode : auth.developmentMode = developmentMode
  keys : ∀ k, auth.authKeys.lookup k = configured developmentMode k ∨
    developmentMode = true ∧ configured developmentMode k = none ∧
      auth.authKeys.lookup k = some .unset

/-- A key that was not configured is tried on a public route in development mode. -/
def TriesUnknown (developmentMode : Bool) (apiKey : String) (route : AccessModifier) : Prop :=
  developmentMode = true ∧ route = .public_ ∧ apiKey ≠ "" ∧ configured developmentMode apiKey = none

instance (d : Bool) (apiKey : String) (route : AccessModifier) :
    Decidable (TriesUnknown d apiKey route) := by
  unfold TriesUnknown; infer_instance

omit [Jsoncpp] in
theorem configured_true (k : String) : configured true k =
    if k = "_development_key_admin_" then some .keyAdmin
    else if k = "_development_key_private_" then some .keyPrivate
    else if k = "_development_key_public_" then some .keyPublic
    else if k = "_development_key_" then some .keyTest else none := by
  simp only [configured, new, if_true, Map.lookup_insert, AList.lookup_empty]

omit [Jsoncpp] in
@[simp] theorem configured_false (k : String) : configured false k = none := by
  simp [configured, new]

omit [Jsoncpp] in
@[simp] theorem configured_empty (d : Bool) : configured d "" = none := by
  cases d with
  | false => exact configured_false ""
  | true => rw [configured_true]; decide

/-! ## The table over a run -/

omit [Jsoncpp] in
theorem Kept.new (d : Bool) : Kept d (new d) := ⟨rfl, fun _ => Or.inl rfl⟩

omit [Jsoncpp] in
theorem Kept.index {d : Bool} {auth : Auth} (h : Kept d auth) (hd : d = true) (k : String) :
    Kept d (auth.index k) := by
  refine ⟨h.mode, fun k' => ?_⟩
  have hl : (auth.index k).authKeys.lookup k' =
      if k' = k then some (auth.level k) else auth.authKeys.lookup k' :=
    Map.lookup_emplace _ _ _ _
  rw [hl]
  split_ifs with he
  · subst he
    cases hc : configured d k' with
    | some type =>
      have hk := (h.keys k').resolve_right fun hn => by simp [hc] at hn
      exact Or.inl (by rw [level, hk, hc]; rfl)
    | none =>
      refine Or.inr ⟨hd, rfl, ?_⟩
      rcases h.keys k' with hk | ⟨-, -, hk⟩
      · rw [level, hk, hc]; rfl
      · rw [level, hk]; rfl
  · exact h.keys k'

/-- A call leaves the table as it is, or makes an entry for its key in development mode. -/
theorem checkAccess_table (auth : Auth) (msg : Message) (route : AccessModifier) :
    (auth.checkAccess msg route).2 = auth ∨ auth.developmentMode = true ∧
      (auth.checkAccess msg route).2 = auth.index (apiKeyOf msg) := by
  unfold checkAccess
  by_cases hd : auth.developmentMode = true
  · by_cases hr : route = .any
    · exact Or.inl (by simp [hr])
    · refine Or.inr ⟨hd, ?_⟩
      simp only [if_neg hr, if_pos hd]
      split_ifs <;> first | rfl | (cases route <;> rfl)
  · refine Or.inl ?_
    simp only [if_neg hd]
    split_ifs <;> first | rfl | (cases route <;> rfl)

/-- **Every run keeps the configured keys in the table.** -/
theorem kept_of_run {d : Bool} {tr : List Move} {auth : Auth} (hr : Run (system d) tr auth) :
    Kept d auth := by
  refine hr.state_invariant (I := Kept d) ?_ ?_
  · rintro _ rfl
    exact Kept.new d
  · intro auth c auth' h hs
    cases hs
    rcases checkAccess_table auth c.msg c.route with he | ⟨hd, he⟩
    · rwa [he]
    · rw [he]
      exact h.index (h.mode ▸ hd) _

/-! ## Verdicts -/

omit [Jsoncpp] in
theorem level_index (auth : Auth) (k : String) : (auth.index k).level k = auth.level k := by
  rw [level, index, Map.lookup_emplace, if_pos rfl]
  rfl

omit [Jsoncpp] in
theorem mem_index (auth : Auth) (k : String) : k ∈ (auth.index k).authKeys :=
  Map.mem_emplace.mpr (Or.inl rfl)

/-- What a call answers, by the entry of its key. In development mode every key has an entry. -/
theorem checkAccess_authorized (auth : Auth) (msg : Message) {route : AccessModifier}
    (hr : route ≠ .any) : (auth.checkAccess msg route).1.authorized = true ↔
      (auth.developmentMode = true ∧ auth.level (apiKeyOf msg) = .keyTest) ∨
      (apiKeyOf msg ≠ "" ∧ (auth.developmentMode = true ∨ apiKeyOf msg ∈ auth.authKeys) ∧
        (route = .public_ ∨
          (route = .apiPrivate ∧ (auth.level (apiKeyOf msg) = .keyPrivate ∨
            auth.level (apiKeyOf msg) = .keyAdmin)) ∨
          (route = .admin ∧ auth.level (apiKeyOf msg) = .keyAdmin))) := by
  unfold checkAccess
  generalize apiKeyOf msg = k
  by_cases hd : auth.developmentMode = true
  · have hlevel := level_index auth k
    have hmem := mem_index auth k
    have hmode : (auth.index k).developmentMode = true := hd
    by_cases ht : auth.level k = .keyTest
    · simp [hr, hd, hmode, ht]
    by_cases hk : k = ""
    · subst hk
      simp [hr, hd, hmode, ht]
    · cases route <;> simp_all
  · by_cases hk : k = ""
    · simp [hr, hd, hk]
    · by_cases hm : k ∈ auth.authKeys
      · cases route <;> simp_all
      · simp [hr, hd, hk, hm]

/-- **What a call answers while the table keeps the configured keys.** -/
theorem authorized_iff {d : Bool} {auth : Auth} (h : Kept d auth) (msg : Message)
    (route : AccessModifier) : (auth.checkAccess msg route).1.authorized = true ↔
      MayAccess d (apiKeyOf msg) route ∨ TriesUnknown d (apiKeyOf msg) route := by
  by_cases hany : route = .any
  · simp [checkAccess, MayAccess, hany]
  rw [checkAccess_authorized auth msg hany, h.mode]
  generalize apiKeyOf msg = k
  cases hc : configured d k with
  | some type =>
    have hl : auth.authKeys.lookup k = some type :=
      ((h.keys k).resolve_right fun hn => by simp [hc] at hn).trans hc
    have hlevel : auth.level k = type := by rw [level, hl]; rfl
    have hmem : k ∈ auth.authKeys := Map.mem_of_lookup hl
    have hne : k ≠ "" := by
      rintro rfl
      simp at hc
    simp only [MayAccess, TriesUnknown, hc, hlevel, hany, hmem]
    simp [hne, and_comm]
  | none =>
    have hlevel : auth.level k = .unset := by
      rcases h.keys k with hk | ⟨-, -, hk⟩
      · rw [level, hk, hc]; rfl
      · rw [level, hk]; rfl
    have hmem : d = true ∨ k ∉ auth.authKeys := by
      rcases h.keys k with hk | ⟨hd, -, -⟩
      · exact Or.inr (AList.lookup_eq_none.mp (hk.trans hc))
      · exact Or.inl hd
    simp only [MayAccess, TriesUnknown, hc, hlevel, hany]
    cases d with
    | true => simp [and_comm]
    | false =>
      have hno : k ∉ auth.authKeys := hmem.resolve_left (by simp)
      simp [hno]

/-- The verdict follows from the configured keys and depends on no other call. -/
structure Governed (d : Bool) (m : Move) : Prop where
  verdict : verdictIn m = true ↔ MayAccess d (apiKeyOf m.event.msg) m.event.route
  unknown : configured d (apiKeyOf m.event.msg) = none → m.event.route ≠ .any →
    verdictIn m = false
  independent : verdictIn m =
    ((new d).checkAccess m.event.msg m.event.route).1.authorized

/-- **A verdict is governed by the configured keys exactly when the call does not try an unknown key
on a public route in development mode.** -/
theorem governed_iff_not_triesUnknown {d : Bool} {m : Move} (h : Kept d m.pre) :
    Governed d m ↔ ¬ TriesUnknown d (apiKeyOf m.event.msg) m.event.route := by
  have hv := authorized_iff h m.event.msg m.event.route
  have hnew := authorized_iff (Kept.new d) m.event.msg m.event.route
  have hnot : TriesUnknown d (apiKeyOf m.event.msg) m.event.route →
      ¬ MayAccess d (apiKeyOf m.event.msg) m.event.route := by
    rintro ⟨-, hr, -, hc⟩ (ha | ⟨type, ht, -⟩)
    · rw [hr] at ha; cases ha
    · rw [hc] at ht; cases ht
  constructor
  · intro hg ht
    exact hnot ht (hg.verdict.mp (hv.mpr (Or.inr ht)))
  · intro ht
    have hverdict : verdictIn m = true ↔ MayAccess d (apiKeyOf m.event.msg) m.event.route :=
      hv.trans (or_iff_left ht)
    refine ⟨hverdict, fun hc hr => ?_, ?_⟩
    · rw [Bool.eq_false_iff, ne_eq, hverdict]
      rintro (ha | ⟨type, htype, -⟩)
      · exact hr ha
      · rw [hc] at htype; cases htype
    · exact Bool.eq_iff_iff.mpr (hverdict.trans (hnew.trans (or_iff_left ht)).symm)

/-- **Verdicts follow from the configured keys alone in a sequence of calls exactly when none of
them tries an unknown key on a public route in development mode.** -/
theorem governed_iff {d : Bool} {tr : List Move} {auth : Auth} (hr : Run (system d) tr auth) :
    EachMove (fun _ m => Governed d m) tr ↔
      EachMove (fun _ m => ¬ TriesUnknown d (apiKeyOf m.event.msg) m.event.route) tr :=
  hr.eachMove_iff fun _ _ _ _ hr _ _ => governed_iff_not_triesUnknown (kept_of_run hr)

end Calls

section Sample

attribute [local instance] Jsoncpp.integral

/-- A call with the given key. -/
def callWith (apiKey : String) (route : AccessModifier) : Call :=
  ⟨.ofMembers [("@api_key", .string apiKey)], route⟩

/-- The moves of the calls in development mode. -/
def movesOf (calls : List Call) : List Move :=
  (traceOf (fun auth c => some (auth.checkAccess c.msg c.route).2) (.new true) calls).1

theorem governed_iff_twoCalls :
    EachMove (fun _ m => Governed true m)
      (movesOf [callWith "x" .admin, callWith "_development_key_private_" .apiPrivate]) :=
  (governed_iff (run_traceOf (by decide))).mpr (by decide)

/-- A key that was not configured opens a public route in development mode. -/
theorem not_governed_unknownKey :
    ∃ auth, Run (system true) (movesOf [callWith "x" .public_]) auth ∧
      configured true "x" = none ∧ (movesOf [callWith "x" .public_]).map verdictIn = [true] ∧
      ¬ EachMove (fun _ m => Governed true m) (movesOf [callWith "x" .public_]) := by
  have hr : Run (system true) (movesOf [callWith "x" .public_]) _ := run_traceOf (by decide)
  refine ⟨_, hr, by decide, by decide, fun h => ?_⟩
  have htries : EachMove (fun _ m => ¬ TriesUnknown true (apiKeyOf m.event.msg) m.event.route)
      (movesOf [callWith "x" .public_]) :=
    hr.eachMove_imp (fun _ _ _ _ hr _ _ _ => (governed_iff_not_triesUnknown (kept_of_run hr)).mp) h
  exact absurd htries (by decide)

end Sample

end Auth

end NixSrv
