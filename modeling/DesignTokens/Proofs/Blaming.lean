import DesignTokens.Proofs.Gathering

/-! What to blame where the modes of a type cannot be built. Modes are built one after the other, and
the overlays of a mode are read and added in their order. Building ends at the first overlay that
cannot be read, whose tree does not fit or whose tokens cannot be named, and tells where that overlay
stands in the second case.
The type itself takes every mode that is built for it, unless its prefix differs from itself. -/
namespace DesignTokens

/-- Whether a cause is that a set or a type is not used as its life goes: it is closed already, or
the mode is there or belongs elsewhere. -/
def Cause.IsLifecycle : Cause → Prop
  | .variablesFinalized .. => True
  | .modesFinalized .. => True
  | .duplicateMode .. => True
  | .prefixMismatch .. => True
  | .modeMismatch .. => True
  | _ => False

theorem Cause.not_isLifecycle_of_isResolution {cause : Cause} (h : cause.isResolution = true) :
    ¬ cause.IsLifecycle := by
  cases cause <;> simp_all [isResolution, IsLifecycle]

namespace VariableSet

variable {s : VariableSet}

theorem addAll_finalized (h : s.finalized = false) (trees : List Value) :
    (s.addAll trees).set.finalized = false :=
  addAll_preserves (P := fun s => s.finalized = false) (fun _ _ _ h _ => h) s trees h

theorem addAll_mode (s : VariableSet) (trees : List Value) :
    (s.addAll trees).set.mode = s.mode :=
  addAll_preserves (P := fun s' => s'.mode = s.mode) (fun _ _ _ h _ => h) s trees rfl

/-- The trees of a row are all added exactly if the first one is, and then the others. -/
theorem addAll_cons (s : VariableSet) (tree : Value) (rest : List Value) :
    (s.addAll (tree :: rest)).failure = none ↔
      (s.add tree).failure = none ∧ ((s.add tree).set.addAll rest).failure = none := by
  rw [addAll]
  cases h : (s.add tree).failure <;> simp [h]

theorem addAll_cons_set {tree : Value} {rest : List Value} (h : (s.add tree).failure = none) :
    (s.addAll (tree :: rest)).set = ((s.add tree).set.addAll rest).set := by
  simp [addAll, h]

/-- A mapping that an open set does not take does not resolve, or one of its keys has no text. -/
theorem add_map_refused (hopen : s.finalized = false) {es : List (Value × Value)}
    {failure : Failure} (h : (s.add (.map es)).failure = some failure) :
    (∃ cause : Cause, cause.isResolution = true ∧ failure = .of cause) ∨
      s.LacksKey es ∧ failure = .value .unwritableInteger := by
  rcases add_map_cases hopen es with ⟨hnone, -⟩ | ⟨n, failure', ⟨hends, -⟩, hsome, -⟩
  · simp [hnone] at h
  · obtain rfl : failure' = failure := Option.some.inj (hsome.symm.trans h)
    cases hends with
    | @leaf cause hstop _ => exact Or.inl ⟨cause, by cases hstop <;> rfl, rfl⟩
    | key => exact Or.inr ⟨(add_map_eq_fault.mp h).1, rfl⟩

end VariableSet

namespace TypeSource

/-- The tokens of a tree can be named as far as the prefix is concerned: it has a text, or there are
none. -/
def Names (s : TypeSource) (tree : Value) : Prop :=
  s.typePrefix.hasText = true ∨ leavesAt [] tree = []

section Trees

variable {s : TypeSource} {v : VariableSet} {tree : Value}

theorem addTree_of_names (h : s.Names tree) : s.addTree v tree = v.add tree :=
  if_pos (by simpa [Names] using h)

theorem addTree_eq_none : (s.addTree v tree).failure = none ↔
    s.Names tree ∧ (v.add tree).failure = none := by
  by_cases h : s.Names tree
  · simp [addTree_of_names h, h]
  · have hguard : ¬ (s.typePrefix.hasText || (leavesAt [] tree).isEmpty) = true := by
      simpa [Names] using h
    simp [addTree, hguard, h]

/-- What is not added for another reason than a fault does not resolve. -/
theorem addTree_refused (hopen : v.finalized = false) {es : List (Value × Value)}
    {failure : Failure} (h : (s.addTree v (.map es)).failure = some failure) :
    (∃ cause : Cause, cause.isResolution = true ∧ failure = .of cause ∧ s.Names (.map es) ∧
      (v.add (.map es)).failure = some failure) ∨
      s.LacksText v es ∧ failure = .value .unwritableInteger := by
  cases failure with
  | fault f =>
    obtain ⟨htext, rfl⟩ := addTree_eq_fault.mp h
    exact Or.inr ⟨htext, rfl⟩
  | token e =>
    by_cases hnames : s.Names (.map es)
    · rw [addTree_of_names hnames] at h
      obtain ⟨cause, hcause, he⟩ | ⟨-, he⟩ := v.add_map_refused hopen h
      · exact Or.inl ⟨cause, hcause, he, hnames, h⟩
      · cases he
    · have hguard : ¬ (s.typePrefix.hasText || (leavesAt [] (.map es)).isEmpty) = true := by
        simpa [Names] using hnames
      simp [addTree, hguard, Failure.value] at h

end Trees

theorem exists_baselineOf {baseline : Value} :
    (∃ configured, baselineOf baseline = .ok configured) ↔ baseline.isKey = true := by
  obtain ⟨hkey, h⟩ | ⟨hkey, h⟩ := baselineOf_cases baseline
  · simp [hkey, h]
  · simp [hkey, h]

theorem baselineOf_eq_error {baseline : Value} {failure : Failure} :
    baselineOf baseline = .error failure ↔
      baseline.isKey = false ∧ failure = .kind (.notAKey baseline.kind) := by
  obtain ⟨hkey, h⟩ | ⟨hkey, configured, h⟩ := baselineOf_cases baseline
  · simp [hkey, h, Failure.kind, eq_comm]
  · simp [hkey, h]

theorem kept_nodup {s : TypeSource} {skip : List String} (hnames : (s.modes.map (·.1)).Nodup) :
    ((s.kept skip).map (·.1)).Nodup :=
  (List.filter_sublist.map _).nodup hnames

section Refusals

variable [Yaml.Library] {t : FileTree} {s : TypeSource} {strict : Bool}

/-- Some overlays give variables: each holds a tree whose tokens can be named, and a set takes these
trees in turn. -/
def Folds (t : FileTree) (s : TypeSource) (v : VariableSet) (paths : List Path) (v' : VariableSet) :
    Prop :=
  ∃ trees, List.Forall₂ (fun path tree => (loadOverlay t path).outcome = .ok tree) paths trees ∧
    (∀ tree ∈ trees, s.Names tree) ∧ (v.addAll trees).failure = none ∧ v' = (v.addAll trees).set

/-- A mode has variables: its overlays give them to a fresh set. -/
def Gives (s : TypeSource) (t : FileTree) (strict : Bool) (mode : String × List Path)
    (v : VariableSet) : Prop :=
  Folds t s (VariableSet.empty mode.1 s.typePrefix.plain strict) mode.2 v

/-- An overlay of a mode is refused: it cannot be read, its tree does not resolve, which is told with
the place of the overlay, or the prefix or a key has no text to name its tokens by. -/
inductive Refused (s : TypeSource) (t : FileTree) (mode : String) (v : VariableSet) (path : Path) :
    Failure → Prop where
  | unread {failure : Failure} (hload : (loadOverlay t path).outcome = .error failure) :
      Refused s t mode v path failure
  | unresolved {tree : Value} {cause : Cause} (hload : (loadOverlay t path).outcome = .ok tree)
      (hnames : s.Names tree) (hadd : (v.add tree).failure = some (.of cause))
      (hcause : cause.isResolution = true) :
      Refused s t mode v path (.token ⟨cause, some ⟨some s.type, some mode, some path⟩⟩)
  | unwritten {es : List (Value × Value)} (hload : (loadOverlay t path).outcome = .ok (.map es))
      (htext : s.LacksText v es) : Refused s t mode v path (.value .unwritableInteger)

/-- An overlay is the first one to be refused, in the order of modes and then of overlays. -/
inductive FirstRefused (s : TypeSource) (t : FileTree) (skip : List String) (strict : Bool) :
    Failure → Prop where
  | overlay {before after : List (String × List Path)} {mode : String} {earlier later : List Path}
      {path : Path} {v : VariableSet} {failure : Failure}
      (hmodes : s.kept skip = before ++ (mode, earlier ++ path :: later) :: after)
      (hbefore : ∀ m ∈ before, ∃ w, s.Gives t strict m w)
      (hequal : before = [] ∨ isUnequal s.typePrefix = false)
      (hearlier : s.Gives t strict (mode, earlier) v)
      (hrefused : s.Refused t mode v path failure) : FirstRefused s t skip strict failure

section Overlays

variable {v v' : VariableSet} {path : Path} {failure : Failure}

theorem addOverlay_eq_ok_iff :
    (addOverlay t s v path).outcome = .ok v' ↔
      ∃ tree, (loadOverlay t path).outcome = .ok tree ∧ s.Names tree ∧
        (v.add tree).failure = none ∧ v' = (v.add tree).set := by
  unfold addOverlay
  simp only [Noted.outcome_bind, Noted.outcome_warnAll, bind_eq_ok]
  refine exists_congr fun tree => and_congr_right fun _ => ?_
  rw [← and_assoc, ← addTree_eq_none]
  cases hadd : (s.addTree v tree).failure with
  | none =>
    rw [addTree_of_names (addTree_eq_none.mp hadd).1]
    simp [eq_comm]
  | some failure => cases failure <;> simp

theorem foldlM_addOverlay_eq_ok {paths : List Path} :
    (paths.foldlM (addOverlay t s) v).outcome = .ok v' ↔ Folds t s v paths v' := by
  induction paths generalizing v with
  | nil =>
    constructor
    · intro h
      cases h
      exact ⟨[], .nil, by simp, rfl, rfl⟩
    · rintro ⟨_, ⟨⟩, -, -, rfl⟩
      rfl
  | cons path rest ih =>
    simp only [List.foldlM_cons, Noted.outcome_bind, bind_eq_ok, ih, addOverlay_eq_ok_iff]
    constructor
    · rintro ⟨_, ⟨tree, hload, hname, hadd, rfl⟩, trees, hloads, hnames, hadds, rfl⟩
      exact ⟨tree :: trees, .cons hload hloads, List.forall_mem_cons.mpr ⟨hname, hnames⟩,
        (v.addAll_cons _ _).mpr ⟨hadd, hadds⟩, (VariableSet.addAll_cons_set hadd).symm⟩
    · rintro ⟨_, _ | ⟨hload, hloads⟩, hnames, hadds, rfl⟩
      obtain ⟨hname, hnames⟩ := List.forall_mem_cons.mp hnames
      obtain ⟨hadd, hadds⟩ := (v.addAll_cons _ _).mp hadds
      exact ⟨_, ⟨_, hload, hname, hadd, rfl⟩, _, hloads, hnames, hadds,
        VariableSet.addAll_cons_set hadd⟩

theorem addOverlay_eq_error (hopen : v.finalized = false) :
    (addOverlay t s v path).outcome = .error failure ↔
      s.Refused t v.mode v path failure := by
  unfold addOverlay
  simp only [Noted.outcome_bind, Noted.outcome_warnAll, ok_bind, bind_eq_error]
  constructor
  · rintro (h | ⟨tree, hload, h⟩)
    · exact .unread h
    obtain ⟨es, rfl⟩ := loadOverlay_map hload
    cases hadd : (s.addTree v (.map es)).failure with
    | none => simp [hadd] at h
    | some failure =>
      obtain ⟨cause, hcause, rfl, hnames, hadd'⟩ | ⟨htext, rfl⟩ := addTree_refused hopen hadd
      · simp only [hadd, Failure.of, hcause, if_true, Noted.outcome_fail, Except.error.injEq] at h
        rw [← h]
        exact .unresolved hload hnames hadd' hcause
      · simp only [hadd, Failure.value, Noted.outcome_fail, Except.error.injEq] at h
        rw [← h]
        exact .unwritten hload htext
  · intro h
    cases h with
    | unread hload => exact Or.inl hload
    | @unresolved tree cause hload hnames hadd hcause =>
      refine Or.inr ⟨tree, hload, ?_⟩
      simp [addTree_of_names hnames, hadd, Failure.of, hcause, TokenError.located]
    | @unwritten es hload htext =>
      refine Or.inr ⟨.map es, hload, ?_⟩
      simp [addTree_eq_fault.mpr ⟨htext, rfl⟩, Failure.value]

end Overlays

theorem flatten_eq_ok {mode : String × List Path} {v : VariableSet} :
    s.flatten t strict mode = .ok v ↔ s.Gives t strict mode v :=
  foldlM_addOverlay_eq_ok

/-- What overlays give to an open set is open, and of the same mode. -/
theorem Folds.open {v v' : VariableSet} {paths : List Path} (h : Folds t s v paths v')
    (hopen : v.finalized = false) : v'.finalized = false ∧ v'.mode = v.mode := by
  obtain ⟨trees, -, -, -, rfl⟩ := h
  exact ⟨v.addAll_finalized hopen trees, v.addAll_mode trees⟩

/-- A mode has no variables exactly if one of its overlays is refused where those before it give
variables. -/
theorem flatten_eq_error {mode : String × List Path} {failure : Failure} :
    s.flatten t strict mode = .error failure ↔
      ∃ earlier path later v, mode.2 = earlier ++ path :: later ∧
        s.Gives t strict (mode.1, earlier) v ∧ s.Refused t mode.1 v path failure := by
  rw [flatten, Noted.foldlM_outcome_eq_error]
  refine exists_congr fun earlier => exists_congr fun path => exists_congr fun later =>
    exists_congr fun v => and_congr_right fun _ => ?_
  rw [foldlM_addOverlay_eq_ok]
  refine and_congr_right fun hfolds => ?_
  obtain ⟨hopen, hmode⟩ := hfolds.open rfl
  rw [addOverlay_eq_error hopen, hmode]
  rfl

/-- A mode with a name of its own is refused exactly if it has no variables, or has some and the
prefix differs from itself. -/
theorem addMode_eq_error {m : ModeSet} {mode : String × List Path} {failure : Failure}
    (hfinal : m.finalized = false) (htype : m.typePrefix = s.typePrefix.plain)
    (hnew : mode.1 ∉ m.names) :
    (addMode t s strict m mode).outcome = .error failure ↔
      s.flatten t strict mode = .error failure ∨
        (∃ v, s.Gives t strict mode v) ∧ isUnequal s.typePrefix = true ∧
          failure = .of (.prefixMismatch mode.1 s.typePrefix.plain s.type s.typePrefix.plain) := by
  have hstart : VariableSet.empty mode.1 m.typePrefix strict =
      VariableSet.empty mode.1 s.typePrefix.plain strict := by rw [htype]
  unfold addMode
  simp only [Noted.outcome_bind, bind_eq_error, hstart, ← flatten_eq_ok]
  refine or_congr_right ?_
  rw [← exists_and_right]
  refine exists_congr fun v => and_congr_right fun hv => ?_
  obtain ⟨hmode, hsame⟩ := flatten_mode hv
  have hadd := ModeSet.add_of_new hfinal hnew (hsame.trans htype.symm) hmode
  cases isUnequal s.typePrefix with
  | true => simp [htype, eq_comm]
  | false => simp [hadd]

/-- The modes of a type are refused exactly at the first overlay that is, or at the first mode if the
prefix differs from itself. -/
theorem foldlM_addMode_eq_error {modes : List (String × List Path)} {failure : Failure}
    (hnames : (modes.map (·.1)).Nodup) :
    (modes.foldlM (addMode t s strict) (.empty s.type s.typePrefix.plain .unset)).outcome =
        .error failure ↔
      ∃ before mode after, modes = before ++ mode :: after ∧
        (∀ m ∈ before, ∃ v, s.Gives t strict m v) ∧
        (before = [] ∨ isUnequal s.typePrefix = false) ∧
        (s.flatten t strict mode = .error failure ∨
          (∃ v, s.Gives t strict mode v) ∧ isUnequal s.typePrefix = true ∧
            failure = .of (.prefixMismatch mode.1 s.typePrefix.plain s.type s.typePrefix.plain)) := by
  rw [Noted.foldlM_outcome_eq_error]
  refine exists_congr fun before => exists_congr fun mode => exists_congr fun after => ?_
  rw [exists_and_left]
  refine and_congr_right fun hmodes => ?_
  subst hmodes
  have hbefore : ((ModeSet.empty s.type s.typePrefix.plain .unset).names ++
      before.map (·.1)).Nodup := by
    simpa [ModeSet.empty, ModeSet.names] using ((List.sublist_append_left _ _).map _).nodup hnames
  simp only [foldlM_addMode_eq_ok (m := ModeSet.empty s.type s.typePrefix.plain .unset) rfl rfl
    hbefore]
  have hnew {built : List (String × VariableSet)} (hbuilt : List.Forall₂ (fun mode b =>
      b.1 = mode.1 ∧ s.flatten t strict mode = .ok b.2) before built) :
      mode.1 ∉ (s.ofModes built).names := by
    have hsame : before.map (·.1) = built.map (·.1) :=
      map_eq_map_of_forall₂ (hbuilt.imp fun mode b hb => hb.1.symm)
    rw [ModeSet.names, ofModes_modes, ← hsame]
    simp only [List.map_append, List.map_cons, List.nodup_append, List.nodup_cons] at hnames
    exact fun hmem => hnames.2.2 _ hmem _ List.mem_cons_self rfl
  constructor
  · rintro ⟨m, ⟨built, hbuilt, hequal, rfl⟩, h⟩
    refine ⟨fun mode hmode => ?_, hequal, (addMode_eq_error rfl rfl (hnew hbuilt)).mp h⟩
    obtain ⟨b, -, -, hb⟩ := exists_left_of_forall₂ hbuilt.flip hmode
    exact ⟨b.2, flatten_eq_ok.mp hb⟩
  · rintro ⟨hgives, hequal, h⟩
    obtain ⟨built, hbuilt⟩ : ∃ built, List.Forall₂ (fun mode (b : String × VariableSet) =>
        b.1 = mode.1 ∧ s.flatten t strict mode = .ok b.2) before built :=
      exists_forall₂.mpr fun mode hmode =>
        (hgives mode hmode).imp' (mode.1, ·) fun v hv => ⟨rfl, flatten_eq_ok.mpr hv⟩
    exact ⟨_, ⟨built, hbuilt, hequal, rfl⟩, (addMode_eq_error rfl rfl (hnew hbuilt)).mpr h⟩

theorem exists_flattened {modes : List (String × List Path)} :
    (∃ built : List (String × VariableSet), List.Forall₂ (fun mode b =>
      b.1 = mode.1 ∧ s.flatten t strict mode = .ok b.2) modes built) ↔
      ∀ mode ∈ modes, ∃ v, s.Gives t strict mode v := by
  rw [exists_forall₂]
  simp only [Prod.exists, exists_and_left, exists_eq_left, flatten_eq_ok]

section Build

variable {skip : List String} {baseline : Value}

theorem exists_build_eq_ok (hnames : (s.modes.map (·.1)).Nodup) :
    (∃ m, (s.build t skip strict baseline).outcome = .ok m) ↔
      (∀ mode ∈ s.kept skip, ∃ v, s.Gives t strict mode v) ∧
        (s.kept skip = [] ∨ isUnequal s.typePrefix = false) ∧ baseline.isKey = true := by
  simp only [build_eq_ok_iff hnames]
  rw [← exists_flattened, ← exists_baselineOf]
  grind

/-- Building the modes of a type fails at the first overlay that is refused. If none is, it fails
with the first mode if the prefix differs from itself, or at the end if the baseline cannot be looked
up. -/
theorem build_eq_error {failure : Failure} (hnames : (s.modes.map (·.1)).Nodup) :
    (s.build t skip strict baseline).outcome = .error failure ↔
      s.FirstRefused t skip strict failure ∨
      (∃ mode after v, s.kept skip = mode :: after ∧ s.Gives t strict mode v ∧
        isUnequal s.typePrefix = true ∧
        failure = .of (.prefixMismatch mode.1 s.typePrefix.plain s.type s.typePrefix.plain)) ∨
      (∀ mode ∈ s.kept skip, ∃ v, s.Gives t strict mode v) ∧
        (s.kept skip = [] ∨ isUnequal s.typePrefix = false) ∧ baseline.isKey = false ∧
        failure = .kind (.notAKey baseline.kind) := by
  have hfold : (s.build t skip strict baseline).outcome =
      ((s.kept skip).foldlM (addMode t s strict) (.empty s.type s.typePrefix.plain .unset)).outcome
        >>= fun m => baselineOf baseline >>= fun configured =>
          .ok { m with configured }.finalize := by
    simp only [build, Noted.outcome_bind, Noted.outcome_ofExcept, Noted.outcome_pure]
    rfl
  have hmodes {m : ModeSet} : ((s.kept skip).foldlM (addMode t s strict)
      (.empty s.type s.typePrefix.plain .unset)).outcome = .ok m ↔ _ :=
    foldlM_addMode_eq_ok rfl rfl (by simpa [ModeSet.empty, ModeSet.names] using kept_nodup hnames)
  rw [hfold, bind_eq_error, foldlM_addMode_eq_error (kept_nodup hnames)]
  constructor
  · rintro (⟨before, mode, after, hkept, hbefore, hequal, h | ⟨⟨v, hv⟩, hunequal, rfl⟩⟩ |
      ⟨m, hm, h⟩)
    · obtain ⟨earlier, path, later, v, hpaths, hearlier, hrefused⟩ := flatten_eq_error.mp h
      exact Or.inl (.overlay (by rw [hkept, ← hpaths]) hbefore hequal hearlier hrefused)
    · obtain rfl : before = [] := by simpa [hunequal] using hequal
      exact Or.inr (Or.inl ⟨mode, after, v, hkept, hv, hunequal, rfl⟩)
    · obtain ⟨built, hbuilt, hequal, -⟩ := hmodes.mp hm
      rcases bind_eq_error.mp h with h | ⟨configured, -, h⟩
      · obtain ⟨hkey, rfl⟩ := baselineOf_eq_error.mp h
        exact Or.inr (Or.inr ⟨exists_flattened.mp ⟨built, hbuilt⟩, hequal, hkey, rfl⟩)
      · cases h
  · rintro (⟨hkept, hbefore, hequal, hearlier, hrefused⟩ |
      ⟨mode, after, v, hkept, hv, hunequal, rfl⟩ | ⟨hgives, hequal, hkey, rfl⟩)
    · exact Or.inl ⟨_, _, _, hkept, hbefore, hequal,
        Or.inl (flatten_eq_error.mpr ⟨_, _, _, _, rfl, hearlier, hrefused⟩)⟩
    · exact Or.inl ⟨[], mode, after, hkept, by simp, Or.inl rfl, Or.inr ⟨⟨v, hv⟩, hunequal, rfl⟩⟩
    · obtain ⟨built, hbuilt⟩ := exists_flattened.mpr hgives
      exact Or.inr ⟨_, hmodes.mpr ⟨built, hbuilt, hequal, rfl⟩,
        bind_eq_error.mpr (Or.inl (baselineOf_eq_error.mpr ⟨hkey, rfl⟩))⟩

theorem FirstRefused.not_isLifecycle {e : TokenError}
    (h : s.FirstRefused t skip strict (.token e)) : ¬ e.cause.IsLifecycle := by
  obtain ⟨-, -, -, -, hload | ⟨-, -, -, hcause⟩⟩ := h
  · obtain ⟨fault, rfl⟩ := loadOverlay_token hload
    exact id
  · exact Cause.not_isLifecycle_of_isResolution hcause

/-- What is built depends on the modes that are kept, and on what their overlays load as. -/
theorem build_eq_of_kept {t' : FileTree} {s' : TypeSource} (htype : s'.type = s.type)
    (hsame : s'.typePrefix = s.typePrefix) (hkept : s'.kept skip = s.kept skip)
    (hload : ∀ mode ∈ s.kept skip, ∀ path ∈ mode.2, loadOverlay t' path = loadOverlay t path) :
    s'.build t' skip strict baseline = s.build t skip strict baseline := by
  have hadd : ∀ mode ∈ s.kept skip, ∀ m,
      addMode t' s' strict m mode = addMode t s strict m mode := by
    intro mode hmode m
    have htree : s'.addTree = s.addTree := by
      funext v tree
      simp only [addTree, hsame]
    have hfold (v : VariableSet) : mode.2.foldlM (addOverlay t' s') v =
        mode.2.foldlM (addOverlay t s) v := by
      refine Noted.foldlM_congr (fun path hpath v => ?_) v
      rw [addOverlay, addOverlay, hload mode hmode path hpath, htree, htype]
    simp only [addMode, htype, hsame, hfold]
  unfold build
  change ((s'.kept skip).foldlM _ _ >>= _) = ((s.kept skip).foldlM _ _ >>= _)
  rw [hkept, htype, hsame, Noted.foldlM_congr hadd]

/-- Building the modes of a type gives exactly those that are kept, in their order, each with the
variables that its overlays give, or it blames the first overlay that is refused: with the error
about the file if the overlay cannot be loaded, and with type, mode and file if its tree does not
resolve. If no overlay is refused, it fails only if the prefix differs from itself or the baseline
cannot be looked up; no mode is met twice, after the end, or under another name. What is skipped has
no influence. -/
theorem build_gives_or_blames (t : FileTree) (s : TypeSource) (skip : List String) (strict : Bool)
    (baseline : Value) (hnames : (s.modes.map (·.1)).Nodup) :
    ((∃ m, (s.build t skip strict baseline).outcome = .ok m) ↔
      (∀ mode ∈ s.kept skip, ∃ v, s.Gives t strict mode v) ∧
        (s.kept skip = [] ∨ isUnequal s.typePrefix = false) ∧ baseline.isKey = true) ∧
    (∀ m, (s.build t skip strict baseline).outcome = .ok m →
      m.finalized = true ∧ m.type = s.type ∧ m.typePrefix = s.typePrefix.plain ∧
        List.Forall₂ (fun mode b => b.1 = mode.1 ∧ ∃ v, s.Gives t strict mode v ∧ b.2 = v.finalize)
          (s.kept skip) m.modes) ∧
    (∀ failure, (s.build t skip strict baseline).outcome = .error failure ↔
      s.FirstRefused t skip strict failure ∨
      (∃ mode after v, s.kept skip = mode :: after ∧ s.Gives t strict mode v ∧
        isUnequal s.typePrefix = true ∧
        failure = .of (.prefixMismatch mode.1 s.typePrefix.plain s.type s.typePrefix.plain)) ∨
      (∀ mode ∈ s.kept skip, ∃ v, s.Gives t strict mode v) ∧
        (s.kept skip = [] ∨ isUnequal s.typePrefix = false) ∧ baseline.isKey = false ∧
        failure = .kind (.notAKey baseline.kind)) ∧
    (∀ e, (s.build t skip strict baseline).outcome = .error (.token e) →
      e.cause.IsLifecycle → isUnequal s.typePrefix = true) ∧
    ∀ (t' : FileTree) (s' : TypeSource), s'.type = s.type → s'.typePrefix = s.typePrefix →
      s'.kept skip = s.kept skip →
      (∀ mode ∈ s.kept skip, ∀ path ∈ mode.2, loadOverlay t' path = loadOverlay t path) →
        s'.build t' skip strict baseline = s.build t skip strict baseline := by
  refine ⟨exists_build_eq_ok hnames, fun m h => ?_, fun failure => build_eq_error hnames,
    fun e h hlifecycle => ?_, fun t' s' => build_eq_of_kept⟩
  · have hfinal := build_eq_ok h
    obtain ⟨built, hbuilt, -, configured, -, rfl⟩ := (build_eq_ok_iff hnames).mp h
    refine ⟨hfinal, finished_type, finished_typePrefix, ?_⟩
    rw [finished_modes, List.forall₂_map_right_iff]
    exact hbuilt.imp fun mode b hb => ⟨hb.1, b.2, flatten_eq_ok.mp hb.2, rfl⟩
  · rcases (build_eq_error hnames).mp h with h | ⟨-, -, -, -, -, hunequal, -⟩ | ⟨-, -, -, h⟩
    · exact absurd hlifecycle h.not_isLifecycle
    · exact hunequal
    · cases h

end Build

end Refusals

/-- A light mode without overlays and a dark one with a single overlay. -/
def lightAndDark : TypeSource :=
  ⟨"colors", .text "colors", ⟨"/", []⟩, [("light", []), ("dark", [⟨"/", ["dark.yaml"]⟩])],
    none, none⟩

/-- The overlay of the dark mode, whose only token refers to nothing. -/
def darkOverlay : FileTree := ⟨[(["dark.yaml"], .file "a: !ref b\n".toUTF8)]⟩

/-- The name and the path of the only token of a tree, if that token is a reference. -/
def soleReference? : Value → Option (String × String)
  | .map [(.text name, .ref path)] => some (name, path)
  | _ => none

theorem eq_of_soleReference? {v : Value} {name path : String}
    (h : soleReference? v = some (name, path)) : v = .map [(.text name, .ref path)] := by
  unfold soleReference? at h
  split at h <;> cases h
  rfl

theorem darkOverlay_loads :
    (loadOverlay darkOverlay ⟨"/", ["dark.yaml"]⟩).outcome =
      .ok (.map [(.text "a", .ref "b")]) := by
  have hsole : (loadOverlay darkOverlay ⟨"/", ["dark.yaml"]⟩).outcome.toOption.bind
      soleReference? = some ("a", "b") := by decide +kernel
  cases hload : (loadOverlay darkOverlay ⟨"/", ["dark.yaml"]⟩).outcome with
  | error failure =>
    rw [hload] at hsole
    cases hsole
  | ok tree =>
    rw [hload] at hsole
    rw [eq_of_soleReference? hsole]

theorem build_gives_or_blames_dark :
    (lightAndDark.modes.map (·.1)).Nodup ∧
    (∃ m, (lightAndDark.build darkOverlay ["dark"] true .null).outcome = .ok m) ∧
    (lightAndDark.build darkOverlay [] true .null).outcome =
      .error (.token ⟨.undefinedReference "colors-b" "dark" (some "colors-a"),
        some ⟨some "colors", some "dark", some ⟨"/", ["dark.yaml"]⟩⟩⟩) := by
  have hnames : (lightAndDark.modes.map (·.1)).Nodup := by decide
  have hempty (mode : String) : lightAndDark.Gives darkOverlay true (mode, [])
      (VariableSet.empty mode "colors" true) := ⟨[], .nil, by simp, rfl, rfl⟩
  obtain ⟨hok, -⟩ := build_gives_or_blames darkOverlay lightAndDark ["dark"] true .null hnames
  obtain ⟨-, -, herror, -⟩ := build_gives_or_blames darkOverlay lightAndDark [] true .null hnames
  refine ⟨hnames, hok.mpr ⟨fun mode hmode => ?_, Or.inr rfl, rfl⟩, (herror _).mpr (Or.inl ?_)⟩
  · obtain rfl : mode = ("light", []) := by simpa [kept, lightAndDark] using hmode
    exact ⟨_, hempty "light"⟩
  · have hkept : lightAndDark.kept [] =
        [("light", [])] ++ ("dark", [] ++ ⟨"/", ["dark.yaml"]⟩ :: []) :: [] := rfl
    refine .overlay hkept ?_ (Or.inr rfl) (hempty "dark")
      (.unresolved darkOverlay_loads (Or.inl rfl) rfl rfl)
    simpa using ⟨_, hempty "light"⟩

/-- The type with a prefix of more digits than can be written. -/
def numbered : TypeSource := { lightAndDark with typePrefix := .int (Int.ofNat (Nat.pow 16 3600)) }

/-- The token of the dark mode has no name, which is blamed on nothing. -/
theorem numbered_build :
    (numbered.build darkOverlay [] true .null).outcome = .error (.value .unwritableInteger) := by
  have hnames : (numbered.modes.map (·.1)).Nodup := by decide
  have hempty (mode : String) : numbered.Gives darkOverlay true (mode, [])
      (VariableSet.empty mode numbered.typePrefix.plain true) := ⟨[], .nil, by simp, rfl, rfl⟩
  have hkept : numbered.kept [] =
      [("light", [])] ++ ("dark", [] ++ ⟨"/", ["dark.yaml"]⟩ :: []) :: [] := rfl
  have htext : numbered.typePrefix.hasText = false := by decide +kernel
  refine (build_eq_error hnames).mpr (Or.inl (.overlay hkept ?_ (Or.inr rfl) (hempty "dark")
    (.unwritten darkOverlay_loads (Or.inl ⟨htext, by simp [leavesOf, leavesAt]⟩))))
  simpa using ⟨_, hempty "light"⟩

/-- An overlay that is missing is blamed without the type and the mode it belongs to, and a prefix
that cannot be written is blamed on no overlay. A prefix that is no number equals no prefix, so a mode
that has variables is refused; and a baseline that is a list cannot be looked up. -/
theorem build_blames_otherwise :
    (lightAndDark.build ⟨[]⟩ [] true .null).outcome =
      .error (.token ⟨.load (.unreadable ⟨.missing, ⟨"/", ["dark.yaml"]⟩⟩),
        some ⟨none, none, some ⟨"/", ["dark.yaml"]⟩⟩⟩) ∧
    (numbered.build darkOverlay [] true .null).outcome = .error (.value .unwritableInteger) ∧
    (build ⟨[]⟩ { lightAndDark with typePrefix := .float .nan } ["dark"] true .null).outcome =
      .error (.of (.prefixMismatch "light" "nan" "colors" "nan")) ∧
    (lightAndDark.build ⟨[]⟩ ["dark"] true (.list [.text "light"])).outcome =
      .error (.kind (.notAKey "list")) :=
  ⟨rfl, numbered_build, rfl, rfl⟩

end TypeSource

end DesignTokens
