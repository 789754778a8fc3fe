import DesignTokens.ModeSet
import DesignTokens.Proofs.Reached
import Mathlib.Data.List.Induction

/-! Parity of modes. Validation tells one error for each pair of a mode and a name that another mode
defines and this one does not, by mode and then by the place where the name is first met. Which pairs
these are does not depend on the order of the modes. -/
namespace DesignTokens

/-- The names without repetition, each where it is first met. -/
def firstMet (names : List String) : List String :=
  names.foldl (fun seen name => if seen.contains name then seen else seen ++ [name]) []

theorem firstMet_append (names : List String) (name : String) :
    firstMet (names ++ [name]) =
      if name ∈ firstMet names then firstMet names else firstMet names ++ [name] := by
  rw [firstMet, List.foldl_append]
  simp [firstMet]

@[simp] theorem mem_firstMet {names : List String} {name : String} :
    name ∈ firstMet names ↔ name ∈ names := by
  induction names using List.reverseRecOn with
  | nil => simp [firstMet]
  | append_singleton names last ih =>
    rw [firstMet_append, List.mem_append, ← ih]
    split
    · next h => simp only [List.mem_singleton, iff_self_or]; rintro rfl; exact h
    · simp

/-- The names stand in the order of their first places. -/
theorem firstMet_ordered (names : List String) :
    (firstMet names).Pairwise fun a b => names.idxOf a < names.idxOf b := by
  induction names using List.reverseRecOn with
  | nil => exact List.Pairwise.nil
  | append_singleton names last ih =>
    have hold : (firstMet names).Pairwise fun a b =>
        (names ++ [last]).idxOf a < (names ++ [last]).idxOf b := by
      refine ih.imp_of_mem fun {a b} ha hb hab => ?_
      rwa [List.idxOf_append_of_mem (mem_firstMet.mp ha),
        List.idxOf_append_of_mem (mem_firstMet.mp hb)]
    rw [firstMet_append]
    -- A name that has been met keeps its place; a new one comes behind all others.
    split
    · exact hold
    · next hnew =>
      refine List.pairwise_append.mpr ⟨hold, List.pairwise_singleton _ _, fun a ha b hb => ?_⟩
      obtain rfl := List.mem_singleton.mp hb
      have ha := mem_firstMet.mp ha
      rw [List.idxOf_append_of_mem ha, List.idxOf_append_of_notMem (mt mem_firstMet.mpr hnew)]
      simpa using List.idxOf_lt_length_of_mem ha

theorem VariableSet.contains_iff {s : VariableSet} {name : String} :
    s.contains name = true ↔ name ∈ s.names := by
  simp [contains, get?, names]

@[simp] theorem VariableSet.finalize_names (s : VariableSet) : s.finalize.names = s.names := rfl

@[simp] theorem VariableSet.finalize_contains (s : VariableSet) :
    s.finalize.contains = s.contains := rfl

theorem VariableSet.contains_eq_false {s : VariableSet} {name : String} :
    s.contains name = false ↔ name ∉ s.names := by
  rw [← contains_iff, Bool.not_eq_true]

namespace ModeSet

/-- An operation on the modes of a type. The variables of a mode can be changed where they stand. -/
inductive Operation where
  | add (name : String) (s : VariableSet)
  | change (mode : String) (op : VariableSet.Operation)
  | finalize
  | validate

/-- The modes after an operation. An addition that fails leaves them as they are. -/
def perform (m : ModeSet) : Operation → ModeSet
  | .add name s =>
    match m.add name s with
    | .ok m' => m'
    | .error _ => m
  | .change mode op =>
    match m.get? mode with
    | some s => m.replace mode (s.perform op)
    | none => m
  | .finalize => m.finalize
  | .validate => m.validate.1

/-- The modes after a row of operations. -/
def run (m : ModeSet) (ops : List Operation) : ModeSet := ops.foldl perform m

theorem add_eq_ok {m m' : ModeSet} {name : String} {s : VariableSet}
    (h : m.add name s = .ok m') :
    m.finalized = false ∧ name ∉ m.names ∧ s.typePrefix = m.typePrefix ∧ s.mode = name ∧
      m' = { m with modes := m.modes ++ [(name, s)] } := by
  unfold add at h
  split at h
  · cases h
  split at h
  · cases h
  split at h
  · cases h
  split at h
  · cases h
  next hfinal hnew htype hmode =>
  cases h
  exact ⟨by simpa using hfinal, by simpa [has] using hnew, by simpa using htype,
    by simpa using hmode, rfl⟩

@[simp] theorem finalize_names (m : ModeSet) : m.finalize.names = m.names := by
  unfold finalize
  split
  · rfl
  · simp [names]

@[simp] theorem finalize_type (m : ModeSet) : m.finalize.type = m.type := by
  unfold finalize
  split <;> rfl

@[simp] theorem finalize_configured (m : ModeSet) : m.finalize.configured = m.configured := by
  unfold finalize
  split <;> rfl

@[simp] theorem finalize_typePrefix (m : ModeSet) : m.finalize.typePrefix = m.typePrefix := by
  unfold finalize
  split <;> rfl

@[simp] theorem finalize_defines (m : ModeSet) (name : String) :
    m.finalize.defines name = m.defines name := by
  unfold finalize
  split
  · rfl
  · simp [defines, List.any_map, Function.comp_def]

theorem finalize_of_finalized {m : ModeSet} (h : m.finalized = true) : m.finalize = m := by
  simp [finalize, h]

@[simp] theorem replace_names (m : ModeSet) (name : String) (s : VariableSet) :
    (m.replace name s).names = m.names := by
  simp only [names, replace, List.map_map]
  refine List.map_congr_left fun mode _ => ?_
  dsimp only [Function.comp]
  split <;> rfl

theorem perform_names_nodup {m : ModeSet} (h : m.names.Nodup) (op : Operation) :
    (m.perform op).names.Nodup := by
  cases op with
  | add name s =>
    rw [perform]
    split
    · next m' hadd =>
      obtain ⟨-, hnew, -, -, rfl⟩ := add_eq_ok hadd
      simpa [names, List.nodup_append] using ⟨h, fun a s' hs => by
        rintro rfl
        exact hnew (List.mem_map.mpr ⟨_, hs, rfl⟩)⟩
    · exact h
  | change mode op =>
    rw [perform]
    split
    · simpa using h
    · exact h
  | finalize => simpa [perform] using h
  | validate => simpa [perform, validate] using h

/-- No mode is added twice. -/
theorem run_names_nodup {m : ModeSet} (h : m.names.Nodup) (ops : List Operation) :
    (m.run ops).names.Nodup := by
  induction ops generalizing m with
  | nil => exact h
  | cons op rest ih => exact ih (perform_names_nodup h op)

/-- A mode of the type misses a name that some mode defines. -/
def Misses (m : ModeSet) (mode name : String) : Prop :=
  (∃ s, (mode, s) ∈ m.modes ∧ name ∉ s.names) ∧ ∃ owner ∈ m.modes, name ∈ owner.2.names

/-- A configured baseline that is none of the modes. -/
def LacksBaseline (m : ModeSet) : Prop :=
  (∃ text, m.configured.wanted? = some text) ∧ ∀ name ∈ m.names, m.configured ≠ .mode name

/-- All modes define the same names. -/
def SameNames (m : ModeSet) : Prop :=
  ∀ a ∈ m.modes, ∀ b ∈ m.modes, ∀ name, name ∈ a.2.names ↔ name ∈ b.2.names

/-- All names of all modes, as they are met from the first mode on. -/
def namesMet (m : ModeSet) : List String := m.modes.flatMap fun (_, s) => s.names

/-- The order of errors: by the place of the mode, then by where the name is first met. -/
def Before (m : ModeSet) (p q : String × String) : Prop :=
  m.names.idxOf p.1 < m.names.idxOf q.1 ∨
    (p.1 = q.1 ∧ m.namesMet.idxOf p.2 < m.namesMet.idxOf q.2)

/-- The modes with the names that they miss, as validation goes through them. -/
def missing (m : ModeSet) : List (String × String) :=
  m.modes.flatMap fun (mode, s) =>
    (m.allNames.filter fun name => !s.contains name).map fun name => (mode, name)

theorem mem_allNames {m : ModeSet} {name : String} :
    name ∈ m.allNames ↔ ∃ owner ∈ m.modes, name ∈ owner.2.names := by
  change name ∈ firstMet m.namesMet ↔ _
  rw [mem_firstMet, namesMet, List.mem_flatMap]

theorem mem_missing {m : ModeSet} {mode name : String} :
    (mode, name) ∈ m.missing ↔ m.Misses mode name := by
  simp only [missing, List.mem_flatMap, List.mem_map, List.mem_filter, mem_allNames,
    Bool.not_eq_true', VariableSet.contains_eq_false, Prod.exists, Prod.mk.injEq, Misses]
  constructor
  · intro h
    obtain ⟨_, s, hs, _, ⟨howner, hname⟩, rfl, rfl⟩ := h
    exact ⟨⟨s, hs, hname⟩, howner⟩
  · intro h
    obtain ⟨⟨s, hs, hname⟩, howner⟩ := h
    exact ⟨mode, s, hs, name, ⟨howner, hname⟩, rfl, rfl⟩

theorem missing_ordered {m : ModeSet} (h : m.names.Nodup) : m.missing.Pairwise m.Before := by
  refine List.pairwise_flatMap.mpr ⟨fun mode _ => ?_, ?_⟩
  · refine List.pairwise_map.mpr (List.Pairwise.filter _ ?_)
    exact (firstMet_ordered m.namesMet).imp fun hab => Or.inr ⟨rfl, hab⟩
  · have hnames : m.names.Pairwise fun a b => m.names.idxOf a < m.names.idxOf b := by
      rw [List.pairwise_iff_getElem]
      intro i j hi hj hij
      rwa [h.idxOf_getElem, h.idxOf_getElem]
    have hplaces : m.modes.Pairwise fun a b => m.names.idxOf a.1 < m.names.idxOf b.1 :=
      (List.pairwise_map (f := Prod.fst)).mp hnames
    refine hplaces.imp fun {a b} hab p hp q hq => ?_
    obtain ⟨_, -, rfl⟩ := List.mem_map.mp hp
    obtain ⟨_, -, rfl⟩ := List.mem_map.mp hq
    exact Or.inl hab

theorem parityErrors_eq (m : ModeSet) :
    m.parityErrors = m.missing.map fun (mode, name) => m.missingText mode name := by
  simp [parityErrors, missing, List.map_flatMap, Function.comp_def]

theorem owners_sublist (m : ModeSet) (name : String) : (m.owners name).Sublist m.names :=
  List.filter_sublist.map _

theorem mem_owners {m : ModeSet} {mode name : String} :
    mode ∈ m.owners name ↔ ∃ s, (mode, s) ∈ m.modes ∧ name ∈ s.names := by
  simp [owners, VariableSet.contains_iff]

theorem missing_eq_nil {m : ModeSet} : m.missing = [] ↔ m.SameNames := by
  rw [List.eq_nil_iff_forall_not_mem]
  constructor
  · intro h a ha b hb name
    -- A name of one mode that another lacks would be a pair that is missing.
    have hsub : ∀ a ∈ m.modes, ∀ b ∈ m.modes, name ∈ a.2.names → name ∈ b.2.names := by
      intro a ha b hb hname
      by_contra hnot
      exact h (b.1, name) (mem_missing.mpr ⟨⟨b.2, hb, hnot⟩, a, ha, hname⟩)
    exact ⟨hsub a ha b hb, hsub b hb a ha⟩
  · intro h pair hpair
    obtain ⟨⟨s, hs, hnot⟩, owner, howner, hname⟩ := mem_missing.mp hpair
    exact hnot ((h owner howner _ hs pair.2).mp hname)

theorem baselineErrors_of_lacks {m : ModeSet} (h : m.LacksBaseline) :
    ∃ text, m.configured.wanted? = some text ∧
      m.baselineErrors = [s!"Baseline mode \"{text}\" of type \"{m.type}\" is not defined"] := by
  obtain ⟨⟨text, htext⟩, hnone⟩ := h
  refine ⟨text, htext, ?_⟩
  have hnot : ¬ (m.configured = .mode text ∧ m.has text = true) := fun hmode =>
    hnone text (by simpa [has] using hmode.2) hmode.1
  simp only [baselineErrors, htext, if_neg hnot]

theorem baselineErrors_eq_nil {m : ModeSet} : m.baselineErrors = [] ↔ ¬ m.LacksBaseline := by
  constructor
  · intro h hlacks
    obtain ⟨text, -, he⟩ := baselineErrors_of_lacks hlacks
    simp [he] at h
  · intro h
    unfold baselineErrors
    cases hwanted : m.configured.wanted? with
    | none => rfl
    | some text =>
      have hmode : ∃ name ∈ m.names, m.configured = .mode name := by
        by_contra hnone
        exact h ⟨⟨text, hwanted⟩, fun name hname he => hnone ⟨name, hname, he⟩⟩
      obtain ⟨name, hname, he⟩ := hmode
      have hsame : name = text := by
        rw [he] at hwanted
        unfold Baseline.wanted? at hwanted
        split at hwanted <;> simp_all
      subst hsame
      exact if_pos ⟨he, by simpa [has] using hname⟩

/-- Finalizing a type changes no names, so it tells the same of them. -/
theorem finalize_tells (m : ModeSet) :
    m.finalize.missing = m.missing ∧ m.finalize.baselineErrors = m.baselineErrors ∧
      m.finalize.missingText = m.missingText := by
  refine ⟨?_, ?_, ?_⟩
  · unfold finalize
    split
    · rfl
    · simp [missing, allNames, List.flatMap_map]
  · simp [baselineErrors, has]
  · funext mode name
    unfold finalize
    split
    · rfl
    · simp [missingText, owners, List.filter_map, Function.comp_def]

theorem validate_errors (m : ModeSet) :
    m.validate.2.errors =
      m.baselineErrors ++ m.missing.map fun (mode, name) => m.missingText mode name := by
  obtain ⟨hmissing, hbaseline, htext⟩ := m.finalize_tells
  rw [← hmissing, ← hbaseline, ← htext, ← parityErrors_eq]
  rfl

theorem validate_isValid {m : ModeSet} :
    m.validate.2.isValid = true ↔ ¬ m.LacksBaseline ∧ m.SameNames := by
  rw [Validation.isValid, List.isEmpty_iff, validate_errors, List.append_eq_nil_iff,
    List.map_eq_nil_iff, baselineErrors_eq_nil, missing_eq_nil]

section Reordering

variable {m m' : ModeSet} (hmodes : m'.modes.Perm m.modes)
include hmodes

theorem misses_of_perm {mode name : String} (h : m'.Misses mode name) : m.Misses mode name := by
  obtain ⟨⟨s, hs, hname⟩, owner, howner, hdefined⟩ := h
  exact ⟨⟨s, hmodes.mem_iff.mp hs, hname⟩, owner, hmodes.mem_iff.mp howner, hdefined⟩

theorem lacksBaseline_of_perm (hconfigured : m'.configured = m.configured)
    (h : m'.LacksBaseline) : m.LacksBaseline := by
  obtain ⟨htext, hnone⟩ := h
  rw [hconfigured] at htext hnone
  exact ⟨htext, fun name hname => hnone name ((hmodes.map Prod.fst).mem_iff.mpr hname)⟩

theorem sameNames_of_perm (h : m'.SameNames) : m.SameNames := fun a ha b hb =>
  h a (hmodes.mem_iff.mpr ha) b (hmodes.mem_iff.mpr hb)

end Reordering

/-- Validation tells parity exactly, after any run of operations on a fresh type. The error about a
baseline that is no mode comes first, then one error for each mode and each name that it misses, by
mode and by the first place of the name, with the modes that define it in their order. Nothing is
told exactly if the baseline is no other than a mode and all modes define the same names, and modes
in another order lead to the same verdict on the same pairs. -/
theorem run_validate_parity (type typePrefix : String) (baseline : Baseline)
    (ops : List Operation) :
    let m := (empty type typePrefix baseline).run ops
    m.validate.2.errors =
      m.baselineErrors ++ m.missing.map (fun (mode, name) => m.missingText mode name) ∧
    (m.LacksBaseline → ∃ text, m.configured.wanted? = some text ∧
      m.baselineErrors = [s!"Baseline mode \"{text}\" of type \"{m.type}\" is not defined"]) ∧
    (¬ m.LacksBaseline → m.baselineErrors = []) ∧
    (∀ mode name, (mode, name) ∈ m.missing ↔ m.Misses mode name) ∧
    m.missing.Pairwise m.Before ∧
    (∀ mode name, m.missingText mode name =
      let owners := ", ".intercalate (m.owners name)
      s!"Mode \"{mode}\" of type \"{m.type}\" is missing variable \"{name}\" (defined in: {owners})") ∧
    (∀ name, (m.owners name).Sublist m.names ∧
      ∀ mode, mode ∈ m.owners name ↔ ∃ s, (mode, s) ∈ m.modes ∧ name ∈ s.names) ∧
    (m.validate.2.isValid = true ↔ ¬ m.LacksBaseline ∧ m.SameNames) ∧
    ∀ m' : ModeSet, m'.modes.Perm m.modes → m'.configured = m.configured →
      m'.validate.2.isValid = m.validate.2.isValid ∧
        ∀ pair, pair ∈ m'.missing ↔ pair ∈ m.missing := by
  intro m
  have hnodup : m.names.Nodup :=
    run_names_nodup (m := empty type typePrefix baseline) List.nodup_nil ops
  refine ⟨validate_errors m, baselineErrors_of_lacks, baselineErrors_eq_nil.mpr,
    fun mode name => mem_missing, missing_ordered hnodup, fun mode name => rfl,
    fun name => ⟨m.owners_sublist name, fun mode => mem_owners⟩, validate_isValid,
    fun m' hmodes hconfigured => ⟨?_, fun pair => ?_⟩⟩
  · rw [Bool.eq_iff_iff, validate_isValid, validate_isValid]
    exact ⟨fun h => ⟨fun hlacks => h.1 (lacksBaseline_of_perm hmodes.symm hconfigured.symm hlacks),
        sameNames_of_perm hmodes h.2⟩,
      fun h => ⟨fun hlacks => h.1 (lacksBaseline_of_perm hmodes hconfigured hlacks),
        sameNames_of_perm hmodes.symm h.2⟩⟩
  · obtain ⟨mode, name⟩ := pair
    rw [mem_missing, mem_missing]
    exact ⟨misses_of_perm hmodes, misses_of_perm hmodes.symm⟩

end ModeSet

end DesignTokens
