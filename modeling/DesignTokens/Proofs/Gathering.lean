import DesignTokens.Proofs.Arrangement
import DesignTokens.Proofs.Collecting
import DesignTokens.Proofs.Parity

/-! What a type that loads consists of. The modes of its sources have names of their own, each mode is
flattened from its overlays by additions to a fresh set, and the modes are kept in the order of the
sources. -/
namespace DesignTokens

theorem ModeSet.add_of_new {m : ModeSet} {name : String} {v : VariableSet}
    (hfinal : m.finalized = false) (hnew : name ∉ m.names) (htype : v.typePrefix = m.typePrefix)
    (hmode : v.mode = name) : m.add name v = .ok { m with modes := m.modes ++ [(name, v)] } := by
  simp [ModeSet.add, hfinal, ModeSet.has, hnew, htype, hmode]

namespace TypeSource

variable {t : FileTree} {s : TypeSource} {strict : Bool}

/-- The modes of a type that have been flattened, as a type. -/
def ofModes (s : TypeSource) (modes : List (String × VariableSet)) : ModeSet :=
  { ModeSet.empty s.type s.typePrefix.plain .unset with modes }

/-- The modes of a type as they are built, with the baseline that is configured. -/
def finished (s : TypeSource) (modes : List (String × VariableSet)) (configured : Baseline) :
    ModeSet :=
  ModeSet.finalize { s.ofModes modes with configured }

section Finished

variable {modes : List (String × VariableSet)} {configured : Baseline}

@[simp] theorem ofModes_type : (s.ofModes modes).type = s.type := rfl

@[simp] theorem ofModes_typePrefix : (s.ofModes modes).typePrefix = s.typePrefix.plain := rfl

@[simp] theorem ofModes_modes : (s.ofModes modes).modes = modes := rfl

@[simp] theorem finished_type : (s.finished modes configured).type = s.type :=
  ModeSet.finalize_type _

@[simp] theorem finished_configured : (s.finished modes configured).configured = configured :=
  ModeSet.finalize_configured _

@[simp] theorem finished_names : (s.finished modes configured).names = modes.map (·.1) :=
  ModeSet.finalize_names _

@[simp] theorem finished_typePrefix :
    (s.finished modes configured).typePrefix = s.typePrefix.plain := rfl

theorem finished_modes :
    (s.finished modes configured).modes = modes.map fun (name, v) => (name, v.finalize) := rfl

end Finished

variable [Yaml.Library]

theorem readModes_nodup {directory : Path} {type : String} {modes : List (String × List Path)}
    (h : readModes t directory type = .ok modes) : (modes.map (·.1)).Nodup := by
  obtain ⟨rows, -, rfl⟩ := exists_offered h
  exact collected_nodup rows

theorem read_eq_ok {directory : Path} {given : Option Value}
    (h : (read t directory given).outcome = .ok s) :
    s.type = directory.name ∧ (s.modes.map (·.1)).Nodup := by
  obtain ⟨typePrefix, modes, hmodes, rfl⟩ := exists_inDirectory h
  exact ⟨rfl, readModes_nodup hmodes⟩

/-- The variables of a mode: its overlays, flattened one after the other. -/
def flatten (t : FileTree) (s : TypeSource) (strict : Bool) (mode : String × List Path) :
    Except Failure VariableSet :=
  (mode.2.foldlM (addOverlay t s)
    (VariableSet.empty mode.1 s.typePrefix.plain strict)).outcome

theorem addOverlay_eq_ok {v v' : VariableSet} {path : Path}
    (h : (addOverlay t s v path).outcome = .ok v') : ∃ tree, v' = (v.add tree).set := by
  unfold addOverlay addTree at h
  simp only [Noted.outcome_bind, Noted.outcome_warnAll, bind_eq_ok] at h
  obtain ⟨tree, -, -, -, h⟩ := h
  refine ⟨tree, ?_⟩
  split at h
  · next hnone =>
    split at hnone
    · cases h
      rw [if_pos ‹_›]
    · cases hnone
  · simp at h
  · simp at h

theorem flatten_reached {mode : String × List Path} {v : VariableSet}
    (h : s.flatten t strict mode = .ok v) :
    ∃ ops, v = (VariableSet.empty mode.1 s.typePrefix.plain strict).run ops := by
  rw [flatten, Noted.outcome_foldlM] at h
  refine foldlM_preserves
    (P := fun v => ∃ ops, v = (VariableSet.empty mode.1 s.typePrefix.plain strict).run ops)
    h ⟨[], rfl⟩ ?_
  intro v path v' hv hstep
  obtain ⟨ops, rfl⟩ := hv
  obtain ⟨tree, rfl⟩ := addOverlay_eq_ok hstep
  exact ⟨ops ++ [.add tree], by simp [VariableSet.run, VariableSet.perform]⟩

theorem flatten_mode {mode : String × List Path} {v : VariableSet}
    (h : s.flatten t strict mode = .ok v) :
    v.mode = mode.1 ∧ v.typePrefix = s.typePrefix.plain := by
  obtain ⟨ops, rfl⟩ := flatten_reached h
  exact VariableSet.run_mode_typePrefix _ ops

/-- A mode with a name of its own is added exactly if it can be flattened and the prefix is the same
as itself. -/
theorem addMode_eq_ok {m m' : ModeSet} {mode : String × List Path} (hfinal : m.finalized = false)
    (htype : m.typePrefix = s.typePrefix.plain) (hnew : mode.1 ∉ m.names) :
    (addMode t s strict m mode).outcome = .ok m' ↔
      ∃ v, s.flatten t strict mode = .ok v ∧ isUnequal s.typePrefix = false ∧
        m' = { m with modes := m.modes ++ [(mode.1, v)] } := by
  have hstart : VariableSet.empty mode.1 m.typePrefix strict =
      VariableSet.empty mode.1 s.typePrefix.plain strict := by rw [htype]
  unfold addMode
  simp only [Noted.outcome_bind, bind_eq_ok, hstart]
  refine exists_congr fun v => and_congr_right fun hv => ?_
  obtain ⟨hmode, hsame⟩ := flatten_mode hv
  have hadd := ModeSet.add_of_new hfinal hnew (hsame.trans htype.symm) hmode
  cases isUnequal s.typePrefix with
  | true => simp
  | false => simpa [hadd] using eq_comm

/-- Modes with names of their own are added exactly if each can be flattened. -/
theorem foldlM_addMode_eq_ok {m m' : ModeSet} {modes : List (String × List Path)}
    (hfinal : m.finalized = false) (htype : m.typePrefix = s.typePrefix.plain)
    (hnew : (m.names ++ modes.map (·.1)).Nodup) :
    (modes.foldlM (addMode t s strict) m).outcome = .ok m' ↔
      ∃ built, List.Forall₂ (fun mode b => b.1 = mode.1 ∧ s.flatten t strict mode = .ok b.2)
          modes built ∧
        (modes = [] ∨ isUnequal s.typePrefix = false) ∧
        m' = { m with modes := m.modes ++ built } := by
  -- The names added so far and those to come stay distinct, so that no addition meets its own name.
  induction modes generalizing m with
  | nil =>
    constructor
    · intro h
      cases h
      exact ⟨[], .nil, Or.inl rfl, by simp⟩
    · intro h
      obtain ⟨_, ⟨⟩, -, rfl⟩ := h
      simp
  | cons mode rest ih =>
    have hmode : mode.1 ∉ m.names := fun hmem =>
      (List.disjoint_of_nodup_append hnew) hmem (by simp)
    simp only [List.foldlM_cons, Noted.outcome_bind, bind_eq_ok, addMode_eq_ok hfinal htype hmode]
    constructor
    · intro h
      obtain ⟨m₁, ⟨v, hv, hequal, rfl⟩, hrest⟩ := h
      obtain ⟨built, hbuilt, -, rfl⟩ := (ih (by simpa using hfinal) (by simpa using htype)
        (by simpa [ModeSet.names] using hnew)).mp hrest
      exact ⟨(mode.1, v) :: built, .cons ⟨rfl, hv⟩ hbuilt, Or.inr hequal, by simp⟩
    · intro h
      obtain ⟨built, hbuilt, hequal, rfl⟩ := h
      cases hbuilt with
      | @cons _ b _ built hb hbuilt =>
        obtain ⟨name, v⟩ := b
        obtain ⟨rfl, hv⟩ := hb
        have hequal : isUnequal s.typePrefix = false := by simpa using hequal
        refine ⟨_, ⟨v, hv, hequal, rfl⟩, (ih (by simpa using hfinal) (by simpa using htype)
          (by simpa [ModeSet.names] using hnew)).mpr ⟨built, hbuilt, Or.inr hequal, by simp⟩⟩

/-- The modes of a type are built exactly if all that are not skipped can be flattened, the prefix of
what is built is the same as itself, and the baseline can be looked up. -/
theorem build_eq_ok_iff {skip : List String} {baseline : Value} {set : ModeSet}
    (hnames : (s.modes.map (·.1)).Nodup) :
    (s.build t skip strict baseline).outcome = .ok set ↔
      ∃ modes, List.Forall₂ (fun mode b => b.1 = mode.1 ∧ s.flatten t strict mode = .ok b.2)
          (s.kept skip) modes ∧
        (s.kept skip = [] ∨ isUnequal s.typePrefix = false) ∧
        ∃ configured, baselineOf baseline = .ok configured ∧
          set = s.finished modes configured := by
  have hkept : ((s.kept skip).map (·.1)).Nodup := (List.filter_sublist.map _).nodup hnames
  unfold build
  simp only [Noted.outcome_bind, Noted.outcome_ofExcept, Noted.outcome_pure, bind_eq_ok]
  change (∃ m, ((s.kept skip).foldlM (addMode t s strict)
    (.empty s.type s.typePrefix.plain .unset)).outcome = .ok m ∧ _) ↔ _
  simp only [foldlM_addMode_eq_ok (m := ModeSet.empty s.type s.typePrefix.plain .unset) rfl rfl
    (by simpa [ModeSet.empty, ModeSet.names] using hkept)]
  constructor
  · intro h
    obtain ⟨m, ⟨modes, hmodes, hequal, rfl⟩, configured, hbaseline, he⟩ := h
    cases he
    exact ⟨modes, hmodes, hequal, configured, hbaseline, rfl⟩
  · intro h
    obtain ⟨modes, hmodes, hequal, configured, hbaseline, rfl⟩ := h
    exact ⟨_, ⟨modes, hmodes, hequal, rfl⟩, configured, hbaseline, rfl⟩

end TypeSource

end DesignTokens
