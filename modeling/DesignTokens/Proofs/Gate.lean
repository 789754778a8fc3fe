import DesignTokens.Proofs.Containment
import DesignTokens.Proofs.Gathering
import DesignTokens.Proofs.Replacement
import DesignTokens.Proofs.Writing

/-! The build gate. A type is without errors exactly if its sources load, all its modes can be
flattened and rendered and define the same names, its baseline is one of them, and its ledgers tell
no issue. Only such types are written. -/
namespace DesignTokens

namespace ModeSet

theorem sameNames_finalize {m : ModeSet} : m.finalize.SameNames ↔ m.SameNames := by
  rw [← missing_eq_nil, ← missing_eq_nil, m.finalize_tells.1]

/-- A baseline that can be looked up is lacking unless it is not asked for or is one of the modes. -/
theorem lacksBaseline_iff {m : ModeSet} {v : Option Value}
    (h : TypeSource.baselineOf (v.getD .null) = .ok m.configured) :
    ¬ m.LacksBaseline ↔
      ∀ w, v = some w → w.truthy = true → ∃ name ∈ m.names, w = .text name := by
  have hnames : ∀ name, m.configured = .mode name →
      (¬ m.LacksBaseline ↔ (name ≠ "" → name ∈ m.names)) := by
    intro name hname
    by_cases hempty : name = ""
    · simp [LacksBaseline, hname, hempty, Baseline.wanted?]
    · have hwanted : (Baseline.mode name).wanted? = some name := by
        unfold Baseline.wanted?
        split <;> simp_all
      simp [LacksBaseline, hname, hwanted, hempty]
  cases v with
  | none =>
    have hunset : m.configured = .unset := by
      simpa [TypeSource.baselineOf, Value.isKey, Value.truthy] using h.symm
    simp [LacksBaseline, hunset, Baseline.wanted?]
  | some w =>
    by_cases htext : ∃ name, w = .text name
    · obtain ⟨name, rfl⟩ := htext
      have hmode : m.configured = .mode name := by simpa [TypeSource.baselineOf] using h.symm
      rw [hnames name hmode]
      simp [Value.truthy]
    · have hother : (if !w.isKey then .error (.kind (.notAKey w.kind))
          else .ok (if w.truthy then .foreign w.plain else .unset) : Except Failure Baseline) =
            .ok m.configured := by
        rw [← h]
        cases w <;> first | rfl | exact absurd ⟨_, rfl⟩ htext
      split at hother
      · cases hother
      · cases htruthy : w.truthy with
        | false =>
          have hunset : m.configured = .unset := by simpa [htruthy] using hother.symm
          simp [LacksBaseline, hunset, Baseline.wanted?, htruthy]
        | true =>
          have hforeign : m.configured = .foreign w.plain := by simpa [htruthy] using hother.symm
          have hnone : ∀ name, w ≠ .text name := fun name he => htext ⟨name, he⟩
          simp [LacksBaseline, hforeign, Baseline.wanted?, htruthy, hnone]

end ModeSet

namespace VariableSet

@[simp] theorem finalize_renderTree [Platform] (s : VariableSet) :
    s.finalize.renderTree = s.renderTree := rfl

end VariableSet

namespace LedgerResult

/-- A ledger file that can be read and tells no issue. -/
def Clean (t : FileTree) (m : ModeSet) (kind : LedgerKind) (path : Path) : Prop :=
  ∃ text l, t.readText path = .ok text ∧ Ledger.read text path.text = .ok l ∧
    (l.validate m kind path.text).2 = []

theorem isOk_iff_tells_nothing {l : LedgerResult}
    (h : ∀ i ∈ l.issues, ∃ text, i.message = .ok text) :
    l.isOk = true ↔ ∀ text, ¬ l.Tells text := by
  rw [isOk, Bool.and_eq_true, Option.isNone_iff_eq_none, List.isEmpty_iff]
  constructor
  · intro hclean text htells
    obtain ⟨problem, hproblem, -⟩ | ⟨i, hi, -⟩ := htells
    · simp [hclean.1] at hproblem
    · simp [hclean.2] at hi
  · intro hnone
    constructor
    · cases hproblem : l.problem with
      | none => rfl
      | some problem => exact absurd (Or.inl ⟨problem, hproblem, rfl⟩) (hnone problem.message)
    · refine List.eq_nil_iff_forall_not_mem.mpr fun i hi => ?_
      obtain ⟨text, htext⟩ := h i hi
      exact hnone text (Or.inr ⟨i, hi, htext⟩)

variable {t : FileTree} {m : ModeSet} {kind : LedgerKind} {path : Path} {l : LedgerResult}

/-- A ledger is without errors exactly if nothing is told about it, which is if its file is clean. -/
theorem check_eq_ok (h : check t m kind path = .ok l) :
    (l.kind = kind ∧ l.source = path) ∧ (l.isOk = true ↔ ∀ text, ¬ l.Tells text) ∧
      (l.isOk = true ↔ Clean t m kind path) := by
  unfold check at h
  dsimp only at h
  split at h
  · next fault hread =>
    cases h
    refine ⟨⟨rfl, rfl⟩, isOk_iff_tells_nothing (by simp), ?_⟩
    simp [isOk, Clean, hread]
  · cases h
  · next text hread =>
    split at h
    · next e hledger =>
      cases h
      refine ⟨⟨rfl, rfl⟩, isOk_iff_tells_nothing (by simp), ?_⟩
      simp [isOk, Clean, hread, hledger]
    · cases h
    · next entries hledger =>
      cases h
      refine ⟨⟨rfl, rfl⟩,
        isOk_iff_tells_nothing (Ledger.issues_message (Ledger.read_eq_ok hledger)), ?_⟩
      simp [isOk, Clean, hread, hledger]

end LedgerResult

namespace TypeResult

section Examined

variable {t : FileTree} {s : TypeSource} {modes : List (String × VariableSet)} {configured : Baseline}

theorem finished_sameNames :
    (s.finished modes configured).SameNames ↔ (s.ofModes modes).SameNames :=
  ModeSet.sameNames_finalize

theorem finished_lacksBaseline {v : Option Value}
    (h : TypeSource.baselineOf (v.getD .null) = .ok configured) :
    ¬ (s.finished modes configured).LacksBaseline ↔
      ∀ w, v = some w → w.truthy = true → ∃ mode ∈ modes, w = .text mode.1 := by
  rw [ModeSet.lacksBaseline_iff (by simpa using h)]
  simp

theorem finished_clean {kind : LedgerKind} {path : Path} :
    LedgerResult.Clean t (s.finished modes configured) kind path ↔
      LedgerResult.Clean t (s.ofModes modes) kind path := by
  have hissues : ∀ l : Ledger,
      (l.validate (s.finished modes configured) kind path.text).2 =
        (l.validate (s.ofModes modes) kind path.text).2 := by
    intro l
    have hdefines : ∀ name, (s.finished modes configured).finalize.defines name =
        (s.ofModes modes).finalize.defines name := by
      intro name
      rw [ModeSet.finalize_defines, ModeSet.finalize_defines, TypeSource.finished,
        ModeSet.finalize_defines]
      rfl
    exact Ledger.issues_congr (by simp) hdefines l kind path.text
  simp only [LedgerResult.Clean, hissues]

theorem finished_rendered [Platform] :
    (∀ mode ∈ (s.finished modes configured).modes, ∃ tree, mode.2.renderTree = .ok tree) ↔
      ∀ mode ∈ modes, ∃ tree, mode.2.renderTree = .ok tree := by
  rw [TypeSource.finished_modes, List.forall_mem_map]
  simp only [VariableSet.finalize_renderTree]

end Examined

/-- The ledgers of a type that has been examined are without errors exactly if its files are. -/
theorem ledgers_isOk_iff {set : ModeSet} {files : List (LedgerKind × Path)}
    {ledgers : List LedgerResult}
    (h : List.Forall₂ (fun file l => LedgerResult.check t set file.1 file.2 = .ok l) files ledgers) :
    ((∀ l ∈ ledgers, l.isOk = true) ↔ ∀ file ∈ files, LedgerResult.Clean t set file.1 file.2) ∧
      ((∀ l ∈ ledgers, l.isOk = true) ↔ ∀ l ∈ ledgers, ∀ text, ¬ l.Tells text) ∧
      ledgers.map (fun l => (l.kind, l.source)) = files := by
  induction h with
  | nil => simp
  | cons hcheck _ ih =>
    obtain ⟨⟨hkind, hsource⟩, htells, hclean⟩ := LedgerResult.check_eq_ok hcheck
    obtain ⟨hcleans, htold, hsources⟩ := ih
    simp only [List.forall_mem_cons, List.map_cons]
    exact ⟨and_congr hclean hcleans, and_congr htells htold, by rw [hkind, hsource, hsources]⟩

variable [Yaml.Library] {t : FileTree} {m : Manifest} {directory : Path}

theorem load_eq_ok_iff {s : TypeSource} {set : ModeSet} :
    (load t m directory).outcome = .ok (s, set) ↔
      (TypeSource.read t directory (m.settings directory.name).typePrefix).outcome = .ok s ∧
      (s.build t (m.skippedModes directory.name) m.strict
        (baselineOf m directory.name)).outcome = .ok set := by
  rw [load_outcome, bind_eq_ok]
  simp only [map_eq_ok, Prod.mk.injEq]
  constructor
  · intro h
    obtain ⟨s', hs, set', hset, rfl, rfl⟩ := h
    exact ⟨hs, hset⟩
  · exact fun h => ⟨s, h.1, set, h.2, rfl, rfl⟩

variable [Platform] {r : TypeResult}

/-- What a type brings to the gate: its sources load, its modes can be flattened and rendered and
define the same names, a baseline that is asked for is one of them, and its ledgers are clean. -/
structure Qualifies (t : FileTree) (m : Manifest) (directory : Path) (s : TypeSource)
    (modes : List (String × VariableSet)) : Prop where
  source : (TypeSource.read t directory (m.settings directory.name).typePrefix).outcome = .ok s
  flattened : List.Forall₂ (fun mode b => b.1 = mode.1 ∧ s.flatten t m.strict mode = .ok b.2)
    (s.kept (m.skippedModes directory.name)) modes
  baseline : ∀ v, (m.settings directory.name).baseline = some v → v.truthy = true →
    ∃ mode ∈ modes, v = .text mode.1
  sameNames : (s.ofModes modes).SameNames
  rendered : ∀ mode ∈ modes, ∃ tree, mode.2.renderTree = .ok tree
  ledgers : ∀ file ∈ ledgerFiles s, LedgerResult.Clean t (s.ofModes modes) file.1 file.2

/-- Everything that the gate asks of a type. The prefix of each mode is compared with that of the
type, which a prefix that is not a number does not survive. -/
structure Passes (t : FileTree) (m : Manifest) (directory : Path) (s : TypeSource)
    (modes : List (String × VariableSet)) : Prop extends Qualifies t m directory s modes where
  comparable : modes = [] ∨ TypeSource.isUnequal s.typePrefix = false

theorem Recorded.isOk_iff {s : TypeSource} {set : ModeSet} (h : Recorded t m directory r)
    (hload : (load t m directory).outcome = .ok (s, set))
    (hrender : ∀ mode ∈ set.modes, ∀ f, mode.2.renderTree ≠ .error (.fault f)) :
    r.built = some (s.typePrefix, set) ∧
      List.Forall₂ (fun file l => LedgerResult.check t set file.1 file.2 = .ok l)
        (ledgerFiles s) r.ledgers ∧
      (r.isOk = true ↔ set.validate.2.isValid = true ∧
        (∀ mode ∈ set.modes, ∃ tree, mode.2.renderTree = .ok tree) ∧
        ∀ file ∈ ledgerFiles s, LedgerResult.Clean t set file.1 file.2) := by
  cases h with
  | unloaded hnot => simp [hload] at hnot
  | @examined s' set' hload' htype hbuilt herrors hledgers =>
    obtain ⟨rfl, rfl⟩ : s = s' ∧ set = set' := by simpa [hload] using hload'
    refine ⟨hbuilt, hledgers, ?_⟩
    have hvalid : (∀ text, text ∉ set.validate.2.errors) ↔ set.validate.2.isValid = true := by
      rw [Validation.isValid, List.isEmpty_iff, List.eq_nil_iff_forall_not_mem]
    have hrendered : (∀ text, ¬ ∃ mode ∈ set.modes, ∃ e, mode.2.renderTree = .error (.token e) ∧
          text = set.renderText mode.1 e) ↔
        ∀ mode ∈ set.modes, ∃ tree, mode.2.renderTree = .ok tree := by
      constructor
      · intro hnone mode hmode
        cases htree : mode.2.renderTree with
        | ok tree => exact ⟨tree, rfl⟩
        | error failure =>
          cases failure with
          | fault f => exact absurd htree (hrender mode hmode f)
          | token e => exact absurd ⟨mode, hmode, e, htree, rfl⟩ (hnone _)
      · intro hall text htold
        obtain ⟨mode, hmode, e, he, -⟩ := htold
        obtain ⟨tree, htree⟩ := hall mode hmode
        simp [htree] at he
    obtain ⟨hclean, htells, -⟩ := ledgers_isOk_iff hledgers
    have htold : (∀ text, ¬ ∃ l ∈ r.ledgers, l.Tells text) ↔ ∀ l ∈ r.ledgers, l.isOk = true := by
      rw [htells]
      push Not
      exact ⟨fun hnone l hmem text => hnone text l hmem, fun hall text l hmem => hall l hmem text⟩
    have hempty : r.isOk = true ↔ ∀ text, text ∉ r.errors := by
      rw [isOk, hbuilt, ← List.eq_nil_iff_forall_not_mem]
      simp
    rw [hempty, ← hvalid, ← hrendered, ← hclean, ← htold,
      ← forall_and, ← forall_and]
    exact forall_congr' fun text => by rw [herrors, not_or, not_or]

/-- A type that is loaded from its sources is without errors exactly if the gate finds nothing to
object to. -/
theorem Recorded.isOk_finished {s : TypeSource} {modes : List (String × VariableSet)}
    {configured : Baseline} (h : Recorded t m directory r)
    (hescapes : ∀ f, ¬ Escapes t m directory f)
    (hconfigured : TypeSource.baselineOf (baselineOf m directory.name) = .ok configured)
    (hload : (load t m directory).outcome = .ok (s, s.finished modes configured)) :
    r.built = some (s.typePrefix, s.finished modes configured) ∧
      List.Forall₂ (fun file l =>
        LedgerResult.check t (s.finished modes configured) file.1 file.2 = .ok l)
        (ledgerFiles s) r.ledgers ∧
      (r.isOk = true ↔ ((∀ v, (m.settings directory.name).baseline = some v → v.truthy = true →
          ∃ mode ∈ modes, v = .text mode.1) ∧ (s.ofModes modes).SameNames) ∧
        (∀ mode ∈ modes, ∃ tree, mode.2.renderTree = .ok tree) ∧
        ∀ file ∈ ledgerFiles s, LedgerResult.Clean t (s.ofModes modes) file.1 file.2) := by
  have hiff := h.isOk_iff hload fun mode hmode f hf => hescapes f (.rendering hload hmode hf)
  rw [ModeSet.validate_isValid, finished_sameNames, finished_lacksBaseline hconfigured,
    finished_rendered] at hiff
  simpa only [finished_clean] using hiff

/-- What the gate asks for has been loaded, since its baseline could be looked up. -/
theorem Passes.load {s : TypeSource} {modes : List (String × VariableSet)}
    (h : Passes t m directory s modes) (hescapes : ∀ f, ¬ Escapes t m directory f) :
    ∃ configured,
      TypeSource.baselineOf (baselineOf m directory.name) = .ok configured ∧
        (load t m directory).outcome = .ok (s, s.finished modes configured) := by
  have hnames := (TypeSource.read_eq_ok h.source).2
  have hkept : ((s.kept (m.skippedModes directory.name)).map (·.1)).Nodup :=
    (List.filter_sublist.map _).nodup hnames
  have hcomparable : s.kept (m.skippedModes directory.name) = [] ∨
      TypeSource.isUnequal s.typePrefix = false :=
    h.comparable.imp_left fun hnil => by simpa [hnil] using h.flattened
  have hadded : TypeSource.added t s m.strict (s.kept (m.skippedModes directory.name)) =
      .ok (s.ofModes modes) :=
    (TypeSource.foldlM_addMode_eq_ok rfl rfl (by simpa [ModeSet.empty, ModeSet.names] using hkept)).mpr
      ⟨modes, h.flattened, hcomparable, rfl⟩
  obtain ⟨hkey, -⟩ | ⟨-, configured, hconfigured⟩ :=
    TypeSource.baselineOf_cases (baselineOf m directory.name)
  · exact absurd (.modes h.source (.baseline hadded hkey)) (hescapes _)
  · exact ⟨configured, hconfigured, load_eq_ok_iff.mpr ⟨h.source,
      (TypeSource.build_eq_ok_iff hnames).mpr
        ⟨modes, h.flattened, hcomparable, configured, hconfigured, rfl⟩⟩⟩

/-- A type passes the gate exactly if it has been built without errors; then it is complete, with its
modes and its ledgers as they are in its sources. -/
theorem isOk_iff_passes (hdir : t.isDirectory directory = true)
    (hbuild : (build t m directory).outcome = .ok r) :
    r.type = directory.name ∧ (r.isOk = true ↔ ∃ s modes, Passes t m directory s modes) ∧
      ∀ s modes, Passes t m directory s modes → ∃ configured,
        r.Complete (s.finished modes configured) ∧
        List.Forall₂ (fun file l =>
          LedgerResult.check t (s.finished modes configured) file.1 file.2 = .ok l)
          (ledgerFiles s) r.ledgers := by
  -- The building returned, so nothing escaped from it and the result records all errors.
  obtain ⟨f, -, hfault⟩ | ⟨hescapes, r', hr, hrecorded⟩ := build_cases t m directory hdir
  · simp [hfault] at hbuild
  obtain rfl : r' = r := by simpa [hr] using hbuild
  refine ⟨hrecorded.type_eq, ⟨fun hok => ?_, fun hpasses => ?_⟩, fun s modes hpasses => ?_⟩
  · cases hload : (load t m directory).outcome with
    | error failure =>
      cases hrecorded with
      | unloaded _ _ hbuilt => simp [isOk, hbuilt] at hok
      | examined hload' => simp [hload] at hload'
    | ok loaded =>
      obtain ⟨s, set⟩ := loaded
      obtain ⟨hsource, hbuilt⟩ := load_eq_ok_iff.mp hload
      obtain ⟨modes, hflat, hcomparable, configured, hconfigured, rfl⟩ :=
        (TypeSource.build_eq_ok_iff (TypeSource.read_eq_ok hsource).2).mp hbuilt
      obtain ⟨-, -, hiff⟩ := hrecorded.isOk_finished hescapes hconfigured hload
      obtain ⟨⟨hbaseline, hsame⟩, hrendered, hclean⟩ := hiff.mp hok
      exact ⟨s, modes, ⟨hsource, hflat, hbaseline, hsame, hrendered, hclean⟩,
        hcomparable.imp_left fun hnil => by simpa [hnil] using hflat⟩
  · obtain ⟨s, modes, hpasses⟩ := hpasses
    obtain ⟨configured, hconfigured, hload⟩ := hpasses.load hescapes
    obtain ⟨-, -, hiff⟩ := hrecorded.isOk_finished hescapes hconfigured hload
    exact hiff.mpr ⟨⟨hpasses.baseline, hpasses.sameNames⟩, hpasses.rendered, hpasses.ledgers⟩
  · obtain ⟨configured, hconfigured, hload⟩ := hpasses.load hescapes
    obtain ⟨hbuilt, hledgers, -⟩ := hrecorded.isOk_finished hescapes hconfigured hload
    have hclean := (ledgers_isOk_iff hledgers).1
    refine ⟨configured, ⟨by simp [modes?, hbuilt], ?_, hclean.mpr fun file hfile => ?_⟩, hledgers⟩
    · rw [TypeSource.finished_type, (TypeSource.read_eq_ok hpasses.source).1, hrecorded.type_eq]
    · exact finished_clean.mpr (hpasses.ledgers file hfile)

end TypeResult

theorem Report.build_eq_ok [Yaml.Library] [Platform] {t : FileTree} {m : Manifest} {r : Report}
    (h : (build t m).outcome = .ok r) :
    ∃ data types, m.dataPath = .ok data ∧ discoverTypes t data = .ok types ∧
      List.Forall₂ (fun type result => (TypeResult.build t m (data / type)).outcome = .ok result)
        types r.results := by
  unfold build at h
  simp only [Noted.outcome_bind, Noted.outcome_ofExcept, bind_eq_ok, Noted.outcome_mapM] at h
  obtain ⟨data, hdata, types, htypes, results, hresults, h⟩ := h
  cases h
  exact ⟨data, types, hdata, htypes, mapM_eq_ok.mp hresults⟩

/-- The build gate. In a project that is built, the result of a type is without errors exactly if the
type passes, and it then has all modes and all ledgers of the type. What is written, in whatever
formats, are the modes and ledgers of just these types, then the indexes, which list them and no
others. -/
theorem Report.build_gate [Yaml.Library] [Platform] {t : FileTree} {m : Manifest} {r : Report}
    (ht : t.Sound) (hbuild : (build t m).outcome = .ok r) :
    ∃ data types, m.dataPath = .ok data ∧ discoverTypes t data = .ok types ∧
      List.Forall₂ (fun type result => result.type = type ∧
        (result.isOk = true ↔ ∃ s modes, TypeResult.Passes t m (data / type) s modes) ∧
        ∀ s modes, TypeResult.Passes t m (data / type) s modes →
          result.modeNames = modes.map (·.1) ∧
          result.ledgers.map (fun l => (l.kind, l.source)) = TypeResult.ledgerFiles s)
        types r.results ∧
      ∀ formats namespaceName out files written after,
        (r.write formats namespaceName out).Yields files written after →
        written = r.sound.flatMap (·.paths formats out) ++
          (if .ts ∈ formats then [scriptIndexPath out] else []) ++ [out / "index.json"] ∧
        (.ts ∈ formats → after.read (scriptIndexPath out) =
          .ok (scriptIndex (r.sound.map (·.type))).toUTF8) ∧
        ∃ s, jsonText (.map (r.sound.map fun result =>
            (.text result.type, .list (result.modeNames.map .text)))) = .ok s ∧
          after.read (out / "index.json") = .ok (s ++ "\n").toUTF8 := by
  obtain ⟨data, types, hdata, htypes, hresults⟩ := build_eq_ok hbuild
  have hnames := directory_of_discoverTypes ht htypes
  have hgate : List.Forall₂ (fun type result => result.type = type ∧
      (result.isOk = true ↔ ∃ s modes, TypeResult.Passes t m (data / type) s modes) ∧
      ∀ s modes, TypeResult.Passes t m (data / type) s modes → ∃ configured,
        result.Complete (s.finished modes configured) ∧
        List.Forall₂ (fun file l =>
          LedgerResult.check t (s.finished modes configured) file.1 file.2 = .ok l)
          (TypeResult.ledgerFiles s) result.ledgers) types r.results := by
    refine List.forall₂_iff_zip.mpr ⟨hresults.length_eq, fun {type result} hmem => ?_⟩
    obtain ⟨hname, hdirectory⟩ := hnames type (List.of_mem_zip hmem).1
    have hgate := TypeResult.isOk_iff_passes hdirectory (List.forall₂_zip hresults hmem)
    rwa [hname] at hgate
  have hcomplete : ∀ result ∈ r.sound, ∃ set, result.Complete set := by
    intro result hmem
    obtain ⟨hmem, hok⟩ := List.mem_filter.mp hmem
    obtain ⟨type, -, -, hiff, hpasses⟩ := exists_left_of_forall₂ hgate hmem
    obtain ⟨s, modes, h⟩ := hiff.mp hok
    obtain ⟨configured, hset, -⟩ := hpasses s modes h
    exact ⟨_, hset⟩
  refine ⟨data, types, hdata, htypes, hgate.imp fun type result h => ?_, ?_⟩
  · refine ⟨h.1, h.2.1, fun s modes hpasses => ?_⟩
    obtain ⟨configured, hset, hledgers⟩ := h.2.2 s modes hpasses
    exact ⟨by simp [TypeResult.modeNames, hset.modes],
      (TypeResult.ledgers_isOk_iff hledgers).2.2⟩
  · intro formats namespaceName out files written after hyields
    have hreads := reads_of_yields hyields
    rw [index_eq] at hreads
    exact ⟨paths_of_yields hcomplete hyields, hreads⟩

/-- A project of one type with two modes and a ledger. -/
def gatedProject : FileTree :=
  ⟨[(["proj"], .directory), (["proj", "data"], .directory),
    (["proj", "data", "colors"], .directory),
    (["proj", "data", "colors", "index.yaml"],
      .file "modes:\n  light: light.yaml\n  dark: [light.yaml, dark.yaml]\n".toUTF8),
    (["proj", "data", "colors", "light.yaml"], .file "a: 1\n".toUTF8),
    (["proj", "data", "colors", "dark.yaml"], .file "a: 2\n".toUTF8),
    (["proj", "data", "colors", "removed.json"], .file "\x7b\"b\": \"a\"\x7d".toUTF8)]⟩

/-- The manifest of a project in which no type has settings. -/
def gatedManifest : Manifest := { root := ⟨"/", ["proj"]⟩, name := .text "proj" }

/-- The type passes, and script modules of its modes, its ledger and the indexes are written. -/
theorem Report.build_gate_colors :
    gatedProject.Sound ∧ ∃ r, (build gatedProject gatedManifest).outcome = .ok r ∧
      (∃ s modes, TypeResult.Passes gatedProject gatedManifest ⟨"/", ["proj", "data", "colors"]⟩
        s modes ∧ modes.map (·.1) = ["light", "dark"]) ∧
      ∃ after, (r.write [.ts] "proj" ⟨"/", ["out"]⟩).Yields gatedProject
        [⟨"/", ["out", "ts", "colors", "light.ts"]⟩, ⟨"/", ["out", "ts", "colors", "dark.ts"]⟩,
          ⟨"/", ["out", "ts", "colors", "index.ts"]⟩, ⟨"/", ["out", "removed", "colors.json"]⟩,
          ⟨"/", ["out", "ts", "index.ts"]⟩, ⟨"/", ["out", "index.json"]⟩] after := by
  have hsound : gatedProject.Sound := ⟨by decide, by decide⟩
  have hverdict : (match (build gatedProject gatedManifest).outcome with
      | .ok r => ((r.write [.ts] "proj" ⟨"/", ["out"]⟩).endsWell gatedProject,
        r.results.map fun result =>
          (result.type, result.isOk, result.modeNames, result.ledgers.map (·.kind)))
      | .error _ => (false, [])) =
        (true, [("colors", true, ["light", "dark"], [LedgerKind.removed])]) := by
    decide +kernel
  split at hverdict
  · next r hr =>
    obtain ⟨data, types, hdata, -, hresults, hwritten⟩ := build_gate hsound hr
    cases hdata
    obtain ⟨hends, hverdict⟩ := Prod.mk.inj hverdict
    obtain ⟨written, after, hyields⟩ := Writing.exists_yields_iff_endsWell.mpr hends
    obtain ⟨_ | ⟨colors, _ | _⟩⟩ := r
    · cases hverdict
    · obtain ⟨htype, hok, hmodes, hledgers⟩ : colors.type = "colors" ∧ colors.isOk = true ∧
        colors.modeNames = ["light", "dark"] ∧
        colors.ledgers.map (·.kind) = [LedgerKind.removed] := by simpa using hverdict
      obtain _ | ⟨⟨htype', hiff, hpasses⟩, -⟩ := hresults
      rw [htype] at htype'
      subst htype'
      obtain ⟨s, modes, h⟩ := hiff.mp hok
      refine ⟨hsound, _, hr, ⟨s, modes, h, ?_⟩, after, ?_⟩
      · rw [← (hpasses s modes h).1, hmodes]
      · have hkinds : colors.ledgers.map (·.path "colors" ⟨"/", ["out"]⟩) =
            (colors.ledgers.map (·.kind)).map fun kind =>
              (⟨"/", ["out"]⟩ : Path) / kind.name / "colors.json" := by
          rw [List.map_map]
          rfl
        have hpaths := (hwritten _ _ _ _ _ _ hyields).1
        simp only [sound, List.filter_cons_of_pos hok, List.filter_nil, List.flatMap_cons,
          List.flatMap_nil, TypeResult.paths, htype, hmodes, hkinds, hledgers] at hpaths
        rw [hpaths] at hyields
        exact hyields
    · simp at hverdict
  · cases hverdict

/-- The manifest of a project whose prefix is not a number. -/
def nanManifest : Manifest :=
  { gatedManifest with types := [("colors", { typePrefix := some (.float .nan) })] }

/-- A project of one type with one mode. -/
def nanProject : FileTree :=
  ⟨[(["proj"], .directory), (["proj", "data"], .directory),
    (["proj", "data", "colors"], .directory),
    (["proj", "data", "colors", "light.yaml"], .file "a: 1\n".toUTF8)]⟩

/-- The directory of the type of that project. -/
def nanDirectory : Path := ⟨"/", ["proj", "data", "colors"]⟩

/-- The sources of that type. -/
def nanSource : TypeSource :=
  TypeSource.inDirectory nanProject nanDirectory (.float .nan)
    [("light", [nanDirectory / "light.yaml"])]

/-- A type that brings everything is still refused if its prefix is not a number. -/
theorem Report.build_gate_not_a_number :
    ∃ colors, (build nanProject nanManifest).outcome = .ok ⟨[colors]⟩ ∧ colors.type = "colors" ∧
      colors.isOk = false ∧
      ∃ modes, TypeResult.Qualifies nanProject nanManifest nanDirectory nanSource modes := by
  have hverdict : (match (build nanProject nanManifest).outcome with
      | .ok r => r.results.map fun result => (result.type, result.isOk)
      | .error _ => []) = [("colors", false)] := by decide +kernel
  have hflatten : (match nanSource.flatten nanProject true ("light", [nanDirectory / "light.yaml"])
      with
      | .ok v => v.renderTree.isOk
      | .error _ => false) = true := by decide +kernel
  have hmodes : TypeSource.readModes nanProject nanDirectory "colors" =
      .ok [("light", [nanDirectory / "light.yaml"])] := by
    have hlist : nanProject.list nanDirectory = .ok ["light.yaml"] := by
      change Except.ok (["light.yaml"].mergeSort fun a b => decide (a ≤ b)) = _
      rw [List.mergeSort_singleton]
    have hindex : nanProject.exists? (nanDirectory / "index.yaml") = false := rfl
    simp only [TypeSource.readModes, hindex, hlist]
    rfl
  have hread : (TypeSource.read nanProject nanDirectory (some (.float .nan))).outcome =
      .ok nanSource := by
    have hname : nanDirectory.name = "colors" := rfl
    rw [TypeSource.read_outcome, ok_bind, hname, hmodes]
    rfl
  split at hflatten
  · next v hv =>
    split at hverdict
    · next r hr =>
      obtain ⟨_ | ⟨colors, _ | _⟩⟩ := r
      · cases hverdict
      · obtain ⟨htype, hnot⟩ : colors.type = "colors" ∧ colors.isOk = false := by
          simpa using hverdict
        refine ⟨colors, hr, htype, hnot, [("light", v)], hread, .cons ⟨rfl, hv⟩ .nil, ?_, ?_, ?_, ?_⟩
        · intro w hw
          cases hw
        · simp [ModeSet.SameNames]
        · obtain ⟨tree, htree⟩ : ∃ tree, v.renderTree = .ok tree := by
            cases hrender : v.renderTree with
            | ok tree => exact ⟨tree, rfl⟩
            | error failure => simp [hrender, Except.isOk, Except.toBool] at hflatten
          simpa using ⟨tree, htree⟩
        · intro file hfile
          cases hfile
      · simp at hverdict
    · cases hverdict
  · cases hflatten

end DesignTokens
