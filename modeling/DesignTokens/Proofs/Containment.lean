import DesignTokens.Proofs.Examining
import DesignTokens.Proofs.Loading
import DesignTokens.Template.Standard
import DesignTokens.Yaml.Reader

/-! What a broken type does to the others, whatever platform and whatever library stand behind it. A
project is built type by type: errors of the library are kept with the type that they are about, and
only faults of files and values leave the building of a type, which ends that of the project. -/
namespace DesignTokens

namespace TypeResult

section Loaded

variable [Yaml.Library]

theorem load_outcome (t : FileTree) (m : Manifest) (directory : Path) :
    (load t m directory).outcome =
      (TypeSource.read t directory (m.settings directory.name).typePrefix).outcome >>= fun s =>
        (s.build t (m.skippedModes directory.name) m.strict
          (baselineOf m directory.name)).outcome.map fun set => (s, set) := by
  unfold load
  simp only [Noted.outcome_bind]
  cases (TypeSource.read t directory (m.settings directory.name).typePrefix).outcome with
  | error failure => rfl
  | ok s => rfl

theorem load_of_buildFault {t : FileTree} {m : Manifest} {directory : Path} {s : TypeSource}
    {f : Fault}
    (hsource : (TypeSource.read t directory (m.settings directory.name).typePrefix).outcome = .ok s)
    (h : TypeSource.BuildFault t s (m.skippedModes directory.name) m.strict
      (baselineOf m directory.name) f) :
    (load t m directory).outcome = .error (.fault f) := by
  rw [load_outcome, hsource, ok_bind, TypeSource.build_eq_fault.mpr h]
  rfl

theorem load_of_sourceFault {t : FileTree} {m : Manifest} {directory : Path} {f : Fault}
    (hdir : t.isDirectory directory = true)
    (h : TypeSource.SourceFault t directory (m.settings directory.name).typePrefix f) :
    ∃ g, (load t m directory).outcome = .error (.fault g) := by
  obtain ⟨g, -, hread⟩ | ⟨hnone, -⟩ :=
    TypeSource.read_cases t directory (m.settings directory.name).typePrefix hdir
  · exact ⟨g, by rw [load_outcome, hread, error_bind]⟩
  · exact absurd h (hnone f)

theorem load_eq_ok {t : FileTree} {m : Manifest} {directory : Path} {s : TypeSource} {set : ModeSet}
    (hdir : t.isDirectory directory = true)
    (h : (load t m directory).outcome = .ok (s, set)) :
    s.type = directory.name ∧ set.finalized = true := by
  rw [load_outcome, bind_eq_ok] at h
  obtain ⟨s', hs, h⟩ := h
  obtain ⟨set', hset, h⟩ := map_eq_ok.mp h
  cases h
  refine ⟨?_, TypeSource.build_eq_ok hset⟩
  obtain ⟨g, -, hread⟩ | ⟨-, ⟨e, hread⟩ | ⟨s', htype, hread⟩⟩ :=
    TypeSource.read_cases t directory (m.settings directory.name).typePrefix hdir
  · simp [hread] at hs
  · simp [hread] at hs
  · obtain rfl : s' = s := by simpa [hread] using hs
    exact htype

end Loaded

section Building

variable [Yaml.Library] [Platform]

/-- What leaves the building of a type: the faults of its prefix file, of its index, of its overlays
and its baseline, of rendering its modes, and of its ledgers; and a baseline without a text. -/
inductive Escapes (t : FileTree) (m : Manifest) (directory : Path) : Fault → Prop where
  | source {f : Fault}
      (hsource : TypeSource.SourceFault t directory (m.settings directory.name).typePrefix f) :
      Escapes t m directory f
  | modes {s : TypeSource} {f : Fault}
      (hsource :
        (TypeSource.read t directory (m.settings directory.name).typePrefix).outcome = .ok s)
      (hmodes : TypeSource.BuildFault t s (m.skippedModes directory.name) m.strict
        (baselineOf m directory.name) f) : Escapes t m directory f
  | baseline {s : TypeSource} {set : ModeSet}
      (hload : (load t m directory).outcome = .ok (s, set))
      (htext : (baselineOf m directory.name).hasText = false) :
      Escapes t m directory (.value .unwritableInteger)
  | rendering {s : TypeSource} {set : ModeSet} {mode : String × VariableSet} {f : Fault}
      (hload : (load t m directory).outcome = .ok (s, set)) (hmode : mode ∈ set.modes)
      (hrender : mode.2.renderTree = .error (.fault f)) : Escapes t m directory f
  | ledger {s : TypeSource} {set : ModeSet} {file : LedgerKind × Path} {f : Fault}
      (hload : (load t m directory).outcome = .ok (s, set)) (hfile : file ∈ ledgerFiles s)
      (hledger : LedgerResult.Escapes t s.typePrefix file.2 f) : Escapes t m directory f

/-- What a result keeps of the building of a type: the error that ended its loading, or else exactly
the errors of its validation, of rendering its modes and of its ledgers. -/
inductive Recorded (t : FileTree) (m : Manifest) (directory : Path) (r : TypeResult) : Prop where
  | unloaded {e : TokenError} (hload : (load t m directory).outcome = .error (.token e))
      (htype : r.type = directory.name) (hbuilt : r.built = none) (herrors : r.errors = [e.text])
      (hledgers : r.ledgers = [])
  | examined {s : TypeSource} {set : ModeSet}
      (hload : (load t m directory).outcome = .ok (s, set))
      (htype : r.type = directory.name) (hbuilt : r.built = some (s.typePrefix, set))
      (herrors : ∀ text, text ∈ r.errors ↔ text ∈ set.validate.2.errors ∨
        (∃ mode ∈ set.modes, ∃ e, mode.2.renderTree = .error (.token e) ∧
          text = set.renderText mode.1 e) ∨
        ∃ l ∈ r.ledgers, l.Tells text)
      (hledgers : List.Forall₂ (fun file l => LedgerResult.check t set file.1 file.2 = .ok l)
        (ledgerFiles s) r.ledgers)

theorem Recorded.type_eq {t : FileTree} {m : Manifest} {directory : Path} {r : TypeResult}
    (h : Recorded t m directory r) : r.type = directory.name := by
  cases h <;> assumption

section Faults

variable {t : FileTree} {m : Manifest} {directory : Path} (hdir : t.isDirectory directory = true)
include hdir

theorem escapes_of_load {f : Fault} (h : (load t m directory).outcome = .error (.fault f)) :
    Escapes t m directory f := by
  rw [load_outcome, bind_eq_error] at h
  obtain h | ⟨s, hs, h⟩ := h
  · obtain ⟨g, hg, hread⟩ | ⟨-, ⟨e, hread⟩ | ⟨s, -, hread⟩⟩ :=
      TypeSource.read_cases t directory (m.settings directory.name).typePrefix hdir
    · obtain rfl : g = f := by simpa [hread] using h
      exact .source hg
    · simp [hread] at h
    · simp [hread] at h
  · exact .modes hs (TypeSource.build_eq_fault.mp (map_eq_error.mp h))

/-- If loading meets no fault, what escapes is of the baseline, of rendering or of ledgers. -/
theorem Escapes.of_load_ok {f : Fault} (h : Escapes t m directory f)
    (hload : ∀ g, (load t m directory).outcome ≠ .error (.fault g)) :
    ∃ s set, (load t m directory).outcome = .ok (s, set) ∧
      ((baselineOf m directory.name).hasText = false ∨
        (∃ mode ∈ set.modes, mode.2.renderTree = .error (.fault f)) ∨
        ∃ file ∈ ledgerFiles s, LedgerResult.Escapes t s.typePrefix file.2 f) := by
  cases h with
  | source hsource =>
    obtain ⟨g, hg⟩ := load_of_sourceFault hdir hsource
    exact absurd hg (hload g)
  | modes hsource hmodes => exact absurd (load_of_buildFault hsource hmodes) (hload f)
  | baseline hok htext => exact ⟨_, _, hok, Or.inl htext⟩
  | rendering hok hmode hrender => exact ⟨_, _, hok, Or.inr (Or.inl ⟨_, hmode, hrender⟩)⟩
  | ledger hok hfile hledger => exact ⟨_, _, hok, Or.inr (Or.inr ⟨_, hfile, hledger⟩)⟩

end Faults

/-- The examination of a loaded type fails in a fault that escapes, or none does and it records all
errors. -/
theorem examine_cases {t : FileTree} {m : Manifest} {directory : Path} {s : TypeSource}
    {set : ModeSet} (hdir : t.isDirectory directory = true)
    (hload : (load t m directory).outcome = .ok (s, set)) :
    (∃ f, Escapes t m directory f ∧
      (examine t s (baselineOf m directory.name) set).outcome = .error (.fault f)) ∨
    ((∀ f, ¬ Escapes t m directory f) ∧
      ∃ r, (examine t s (baselineOf m directory.name) set).outcome = .ok r ∧
        Recorded t m directory r) := by
  obtain ⟨htype, hfinal⟩ := load_eq_ok hdir hload
  unfold examine
  have hvalid : (set.validate).1 = set := ModeSet.finalize_of_finalized hfinal
  cases htext : (baselineOf m directory.name).hasText with
  | false => exact Or.inl ⟨_, .baseline hload htext, rfl⟩
  | true =>
    simp only [Bool.not_true, Bool.false_eq_true, if_false, Noted.outcome_bind,
      Noted.outcome_warnAll, ok_bind, hvalid]
    obtain ⟨mode, hmode, f, hrender, he⟩ | ⟨hrendered, unrendered, herrors, hunrendered⟩ :=
      set.renderErrors_cases
    · exact Or.inl ⟨f, .rendering hload hmode hrender, by rw [he]; rfl⟩
    rw [herrors]
    obtain ⟨file, hfile, f, hledger, he⟩ |
        ⟨hnone, ledgers, hledgers, hchecked, issues, hissues, htold⟩ :=
      checkLedgers_cases t s set
    · exact Or.inl ⟨f, .ledger hload hfile hledger, by rw [he]; rfl⟩
    rw [hledgers]
    refine Or.inr ⟨fun f hf => ?_, ⟨s.type, some (s.typePrefix, set),
      set.validate.2.errors ++ unrendered ++ issues.flatten, ledgers⟩, ?_, ?_⟩
    · obtain ⟨s', set', hok, h⟩ := hf.of_load_ok hdir (by simp [hload])
      obtain ⟨rfl, rfl⟩ : s = s' ∧ set = set' := by simpa [hload] using hok
      obtain hfalse | ⟨mode, hmode, hrender⟩ | ⟨file, hfile, hledger⟩ := h
      · cases htext.symm.trans hfalse
      · exact hrendered mode hmode f hrender
      · exact hnone file hfile f hledger
    · simp [Noted.ofFault, hissues]
    · refine .examined hload htype rfl (fun text => ?_) hchecked
      simp only [List.mem_append, hunrendered, htold, or_assoc]

/-- The building of a type comes to a fault that escapes, or none does and a result records all
errors. -/
theorem build_cases (t : FileTree) (m : Manifest) (directory : Path)
    (hdir : t.isDirectory directory = true) :
    (∃ f, Escapes t m directory f ∧ (build t m directory).outcome = .error (.fault f)) ∨
    ((∀ f, ¬ Escapes t m directory f) ∧
      ∃ r, (build t m directory).outcome = .ok r ∧ Recorded t m directory r) := by
  unfold build
  simp only [Noted.outcome_bind, Noted.outcome_attempt]
  cases hload : (load t m directory).outcome with
  | error failure =>
    cases failure with
    | fault f => exact Or.inl ⟨f, escapes_of_load hdir hload, rfl⟩
    | token e =>
      refine Or.inr ⟨fun f hf => ?_, failed directory.name e, rfl, .unloaded hload rfl rfl rfl rfl⟩
      obtain ⟨s, set, hok, -⟩ := hf.of_load_ok hdir (by simp [hload])
      simp [hload] at hok
  | ok loaded => exact examine_cases hdir hload

/-- Nothing escapes from a type whose building returns. -/
theorem not_escapes_of_isOk {t : FileTree} {m : Manifest} {directory : Path}
    (hdir : t.isDirectory directory = true) (h : (build t m directory).outcome.isOk = true) :
    ∀ f, ¬ Escapes t m directory f := by
  rcases build_cases t m directory hdir with ⟨f, -, he⟩ | ⟨hnone, -⟩
  · rw [he] at h
    cases h
  · exact hnone

end Building

end TypeResult

/-- Building a project returns exactly if nothing escapes from the building of any type. It then
gives one result for each type in the order of their names, which records the errors of that type;
otherwise what it fails with is a fault that escapes from a type. -/
theorem Report.build_contained [Yaml.Library] [Platform] {t : FileTree} {m : Manifest}
    {data : Path} (ht : t.Sound) (hdata : m.dataPath = .ok data) (hdir : t.isDirectory data = true) :
    ∃ types, discoverTypes t data = .ok types ∧ types.Pairwise (· < ·) ∧
      ((∃ r, (build t m).outcome = .ok r) ↔
        ∀ type ∈ types, ∀ f, ¬ TypeResult.Escapes t m (data / type) f) ∧
      (∀ r, (build t m).outcome = .ok r → r.types = types ∧
        List.Forall₂ (fun type result => TypeResult.Recorded t m (data / type) result)
          types r.results) ∧
      ∀ failure, (build t m).outcome = .error failure →
        ∃ type ∈ types, ∃ f, failure = .fault f ∧ TypeResult.Escapes t m (data / type) f := by
  obtain ⟨types, htypes, hsorted, hnames⟩ := discoverTypes_sorted ht hdir
  have hbuild : (build t m).outcome =
      (types.mapM fun type => (TypeResult.build t m (data / type)).outcome).map Report.mk := by
    unfold build
    simp only [Noted.outcome_bind, Noted.outcome_ofExcept, hdata, htypes, ok_bind,
      Noted.outcome_mapM]
    cases types.mapM fun type => (TypeResult.build t m (data / type)).outcome <;> rfl
  have hcases := fun type (htype : type ∈ types) =>
    TypeResult.build_cases t m (data / type) (hnames type htype).2
  rw [hbuild]
  refine ⟨types, htypes, hsorted, ?_, fun r hr => ?_, fun failure hfailure => ?_⟩
  · have hreturns : (∃ r, (types.mapM fun type =>
        (TypeResult.build t m (data / type)).outcome).map Report.mk = .ok r) ↔
        ∀ type ∈ types, ∃ r, (TypeResult.build t m (data / type)).outcome = .ok r := by
      rw [← exists_mapM_eq_ok]
      simp only [map_eq_ok]
      exact ⟨fun ⟨_, rs, h, _⟩ => ⟨rs, h⟩, fun ⟨rs, h⟩ => ⟨_, rs, h, rfl⟩⟩
    rw [hreturns]
    refine forall₂_congr fun type htype => ?_
    obtain ⟨f, hf, he⟩ | ⟨hnone, r, hr, -⟩ := hcases type htype
    · simp only [he, reduceCtorEq, exists_false, false_iff, not_forall, not_not]
      exact ⟨f, hf⟩
    · simp [hr, hnone]
  · obtain ⟨results, hresults, rfl⟩ := map_eq_ok.mp hr
    have hbuilt := mapM_eq_ok.mp hresults
    have hrecorded : ∀ type result, (type, result) ∈ types.zip results →
        TypeResult.Recorded t m (data / type) result := by
      intro type result hmem
      have he := List.forall₂_zip hbuilt hmem
      obtain ⟨f, -, hf⟩ | ⟨-, r, hr, h⟩ := hcases type (List.of_mem_zip hmem).1
      · simp [hf] at he
      · obtain rfl : r = result := by simpa [hr] using he
        exact h
    have hnamed : List.Forall₂ (fun type result => type = result.type) types results := by
      refine List.forall₂_iff_zip.mpr ⟨hbuilt.length_eq, fun {type result} hmem => ?_⟩
      have hname := (hnames type (List.of_mem_zip hmem).1).1
      exact hname.symm.trans (hrecorded type result hmem).type_eq.symm
    refine ⟨?_, List.forall₂_iff_zip.mpr ⟨hbuilt.length_eq, fun hmem => hrecorded _ _ hmem⟩⟩
    have hmap := List.forall₂_map_right_iff.mpr hnamed
    rw [List.forall₂_eq_eq_eq] at hmap
    exact hmap.symm
  · obtain ⟨type, htype, he⟩ := mapM_eq_error (map_eq_error.mp hfailure)
    obtain ⟨f, hf, he'⟩ | ⟨-, r, hr, -⟩ := hcases type htype
    · exact ⟨type, htype, f, by simpa [he'] using he.symm, hf⟩
    · simp [hr] at he

/-- A project of two types, of which one has an overlay whose bytes are no text. -/
def brokenProject : FileTree :=
  ⟨[(["proj"], .directory), (["proj", "data"], .directory),
    (["proj", "data", "colors"], .directory),
    (["proj", "data", "colors", "light.yaml"], .file ⟨#[0xff]⟩),
    (["proj", "data", "spacing"], .directory),
    (["proj", "data", "spacing", "default.yaml"], .file "sm: 4px\n".toUTF8)]⟩

/-- The manifest of the project with a broken type. -/
def brokenManifest : Manifest := { root := ⟨"/", ["proj"]⟩, name := .text "proj" }

/-- The data of the project with a broken type. -/
def brokenData : Path := ⟨"/", ["proj", "data"]⟩

theorem brokenProject_sound : brokenProject.Sound := ⟨by decide, by decide⟩

theorem discoverTypes_broken :
    discoverTypes brokenProject brokenData = .ok ["colors", "spacing"] := by
  have hlist : brokenProject.list brokenData = .ok ["colors", "spacing"] := by
    change Except.ok (["colors", "spacing"].mergeSort fun a b => decide (a ≤ b)) = _
    rw [List.mergeSort_of_pairwise]
    decide
  have hdata : brokenProject.isDirectory brokenData = true := rfl
  have hcolors : brokenProject.isDirectory (brokenData / "colors") = true := rfl
  have hspacing : brokenProject.isDirectory (brokenData / "spacing") = true := rfl
  simp [discoverTypes, hlist, hdata, hcolors, hspacing]

/-- The sources of a type of one mode, in a directory without an index and without a prefix file. -/
theorem read_single {t : FileTree} {directory : Path} {file : String}
    (hindex : t.exists? (directory / "index.yaml") = false)
    (hnone : t.exists? (directory / "prefix") = false)
    (hlist : t.list directory = .ok [file]) :
    (TypeSource.read t directory none).outcome =
      .ok (TypeSource.inDirectory t directory (.text directory.name)
        (TypeSource.looseModes t directory [file])) := by
  rw [TypeSource.read_outcome]
  simp [TypeSource.readPrefix, TypeSource.readModes, hindex, hnone, hlist, Except.map]

theorem read_colors :
    (TypeSource.read brokenProject (brokenData / "colors") none).outcome =
      .ok (TypeSource.inDirectory brokenProject (brokenData / "colors") (.text "colors")
        (TypeSource.looseModes brokenProject (brokenData / "colors") ["light.yaml"])) := by
  refine read_single rfl rfl ?_
  change Except.ok (["light.yaml"].mergeSort fun a b => decide (a ≤ b)) = _
  rw [List.mergeSort_singleton]

theorem read_spacing :
    (TypeSource.read brokenProject (brokenData / "spacing") none).outcome =
      .ok (TypeSource.inDirectory brokenProject (brokenData / "spacing") (.text "spacing")
        (TypeSource.looseModes brokenProject (brokenData / "spacing") ["default.yaml"])) := by
  refine read_single rfl rfl ?_
  change Except.ok (["default.yaml"].mergeSort fun a b => decide (a ≤ b)) = _
  rw [List.mergeSort_singleton]

theorem load_colors :
    (TypeResult.load brokenProject brokenManifest (brokenData / "colors")).outcome =
      .error (.fault .undecodable) := by
  have hsettings : brokenManifest.settings (brokenData / "colors").name = {} := rfl
  rw [TypeResult.load_outcome, hsettings, read_colors]
  rfl

/-- The overlay of one type cannot be read, and that of the other one is loaded and rendered. -/
theorem escapes_broken :
    TypeResult.Escapes brokenProject brokenManifest (brokenData / "colors") .undecodable ∧
      ∀ f, ¬ TypeResult.Escapes brokenProject brokenManifest (brokenData / "spacing") f := by
  refine ⟨TypeResult.escapes_of_load rfl load_colors, TypeResult.not_escapes_of_isOk rfl ?_⟩
  have hsettings : brokenManifest.settings (brokenData / "spacing").name = {} := rfl
  rw [TypeResult.build, Noted.outcome_bind, Noted.outcome_attempt, TypeResult.load_outcome,
    hsettings, read_spacing, ok_bind]
  decide +kernel

theorem Report.build_contained_broken :
    brokenProject.Sound ∧ brokenManifest.dataPath = .ok brokenData ∧
      brokenProject.isDirectory brokenData = true ∧
      discoverTypes brokenProject brokenData = .ok ["colors", "spacing"] ∧
      TypeResult.Escapes brokenProject brokenManifest (brokenData / "colors") .undecodable ∧
      (∀ f, ¬ TypeResult.Escapes brokenProject brokenManifest (brokenData / "spacing") f) ∧
      ∃ f, (build brokenProject brokenManifest).outcome = .error (.fault f) ∧
        TypeResult.Escapes brokenProject brokenManifest (brokenData / "colors") f := by
  have hdata : brokenManifest.dataPath = .ok brokenData := rfl
  have hdir : brokenProject.isDirectory brokenData = true := rfl
  obtain ⟨hcolors, hspacing⟩ := escapes_broken
  refine ⟨brokenProject_sound, hdata, hdir, discoverTypes_broken, hcolors, hspacing, ?_⟩
  obtain ⟨types, htypes, -, hreturns, -, hfails⟩ := build_contained brokenProject_sound hdata hdir
  obtain rfl : types = ["colors", "spacing"] :=
    Except.ok.inj (htypes.symm.trans discoverTypes_broken)
  cases houtcome : (build brokenProject brokenManifest).outcome with
  | ok r => exact absurd hcolors (hreturns.mp ⟨r, houtcome⟩ "colors" (by simp) .undecodable)
  | error failure =>
    obtain ⟨type, htype, f, rfl, hf⟩ := hfails failure houtcome
    simp only [List.mem_cons, List.not_mem_nil, or_false] at htype
    rcases htype with rfl | rfl
    · exact ⟨f, rfl, hf⟩
    · exact absurd hf (hspacing f)

/-- The broken type hides the other one: building the project does not return. -/
theorem Report.build_broken :
    discoverTypes brokenProject brokenData = .ok ["colors", "spacing"] ∧
      (build brokenProject brokenManifest).outcome = .error (.fault .undecodable) := by
  have hcolors : (TypeResult.build brokenProject brokenManifest (brokenData / "colors")).outcome =
      .error (.fault .undecodable) := by
    rw [TypeResult.build, Noted.outcome_bind, Noted.outcome_attempt, load_colors]
    rfl
  have hdata : brokenManifest.dataPath = .ok brokenData := rfl
  refine ⟨discoverTypes_broken, ?_⟩
  simp [build, hdata, discoverTypes_broken, Noted.outcome_mapM, hcolors]

end DesignTokens
