import DesignTokens.CommandLine
import DesignTokens.Proofs.Delivery

/-! What the exit codes of the commands promise each other. A project that is found valid is built as
well if the formats can express its modes and no type takes the place of the index of script modules;
otherwise building it fails after it was found valid. -/
namespace DesignTokens

section Reports

variable [Platform] {t files : FileTree} {m : Manifest} {r : Report} {out : Path}

/-- What is ready is written into an empty directory in each format that can express its modes. -/
theorem TypeResult.Ready.exists_yields_iff {r : TypeResult} {set : ModeSet} (h : r.Ready set)
    (hproper : IsFileName r.type) (hnames : ∀ mode ∈ set.modes, IsFileName mode.1)
    (hout : files.IsEmptyDirectory out) (f : OutputFormat) (namespaceName : Value) :
    (∃ written after, (f.write namespaceName set out).Yields files written after) ↔
      ∀ mode ∈ set.modes, f.Emits namespaceName set mode := by
  have htexts : (∀ mode ∈ set.modes,
      ∃ text, f.modeText namespaceName set mode.1 mode.2 = .ok text) ↔
        ∀ mode ∈ set.modes, f.Emits namespaceName set mode :=
    forall₂_congr fun mode hmode => h.rendered.exists_modeText hmode f namespaceName
  rw [← htexts]
  constructor
  · intro hwritten
    obtain ⟨written, after, hyields⟩ := hwritten
    exact (OutputFormat.grows_of_yields hyields).2.2
  · intro hmodes
    have htypes : ∀ type ∈ [set.type], IsFileName type := by simpa [h.complete.type] using hproper
    obtain ⟨base, hlaid⟩ := Plan.laid_of_isEmptyDirectory (outputPlan _ htypes) hout
    obtain ⟨written, after, hyields, -⟩ := OutputFormat.exists_yields_write hlaid
      (List.mem_singleton_self set.type) hnames hmodes
    exact ⟨written, after, hyields⟩

theorem TypeResult.Ready.ledger_yields {r : TypeResult} {set : ModeSet} (h : r.Ready set)
    (hproper : IsFileName r.type) (hout : files.IsEmptyDirectory out) {l : LedgerResult}
    (hl : l ∈ r.ledgers) :
    ∃ after, (l.write r.type out).Yields files (some (l.path r.type out)) after := by
  have htypes : ∀ type ∈ [r.type], IsFileName type := by simpa using hproper
  obtain ⟨base, hlaid⟩ := Plan.laid_of_isEmptyDirectory (outputPlan _ htypes) hout
  obtain ⟨after, hyields, -⟩ := LedgerResult.exists_yields_write hlaid hproper
    (h.complete.ledgers l hl) (h.data l hl)
  exact ⟨after, hyields⟩

variable [Yaml.Library]

/-- Each type of a report is found under the name of a directory, and is ready to be written if it is
without errors. -/
theorem Report.ready_of_mem (ht : t.Sound) (hbuild : (build t m).outcome = .ok r) :
    ∀ result ∈ r.sound, IsFileName result.type ∧ ∃ set, result.Ready set := by
  obtain ⟨data, types, -, htypes, hresults⟩ := build_eq_ok hbuild
  intro result hresult
  obtain ⟨hmem, hok⟩ := List.mem_filter.mp hresult
  obtain ⟨type, htype, hbuilt⟩ := exists_left_of_forall₂ hresults hmem
  obtain ⟨hname, hdir⟩ := directory_of_discoverTypes ht htypes type htype
  have hsame : result.type = type := (TypeResult.isOk_iff_passes hdir hbuilt).1.trans hname
  exact ⟨hsame ▸ isFileName_of_discoverTypes ht htypes type htype,
    TypeResult.ready_of_isOk hdir hbuilt hok⟩

/-- A report is written into an empty directory exactly if the formats can express the modes of its
types without errors and the index of script modules takes the place of none of them. -/
theorem Report.exists_yields_iff (ht : t.Sound) (hbuild : (build t m).outcome = .ok r)
    (hout : files.IsEmptyDirectory out)
    (hnames : ∀ result ∈ r.sound, ∀ mode ∈ result.modeNames, IsFileName mode)
    (formats : List OutputFormat) (namespaceName : Value) :
    (∃ written after, (r.write formats namespaceName out).Yields files written after) ↔
      (∀ result ∈ r.sound, ∀ set, result.modes? = some set →
        ∀ mode ∈ set.modes, ∀ f ∈ formats, f.Emits namespaceName set mode) ∧
      (.ts ∈ formats → ∀ result ∈ r.sound, result.type ≠ "index.ts") := by
  have hready := ready_of_mem ht hbuild
  constructor
  · intro hwritten
    obtain ⟨written, after, hyields⟩ := hwritten
    have hformats := formats_of_yields hyields
    refine ⟨fun result hresult set hset mode hmode f hf => ?_, fun hts result hresult => ?_⟩
    · obtain ⟨-, set', hset'⟩ := hready result hresult
      obtain rfl : set' = set := by simpa [hset] using hset'.complete.modes.symm
      obtain ⟨_, _, _, hyields⟩ := (hformats result hresult set' hset f hf).1
      exact (hset'.rendered.exists_modeText hmode f namespaceName).mp
        ((OutputFormat.grows_of_yields hyields).2.2 mode hmode)
    · obtain ⟨-, set, hset⟩ := hready result hresult
      rw [← hset.complete.type]
      exact (hformats result hresult set hset.complete.modes .ts hts).2 rfl
  · intro h
    obtain ⟨hemits, hindex⟩ := h
    have htypes : ∀ type ∈ r.sound.map (·.type), IsFileName type :=
      List.forall_mem_map.mpr fun result hresult => (hready result hresult).1
    obtain ⟨base, hlaid⟩ := Plan.laid_of_isEmptyDirectory (outputPlan _ htypes) hout
    refine exists_yields_write hlaid (fun result hresult => ?_) fun hts htype => ?_
    · obtain ⟨-, set, hset⟩ := hready result hresult
      have hmodes : result.modeNames = set.names := by
        simp [TypeResult.modeNames, hset.complete.modes]
      refine ⟨List.mem_map.mpr ⟨result, hresult, rfl⟩, set, hset, fun mode hmode => ?_,
        hemits result hresult set hset.complete.modes⟩
      exact hnames result hresult mode.1 (hmodes ▸ List.mem_map.mpr ⟨mode, hmode, rfl⟩)
    · obtain ⟨result, hresult, he⟩ := List.mem_map.mp htype
      exact hindex hts result hresult he

end Reports

namespace CommandLine

section Runs

variable {t : FileTree} {here : Path} {environment : Option String} {s : Settings}

theorem reportedRun_exitCode {report : Noted Report} {finish : Report → Run} :
    (reportedRun t report finish).exitCode = 0 ↔
      ∃ r, report.outcome = .ok r ∧ (finish r).exitCode = 0 := by
  unfold reportedRun
  cases report.outcome with
  | ok r => simp
  | error failure => cases failure <;> simp [failedRun]

theorem verdict_exitCode {r : Report} {line : String} :
    (verdict t r line).exitCode = 0 ↔ r.isOk = true := by
  unfold verdict
  cases r.isOk <;> simp

variable [Yaml.Library] [Platform]

/-- A project is found valid exactly if its manifest is read and all its types are built without
errors. -/
theorem validate_exitCode :
    (validate t here environment s).exitCode = 0 ↔
      ∃ m r, manifestOf t here environment s = .ok m ∧ (Report.build t m).outcome = .ok r ∧
        r.isOk = true := by
  unfold validate
  dsimp only
  rw [reportedRun_exitCode]
  simp only [Noted.outcome_bind, Noted.outcome_ofExcept, bind_eq_ok, verdict_exitCode]
  constructor
  · intro h
    obtain ⟨r, ⟨m, hm, hr⟩, hok⟩ := h
    exact ⟨m, r, hm, hr, hok⟩
  · intro h
    obtain ⟨m, r, hm, hr, hok⟩ := h
    exact ⟨r, ⟨m, hm, hr⟩, hok⟩

theorem build_exitCode {m : Manifest} {formats : List OutputFormat} {out : Path}
    (hm : manifestOf t here environment s = .ok m) (hformats : formatsOf s m = .ok formats)
    (hout : outOf here s m = .ok out) :
    (build t here environment s).exitCode = 0 ↔
      ∃ r, (Report.build t m).outcome = .ok r ∧ r.isOk = true ∧
        ∃ written after, (r.write formats m.name out).Yields t written after := by
  simp only [build, hm, hformats, hout]
  rw [reportedRun_exitCode]
  refine exists_congr fun r => and_congr_right fun _ => ?_
  unfold Writing.Yields
  cases (r.write formats m.name out).run.run t with
  | mk outcome after =>
    cases outcome with
    | error failure => simp [Id.run]
    | ok written => simp [Id.run, verdict_exitCode]

/-- What is without errors is delivered as far as the formats can express it. Into an empty directory
the modes of a type are written in a format exactly if the format can express them all, and its
ledgers are written always. So a project that is found valid is built exactly if all formats can
express all modes and no type takes the place of the index of script modules. -/
theorem build_delivers (ht : t.Sound) :
    (∀ m directory r set, t.isDirectory directory = true → IsFileName directory.name →
      (TypeResult.build t m directory).outcome = .ok r → r.isOk = true → r.modes? = some set →
      (∀ mode ∈ set.modes, IsFileName mode.1) →
      ∀ files out, files.IsEmptyDirectory out →
        (∀ (f : OutputFormat) namespaceName,
          (∃ written after, (f.write namespaceName set out).Yields files written after) ↔
            ∀ mode ∈ set.modes, f.Emits namespaceName set mode) ∧
        ∀ l ∈ r.ledgers, ∃ after,
          (l.write r.type out).Yields files (some (l.path r.type out)) after) ∧
    ∀ here environment s m formats out, manifestOf t here environment s = .ok m →
      formatsOf s m = .ok formats → outOf here s m = .ok out → t.IsEmptyDirectory out →
      (∀ r, (Report.build t m).outcome = .ok r →
        ∀ result ∈ r.results, ∀ mode ∈ result.modeNames, IsFileName mode) →
      (validate t here environment s).exitCode = 0 →
      ((build t here environment s).exitCode = 0 ↔
        ∃ r, (Report.build t m).outcome = .ok r ∧
          (∀ result ∈ r.results, ∀ set, result.modes? = some set →
            ∀ mode ∈ set.modes, ∀ f ∈ formats, f.Emits m.name set mode) ∧
          (.ts ∈ formats → "index.ts" ∉ r.types)) := by
  constructor
  · intro m directory r set hdir hname hbuild hok hset hnames files out hout
    obtain ⟨set', hready⟩ := TypeResult.ready_of_isOk hdir hbuild hok
    obtain rfl : set' = set := by simpa [hset] using hready.complete.modes.symm
    have hproper : IsFileName r.type := (TypeResult.isOk_iff_passes hdir hbuild).1 ▸ hname
    exact ⟨hready.exists_yields_iff hproper hnames hout,
      fun l hl => hready.ledger_yields hproper hout hl⟩
  · intro here environment s m formats out hm hformats hout hempty hnames hvalid
    obtain ⟨m', r, hm', hr, hok⟩ := validate_exitCode.mp hvalid
    obtain rfl : m' = m := by simpa [hm] using hm'.symm
    -- In a valid project no type is left out of what is written.
    have hsound : r.sound = r.results := List.filter_eq_self.mpr (List.all_eq_true.mp hok)
    have hwrites := Report.exists_yields_iff ht hr hempty (hsound ▸ hnames r hr) formats
      m'.name
    rw [hsound] at hwrites
    have htypes : (∀ result ∈ r.results, result.type ≠ "index.ts") ↔ "index.ts" ∉ r.types := by
      rw [Report.types, List.mem_map]
      push Not
      rfl
    rw [htypes] at hwrites
    rw [build_exitCode hm hformats hout]
    constructor
    · intro hbuilt
      obtain ⟨r', hr', -, hwritten⟩ := hbuilt
      obtain rfl : r' = r := by simpa [hr] using hr'.symm
      exact ⟨r', hr, hwrites.mp hwritten⟩
    · intro hexpressed
      obtain ⟨r', hr', h⟩ := hexpressed
      obtain rfl : r' = r := by simpa [hr] using hr'.symm
      exact ⟨r', hr, hok, hwrites.mpr h⟩

end Runs

/-- A project of one type, whose only variable is a date. -/
def datesProject : FileTree :=
  ⟨[(["proj"], .directory), (["proj", "data"], .directory),
    (["proj", "data", "dates"], .directory),
    (["proj", "data", "dates", "default.yaml"], .file "launch: 2020-01-01\n".toUTF8),
    (["proj", "out"], .directory)]⟩

/-- The manifest of a project that has none. -/
def datesManifest : Manifest := { root := ⟨"/", ["proj"]⟩, name := .text "proj" }

/-- The directory of the outputs. -/
def datesOut : Path := ⟨"/", ["proj", "out"]⟩

/-- The settings that ask for one format. -/
def datesSettings (format : String) : Settings := { out := "out", formats := [format] }

theorem datesOut_isEmptyDirectory : datesProject.IsEmptyDirectory datesOut :=
  ⟨rfl, ["proj", "out"], rfl, rfl, by decide⟩

/-- Style sheets can express the date and JSON cannot. -/
theorem build_delivers_dates :
    datesProject.Sound ∧
    (∃ r set, (TypeResult.build datesProject datesManifest ⟨"/", ["proj", "data", "dates"]⟩).outcome =
        .ok r ∧ r.isOk = true ∧ r.modes? = some set ∧ set.names = ["default"] ∧
      (∀ mode ∈ set.modes, OutputFormat.scss.Emits "proj" set mode) ∧
      ¬ ∀ mode ∈ set.modes, OutputFormat.json.Emits "proj" set mode) ∧
    ∃ r, (Report.build datesProject datesManifest).outcome = .ok r ∧
      ∀ result ∈ r.results, ∀ set, result.modes? = some set →
        ∀ mode ∈ set.modes, OutputFormat.scss.Emits "proj" set mode := by
  have hsound : datesProject.Sound := ⟨by decide, by decide⟩
  obtain ⟨htype, hproject⟩ := build_delivers hsound
  refine ⟨hsound, ?_, ?_⟩
  · have hverdict : (match (TypeResult.build datesProject datesManifest
          ⟨"/", ["proj", "data", "dates"]⟩).outcome with
        | .ok r => (r.isOk, r.modes?.map fun set => (set.names,
          (OutputFormat.scss.write "proj" set datesOut).endsWell datesProject,
          (OutputFormat.json.write "proj" set datesOut).endsWell datesProject))
        | .error _ => (false, none)) = (true, some (["default"], true, false)) := by decide +kernel
    split at hverdict
    · next r hr =>
      obtain ⟨hok, set, hset, hnames, hscss, hjson⟩ : r.isOk = true ∧ ∃ set, r.modes? = some set ∧
          set.names = ["default"] ∧
          (OutputFormat.scss.write "proj" set datesOut).endsWell datesProject = true ∧
          (OutputFormat.json.write "proj" set datesOut).endsWell datesProject = false := by
        simpa using hverdict
      have hproper : ∀ mode ∈ set.modes, IsFileName mode.1 := by
        have hmodes : ∀ name ∈ set.names, IsFileName name := by
          rw [hnames]
          decide
        exact fun mode hmode => hmodes mode.1 (List.mem_map.mpr ⟨mode, hmode, rfl⟩)
      obtain ⟨hformats, -⟩ := htype datesManifest _ r set rfl (by decide) hr hok hset hproper
        datesProject datesOut datesOut_isEmptyDirectory
      refine ⟨r, set, hr, hok, hset, hnames, ?_, fun hemits => ?_⟩
      · exact (hformats .scss "proj").mp (Writing.exists_yields_iff_endsWell.mpr hscss)
      · have hwritten := Writing.exists_yields_iff_endsWell.mp ((hformats .json "proj").mpr hemits)
        simp [hjson] at hwritten
    · simp at hverdict
  · have hproper : ∀ r, (Report.build datesProject datesManifest).outcome = .ok r →
        ∀ result ∈ r.results, ∀ mode ∈ result.modeNames, IsFileName mode := by
      have hverdict : (match (Report.build datesProject datesManifest).outcome with
          | .ok r => r.results.all fun result => result.modeNames.all (decide <| IsFileName ·)
          | .error _ => true) = true := by decide +kernel
      intro r hr
      simpa [hr] using hverdict
    have hbuilt := hproject ⟨"/", ["proj"]⟩ none (datesSettings "scss") datesManifest [.scss] datesOut
      rfl rfl rfl datesOut_isEmptyDirectory hproper (by decide +kernel)
    obtain ⟨r, hr, hemits, -⟩ := hbuilt.mp (by decide +kernel)
    exact ⟨r, hr, fun result hmem set hset mode hmode =>
      hemits result hmem set hset mode hmode .scss (by simp)⟩

/-- The project is found valid, and building it as JSON fails. -/
theorem build_dates_fails :
    datesProject.IsEmptyDirectory datesOut ∧
    (∃ r, (Report.build datesProject datesManifest).outcome = .ok r ∧ r.isOk = true ∧
      r.results.map (·.modeNames) = [["default"]]) ∧
    manifestOf datesProject ⟨"/", ["proj"]⟩ none (datesSettings "json") = .ok datesManifest ∧
    formatsOf (datesSettings "json") datesManifest = .ok [.json] ∧
    outOf ⟨"/", ["proj"]⟩ (datesSettings "json") datesManifest = .ok datesOut ∧
    (validate datesProject ⟨"/", ["proj"]⟩ none (datesSettings "json")).exitCode = 0 ∧
    (build datesProject ⟨"/", ["proj"]⟩ none (datesSettings "json")).exitCode = 1 := by
  have hverdict : (match (Report.build datesProject datesManifest).outcome with
      | .ok r => (r.isOk, r.results.map (·.modeNames))
      | .error _ => (false, [])) = (true, [["default"]]) := by decide +kernel
  refine ⟨datesOut_isEmptyDirectory, ?_, rfl, rfl, rfl, by decide +kernel, by decide +kernel⟩
  split at hverdict
  · next r hr =>
    obtain ⟨hok, hnames⟩ : r.isOk = true ∧ r.results.map (·.modeNames) = [["default"]] := by
      simpa using hverdict
    exact ⟨r, hr, hok, hnames⟩
  · simp at hverdict

end CommandLine

end DesignTokens
