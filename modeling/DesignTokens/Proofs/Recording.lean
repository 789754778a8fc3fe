import DesignTokens.Proofs.Places
import DesignTokens.Proofs.Writing

/-! The files of a report, with their texts. A format has those of the modes and perhaps an index, a
type those of its formats and ledgers, and a report those of its types and two indexes; when writing
ends well, they have been written one after the other. -/
namespace DesignTokens

/-- If each step of a row writes its files, the row writes all of them. -/
theorem Writing.records_of_mapM {α β : Type} {f : α → Writing β}
    {g : α → Except Failure (List (Path × String))} (paths : β → List Path) {xs : List α}
    {ys : List β} {t t' : FileTree} (h : Yields (xs.mapM f) t ys t')
    (hf : ∀ x ∈ xs, ∀ t y t', (f x).Yields t y t' → ∃ files, g x = .ok files ∧
      files.map (·.1) = paths y ∧ t.Records files t') :
    ∃ rows, xs.mapM g = .ok rows ∧ rows.flatten.map (·.1) = ys.flatMap paths ∧
      t.Records rows.flatten t' := by
  induction xs generalizing t ys with
  | nil =>
    obtain ⟨rfl, rfl⟩ := yields_mapM_nil.mp h
    exact ⟨[], rfl, rfl, .nil t⟩
  | cons x rest ih =>
    obtain ⟨y, t₁, hy, zs, hzs, rfl⟩ := yields_mapM_cons.mp h
    obtain ⟨files, hfiles, hpaths, hrecords⟩ := hf x List.mem_cons_self t y t₁ hy
    obtain ⟨rows, hrows, hmore, hrest⟩ := ih hzs fun z hz => hf z (List.mem_cons_of_mem _ hz)
    refine ⟨files :: rows, ?_, ?_, hrecords.trans hrest⟩
    · rw [List.mapM_cons, hfiles, ok_bind, hrows]
      rfl
    · rw [List.flatten_cons, List.map_append, hpaths, hmore, List.flatMap_cons]

namespace OutputFormat

/-- The file of a mode, with its text. -/
def modeFile [Platform] (f : OutputFormat) (namespaceName : Value) (m : ModeSet) (out : Path)
    (mode : String × VariableSet) : Except Failure (List (Path × String)) := do
  let text ← f.modeText namespaceName m mode.1 mode.2
  return [(f.directory out m.type / f.fileName mode.1, text)]

/-- The files of a type in a format, with their texts. -/
def files [Platform] (f : OutputFormat) (namespaceName : Value) (m : ModeSet) (out : Path) :
    Except Failure (List (Path × String)) := do
  let modes ← m.modes.mapM (f.modeFile namespaceName m out)
  return modes.flatten ++
    if f = .ts then [(f.directory out m.type / "index.ts", scriptIndex m.names)] else []

variable [Platform] {f : OutputFormat} {namespaceName : Value} {m : ModeSet} {out : Path}
  {t t' : FileTree} {written : List Path} {files : List (Path × String)}

theorem records_of_yields (h : (f.write namespaceName m out).Yields t written t') :
    ∃ files, f.files namespaceName m out = .ok files ∧ files.map (·.1) = written ∧
      t.Records files t' := by
  obtain ⟨t₁, modes, t₂, hmade, hmodes, hlast⟩ := yields_write.mp h
  have hmode : ∀ mode ∈ m.modes, ∀ t path t',
      (Writing.file (f.directory out m.type / f.fileName mode.1)
        (f.modeText namespaceName m mode.1 mode.2)).Yields t path t' →
      ∃ files, f.modeFile namespaceName m out mode = .ok files ∧ files.map (·.1) = [path] ∧
        t.Records files t' := by
    intro mode _ t path t' h
    obtain ⟨rfl, text, htext, hwrite⟩ := Writing.yields_file.mp h
    refine ⟨[(_, text)], ?_, rfl, .of_write hwrite⟩
    rw [modeFile, htext]
    rfl
  obtain ⟨rows, hrows, hpaths, hrecords⟩ :=
    Writing.records_of_mapM (fun path => [path]) hmodes hmode
  have hfolder := FileTree.Records.of_extends (FileTree.ensureDirectories_extends hmade)
  rw [List.flatMap_singleton'] at hpaths
  unfold OutputFormat.files
  rw [hrows, ok_bind]
  by_cases hts : f = .ts
  · rw [if_pos hts] at hlast
    obtain ⟨hindex, rfl⟩ := hlast
    refine ⟨_, rfl, ?_, ?_⟩
    · rw [if_pos hts, List.map_append, hpaths]
      rfl
    · rw [if_pos hts]
      exact hfolder.trans (hrecords.trans (.of_write hindex))
  · rw [if_neg hts] at hlast
    obtain ⟨rfl, rfl⟩ := hlast
    refine ⟨_, rfl, ?_, ?_⟩
    · rw [if_neg hts, List.append_nil, hpaths]
    · rw [if_neg hts, List.append_nil]
      exact hfolder.trans hrecords

theorem mode_mem_files (h : f.files namespaceName m out = .ok files) {mode : String × VariableSet}
    (hmode : mode ∈ m.modes) : ∃ text, f.modeText namespaceName m mode.1 mode.2 = .ok text ∧
      (f.directory out m.type / f.fileName mode.1, text) ∈ files := by
  obtain ⟨rows, hrows, h⟩ := bind_eq_ok.mp h
  obtain ⟨row, hrow, hfile⟩ := exists_mem_of_mapM_eq_ok hrows hmode
  obtain ⟨text, htext, hfile⟩ := bind_eq_ok.mp hfile
  cases hfile
  cases h
  refine ⟨text, htext, ?_⟩
  apply List.mem_append_left
  exact List.mem_flatten.mpr ⟨_, hrow, List.mem_singleton_self _⟩

theorem index_mem_files (h : OutputFormat.ts.files namespaceName m out = .ok files) :
    (OutputFormat.ts.directory out m.type / "index.ts", scriptIndex m.names) ∈ files := by
  obtain ⟨rows, -, h⟩ := bind_eq_ok.mp h
  cases h
  exact List.mem_append_right _ (List.mem_singleton_self _)

end OutputFormat

namespace LedgerResult

/-- The file of a ledger, with its text, if nothing is wrong with it. -/
def files (r : LedgerResult) (type : String) (out : Path) :
    Except Failure (List (Path × String)) :=
  if r.isOk then do return [(r.path type out, (← jsonText r.entries.toValue) ++ "\n")]
  else return []

theorem records_of_yields {r : LedgerResult} {type : String} {out : Path} {t t' : FileTree}
    {written : Option Path} (h : (r.write type out).Yields t written t') :
    ∃ files, r.files type out = .ok files ∧ files.map (·.1) = written.toList ∧
      t.Records files t' := by
  unfold LedgerResult.files
  cases hok : r.isOk with
  | false =>
    obtain ⟨rfl, rfl⟩ : none = written ∧ t = t' := by simpa [write, hok] using h
    exact ⟨[], rfl, rfl, .nil t⟩
  | true =>
    obtain ⟨t₁, s, hmade, hs, hwrite, rfl⟩ := (yields_write hok).mp h
    have hfolder := FileTree.Records.of_extends (FileTree.ensureDirectories_extends hmade)
    refine ⟨[(r.path type out, s ++ "\n")], ?_, rfl, hfolder.trans (.of_write hwrite)⟩
    rw [if_pos rfl, hs]
    rfl

end LedgerResult

namespace TypeResult

/-- The files of a type, with their texts: its modes in all formats, then its ledgers. -/
def files [Platform] (r : TypeResult) (formats : List OutputFormat) (namespaceName : Value)
    (out : Path) : Except Failure (List (Path × String)) :=
  match if r.isOk then r.modes? else none with
  | none => return []
  | some m => do
    let modes ← formats.mapM (·.files namespaceName m out)
    let ledgers ← r.ledgers.mapM (·.files r.type out)
    return modes.flatten ++ ledgers.flatten

variable [Platform] {r : TypeResult} {m : ModeSet} {formats : List OutputFormat}
  {namespaceName : Value} {out : Path} {t t' : FileTree} {written : List Path}
  {files : List (Path × String)}

theorem records_of_yields (h : (r.write formats namespaceName out).Yields t written t') :
    ∃ files, r.files formats namespaceName out = .ok files ∧ files.map (·.1) = written ∧
      t.Records files t' := by
  unfold TypeResult.files
  cases hok : r.isOk with
  | false =>
    obtain ⟨rfl, rfl⟩ := (yields_write_of_not_isOk hok).mp h
    exact ⟨[], rfl, rfl, .nil t⟩
  | true =>
    obtain ⟨m, hm⟩ := exists_modes_of_isOk hok
    obtain ⟨modes, t₁, ledgers, hmodes, hledgers, rfl⟩ := (yields_write hok hm).mp h
    obtain ⟨rows, hrows, hpaths, hrecords⟩ := Writing.records_of_mapM id hmodes
      fun f _ t y t' hy => OutputFormat.records_of_yields hy
    obtain ⟨more, hmore, hpaths', hrecords'⟩ := Writing.records_of_mapM Option.toList hledgers
      fun l _ t y t' hy => LedgerResult.records_of_yields hy
    refine ⟨rows.flatten ++ more.flatten, ?_, ?_, hrecords.trans hrecords'⟩
    · rw [if_pos rfl, hm]
      show (formats.mapM _ >>= _) = _
      rw [hrows, ok_bind, hmore]
      rfl
    · rw [List.map_append, hpaths, hpaths', List.flatMap_id, List.filterMap_eq_flatMap_toList]
      rfl

/-- A type without errors brings the files of each format. -/
theorem files_of_format (hok : r.isOk = true) (hm : r.modes? = some m)
    (h : r.files formats namespaceName out = .ok files) {f : OutputFormat} (hf : f ∈ formats) :
    ∃ some, f.files namespaceName m out = .ok some ∧ ∀ file ∈ some, file ∈ files := by
  unfold TypeResult.files at h
  rw [if_pos hok, hm] at h
  obtain ⟨rows, hrows, h⟩ := bind_eq_ok.mp h
  obtain ⟨ledgers, -, h⟩ := bind_eq_ok.mp h
  cases h
  obtain ⟨row, hrow, hfiles⟩ := exists_mem_of_mapM_eq_ok hrows hf
  refine ⟨row, hfiles, fun file hfile => ?_⟩
  apply List.mem_append_left
  exact List.mem_flatten.mpr ⟨row, hrow, hfile⟩

end TypeResult

namespace Report

/-- The files of a report, with their texts: those of its types, then the indexes. -/
def files [Platform] (r : Report) (formats : List OutputFormat) (namespaceName : Value)
    (out : Path) : Except Failure (List (Path × String)) := do
  let types ← r.results.mapM (·.files formats namespaceName out)
  let index ← jsonText r.index
  return types.flatten ++
    (if .ts ∈ formats then [(scriptIndexPath out, scriptIndex (r.sound.map (·.type)))] else []) ++
    [(out / "index.json", index ++ "\n")]

variable [Platform] {r : Report} {formats : List OutputFormat} {namespaceName : Value} {out : Path}
  {t t' : FileTree} {written : List Path} {files : List (Path × String)}

/-- A report writes its files. -/
theorem records_of_yields (h : (r.write formats namespaceName out).Yields t written t') :
    ∃ files, r.files formats namespaceName out = .ok files ∧ files.map (·.1) = written ∧
      t.Records files t' := by
  obtain ⟨types, t₁, t₂, t₃, s, htypes, hscripts, hmade, hs, hindex, rfl⟩ := yields_write.mp h
  obtain ⟨rows, hrows, hpaths, hrecords⟩ := Writing.records_of_mapM id htypes
    fun result _ t y t' hy => TypeResult.records_of_yields hy
  have hlast := (FileTree.Records.of_extends (FileTree.ensureDirectories_extends hmade)).trans
    (.of_write hindex)
  have hmiddle : t₁.Records (if .ts ∈ formats then
      [(scriptIndexPath out, scriptIndex (r.sound.map (·.type)))] else []) t₂ := by
    split
    · next hts =>
      rw [if_pos hts] at hscripts
      obtain ⟨t₁', hmade, hwrite⟩ := hscripts
      exact (FileTree.Records.of_extends (FileTree.ensureDirectories_extends hmade)).trans
        (.of_write hwrite)
    · next hts =>
      rw [if_neg hts] at hscripts
      exact hscripts ▸ .nil t₁
  refine ⟨_, ?_, ?_, (hrecords.trans hmiddle).trans hlast⟩
  · rw [Report.files, hrows, ok_bind, hs]
    rfl
  · rw [List.map_append, List.map_append, hpaths, List.flatMap_id]
    split
    · rfl
    · rfl

theorem files_of_type (h : r.files formats namespaceName out = .ok files) {result : TypeResult}
    (hresult : result ∈ r.sound) :
    ∃ some, result.files formats namespaceName out = .ok some ∧ ∀ file ∈ some, file ∈ files := by
  obtain ⟨rows, hrows, h⟩ := bind_eq_ok.mp h
  obtain ⟨index, -, h⟩ := bind_eq_ok.mp h
  cases h
  obtain ⟨row, hrow, hfiles⟩ := exists_mem_of_mapM_eq_ok hrows (List.mem_of_mem_filter hresult)
  refine ⟨row, hfiles, fun file hfile => ?_⟩
  rw [List.append_assoc]
  apply List.mem_append_left
  exact List.mem_flatten.mpr ⟨row, hrow, hfile⟩

end Report

end DesignTokens
