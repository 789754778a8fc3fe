import DesignTokens.Output
import DesignTokens.Proofs.Placing

/-! Steps that write files. A row of steps yields what its steps yield, one after the other, and each
format writes one file for each mode in the order of the modes. So the paths that a report tells
after writing are those of the types without errors, and the indexes list these types. -/
namespace DesignTokens

namespace Writing

variable {α β : Type} {t t' : FileTree}

/-- A step ends well, with a result and changed files. -/
def Yields (x : Writing α) (t : FileTree) (a : α) (t' : FileTree) : Prop :=
  (x.run.run t).run = (.ok a, t')

/-- Whether a step ends well. -/
def endsWell (x : Writing α) (t : FileTree) : Bool := (x.run.run t).run.1.isOk

theorem exists_yields_iff_endsWell {x : Writing α} :
    (∃ a t', x.Yields t a t') ↔ x.endsWell t = true := by
  unfold Yields endsWell
  cases (x.run.run t).run with
  | mk outcome after => cases outcome <;> simp [Except.isOk, Except.toBool]

@[simp] theorem yields_pure {a b : α} : Yields (pure a) t b t' ↔ a = b ∧ t = t' := by
  change (Except.ok a, t) = (Except.ok b, t') ↔ _
  simp

@[simp] theorem not_yields_throw {failure : Failure} {a : α} :
    ¬ Yields (throw failure) t a t' := by
  change ¬ (Except.error failure, t) = (Except.ok a, t')
  simp

theorem yields_bind {x : Writing α} {f : α → Writing β} {b : β} :
    Yields (x >>= f) t b t' ↔ ∃ a t₁, x.Yields t a t₁ ∧ (f a).Yields t₁ b t' := by
  unfold Yields
  rw [ExceptT.run_bind, StateT.run_bind, Id.run_bind]
  rcases (x.run.run t).run with ⟨e | a, t₁⟩ <;> simp

@[simp] theorem yields_map {x : Writing α} {f : α → β} {b : β} :
    Yields (f <$> x) t b t' ↔ ∃ a, x.Yields t a t' ∧ f a = b := by
  rw [map_eq_pure_bind, yields_bind]
  simp

theorem yields_get {found : FileTree} : Yields get t found t' ↔ t = found ∧ t = t' := by
  change (Except.ok t, t) = (Except.ok found, t') ↔ _
  simp

theorem yields_set {changed : FileTree} {u : Unit} : Yields (set changed) t u t' ↔ changed = t' := by
  change (Except.ok (), changed) = (Except.ok u, t') ↔ _
  simp

theorem yields_change {f : FileTree → Except Fault FileTree} {u : Unit} :
    Yields (change f) t u t' ↔ f t = .ok t' := by
  unfold change
  rw [yields_bind]
  simp only [yields_get]
  cases hf : f t with
  | ok t₁ => simp [hf, yields_set]
  | error fault => simp [hf]

theorem yields_file {path written : Path} {text : Except Failure String} :
    Yields (file path text) t written t' ↔
      written = path ∧ ∃ s, text = .ok s ∧ t.write path s = .ok t' := by
  unfold file
  cases text with
  | error failure => simp
  | ok s => simp [yields_change, and_comm, eq_comm (a := path)]

theorem yields_mapM_nil {f : α → Writing β} {ys : List β} :
    Yields (([] : List α).mapM f) t ys t' ↔ [] = ys ∧ t = t' := by
  rw [List.mapM_nil]
  exact yields_pure

theorem yields_mapM_cons {f : α → Writing β} {x : α} {xs : List α} {ys : List β} :
    Yields ((x :: xs).mapM f) t ys t' ↔
      ∃ y t₁, (f x).Yields t y t₁ ∧ ∃ rest, Yields (xs.mapM f) t₁ rest t' ∧ y :: rest = ys := by
  rw [List.mapM_cons, yields_bind]
  simp

/-- Where each step yields what is known beforehand, so does the row. -/
theorem eq_map_of_yields {f : α → Writing β} {g : α → β} {xs : List α} {ys : List β}
    (h : Yields (xs.mapM f) t ys t')
    (hf : ∀ x ∈ xs, ∀ t y t', (f x).Yields t y t' → y = g x) : ys = xs.map g := by
  induction xs generalizing t ys with
  | nil => exact (yields_mapM_nil.mp h).1.symm
  | cons x rest ih =>
    obtain ⟨y, t₁, hy, zs, hzs, rfl⟩ := yields_mapM_cons.mp h
    rw [hf x List.mem_cons_self t y t₁ hy,
      ih hzs fun z hz => hf z (List.mem_cons_of_mem _ hz), List.map_cons]

theorem grows_of_file {path written : Path} {text : Except Failure String}
    (h : Yields (file path text) t written t') : t.Grows t' := by
  obtain ⟨-, s, -, hwrite⟩ := yields_file.mp h
  exact FileTree.write_grows hwrite

/-- If a row of steps that keep what is there ends well, then so has each of them, and what it left
is there in the end. -/
theorem grows_of_mapM {f : α → Writing β} {xs : List α} {ys : List β}
    (h : Yields (xs.mapM f) t ys t')
    (hf : ∀ x ∈ xs, ∀ t y t', (f x).Yields t y t' → t.Grows t') :
    t.Grows t' ∧ ∀ x ∈ xs, ∃ t₁ y t₂, (f x).Yields t₁ y t₂ ∧ t₂.Grows t' := by
  induction xs generalizing t ys with
  | nil =>
    obtain ⟨-, rfl⟩ := yields_mapM_nil.mp h
    exact ⟨.refl t, by simp⟩
  | cons x rest ih =>
    obtain ⟨y, t₁, hy, zs, hzs, -⟩ := yields_mapM_cons.mp h
    obtain ⟨hgrows, hrest⟩ := ih hzs fun z hz => hf z (List.mem_cons_of_mem _ hz)
    have hfirst := hf x List.mem_cons_self t y t₁ hy
    exact ⟨hfirst.trans hgrows, List.forall_mem_cons.mpr ⟨⟨t, y, t₁, hy, hgrows⟩, hrest⟩⟩

/-- A row of steps ends well if each step ends well in a state that the steps keep. -/
theorem mapM_yields {I : FileTree → Prop} {f : α → Writing β} {xs : List α} (ht : I t)
    (hf : ∀ x ∈ xs, ∀ t, I t → ∃ y t', (f x).Yields t y t' ∧ I t') :
    ∃ ys t', Yields (xs.mapM f) t ys t' ∧ I t' := by
  induction xs generalizing t with
  | nil => exact ⟨[], t, yields_mapM_nil.mpr ⟨rfl, rfl⟩, ht⟩
  | cons x rest ih =>
    obtain ⟨y, t₁, hy, h₁⟩ := hf x List.mem_cons_self t ht
    obtain ⟨ys, t', hys, h'⟩ := ih h₁ fun z hz => hf z (List.mem_cons_of_mem _ hz)
    exact ⟨y :: ys, t', yields_mapM_cons.mpr ⟨y, t₁, hy, ys, hys, rfl⟩, h'⟩

end Writing

namespace OutputFormat

/-- The name of the file of a mode. -/
def fileName (f : OutputFormat) (mode : String) : String :=
  match f with
  | .scss => s!"_{mode}.scss"
  | .json => s!"{mode}.json"
  | .dtcg => s!"{mode}.tokens.json"
  | .ts => s!"{mode}.ts"

/-- The text of a mode. -/
def modeText [Platform] (f : OutputFormat) (namespaceName : Value) (m : ModeSet) (mode : String)
    (s : VariableSet) : Except Failure String :=
  match f with
  | .scss => do Writing.encoded (← m.mixin namespaceName mode)
  | .json => return (← s.camelJson) ++ "\n"
  | .dtcg => do jsonText (← m.dtcgTokens mode)
  | .ts => m.scriptModule mode

/-- The paths of a type in a format: one for each mode, and for script modules that of their
index. -/
def paths (f : OutputFormat) (type : String) (modes : List String) (out : Path) : List Path :=
  modes.map (fun mode => f.directory out type / f.fileName mode) ++
    if f = .ts then [f.directory out type / "index.ts"] else []

variable [Platform] {f : OutputFormat} {namespaceName : Value} {m : ModeSet} {out : Path}
  {t t' : FileTree} {written : List Path}

/-- Writing a format makes its directory, then writes the modes, then the index of script
modules. -/
theorem yields_write :
    (f.write namespaceName m out).Yields t written t' ↔
      ∃ t₁ modes t₂, t.ensureDirectories (f.directory out m.type) = .ok t₁ ∧
        (m.modes.mapM fun mode => Writing.file (f.directory out m.type / f.fileName mode.1)
          (f.modeText namespaceName m mode.1 mode.2)).Yields t₁ modes t₂ ∧
        if f = .ts then
          t₂.write (f.directory out m.type / "index.ts") (scriptIndex m.names) = .ok t' ∧
            modes ++ [f.directory out m.type / "index.ts"] = written
        else modes = written ∧ t₂ = t' := by
  have hmodes : ∀ (path : String → Path) (text : String → VariableSet → Except Failure String),
      Writing.modes m path text =
        m.modes.mapM fun mode => Writing.file (path mode.1) (text mode.1 mode.2) := fun _ _ => rfl
  cases f <;>
    simp [write, Writing.yields_bind, Writing.ensure, Writing.yields_change, hmodes, fileName,
      modeText, Writing.yields_file]

theorem paths_of_yields (h : (f.write namespaceName m out).Yields t written t') :
    written = f.paths m.type m.names out := by
  obtain ⟨t₁, modes, t₂, -, hmodes, h⟩ := yields_write.mp h
  have hpaths := Writing.eq_map_of_yields hmodes fun mode _ t y t' hy => (Writing.yields_file.mp hy).1
  have hnames : f.paths m.type m.names out = modes ++
      if f = .ts then [f.directory out m.type / "index.ts"] else [] := by
    rw [hpaths, paths, ModeSet.names, List.map_map]
    rfl
  rw [hnames]
  split at h
  · next hts => rw [if_pos hts, h.2]
  · next hts => rw [if_neg hts, List.append_nil, h.1]

/-- What has been written keeps what was there, has a directory for the type, and had a text for each
mode. -/
theorem grows_of_yields (h : (f.write namespaceName m out).Yields t written t') :
    t.Grows t' ∧ t'.isDirectory (f.directory out m.type) = true ∧
      ∀ mode ∈ m.modes, ∃ text, f.modeText namespaceName m mode.1 mode.2 = .ok text := by
  obtain ⟨t₁, modes, t₂, hmade, hmodes, hlast⟩ := yields_write.mp h
  obtain ⟨hgrows, hsteps⟩ := Writing.grows_of_mapM hmodes fun mode _ t y t' => Writing.grows_of_file
  have hindex : t₂.Grows t' := by
    split at hlast
    · exact FileTree.write_grows hlast.1
    · exact hlast.2 ▸ .refl t₂
  refine ⟨(FileTree.ensureDirectories_extends hmade).grows.trans (hgrows.trans hindex), ?_, ?_⟩
  · exact (hgrows.trans hindex).isDirectory (FileTree.isDirectory_of_ensureDirectories hmade)
  · intro mode hmode
    obtain ⟨_, _, _, hfile, -⟩ := hsteps mode hmode
    obtain ⟨-, text, htext, -⟩ := Writing.yields_file.mp hfile
    exact ⟨text, htext⟩

end OutputFormat

namespace LedgerResult

/-- The path of a ledger that is written. -/
def path (r : LedgerResult) (type : String) (out : Path) : Path := out / r.kind.name / s!"{type}.json"

variable {r : LedgerResult} {type : String} {out : Path} {t t' : FileTree}
  {written : Option Path}

theorem yields_write (hok : r.isOk = true) :
    (r.write type out).Yields t written t' ↔
      ∃ t₁ s, t.ensureDirectories (out / r.kind.name) = .ok t₁ ∧
        jsonText r.entries.toValue = .ok s ∧ t₁.write (r.path type out) (s ++ "\n") = .ok t' ∧
        some (r.path type out) = written := by
  simp [write, hok, Writing.yields_bind, Writing.ensure, Writing.yields_change, path,
    Writing.yields_file, functor_map_eq_ok]
  grind

theorem grows_of_yields (h : (r.write type out).Yields t written t') : t.Grows t' := by
  cases hok : r.isOk with
  | false =>
    obtain ⟨-, rfl⟩ : none = written ∧ t = t' := by simpa [write, hok] using h
    exact .refl t
  | true =>
    obtain ⟨t₁, s, hmade, -, hwrite, -⟩ := (yields_write hok).mp h
    exact (FileTree.ensureDirectories_extends hmade).grows.trans (FileTree.write_grows hwrite)

end LedgerResult

namespace TypeResult

/-- A type has been built into modes under its name, and nothing is wrong with its ledgers. -/
structure Complete (r : TypeResult) (m : ModeSet) : Prop where
  modes : r.modes? = some m
  type : m.type = r.type
  ledgers : ∀ l ∈ r.ledgers, l.isOk = true

/-- The names of the modes of a type, none if it has not been built. -/
def modeNames (r : TypeResult) : List String := (r.modes?.map (·.names)).getD []

/-- The paths of a type that is written: in each format those of its modes, then those of its
ledgers. -/
def paths (r : TypeResult) (formats : List OutputFormat) (out : Path) : List Path :=
  formats.flatMap (fun f => f.paths r.type r.modeNames out) ++ r.ledgers.map (·.path r.type out)

theorem exists_modes_of_isOk {r : TypeResult} (h : r.isOk = true) : ∃ m, r.modes? = some m := by
  rw [isOk, Bool.and_eq_true, Option.isSome_iff_exists] at h
  obtain ⟨⟨built, hbuilt⟩, -⟩ := h
  exact ⟨built.2, by simp [modes?, hbuilt]⟩

variable [Platform] {r : TypeResult} {m : ModeSet} {formats : List OutputFormat}
  {namespaceName : Value} {out : Path} {t t' : FileTree} {written : List Path}

theorem yields_write_of_not_isOk (h : r.isOk = false) :
    (r.write formats namespaceName out).Yields t written t' ↔ [] = written ∧ t = t' := by
  simp [write, h]

theorem yields_write (hok : r.isOk = true) (hmodes : r.modes? = some m) :
    (r.write formats namespaceName out).Yields t written t' ↔
      ∃ modes t₁ ledgers,
        Writing.Yields (formats.mapM fun f => f.write namespaceName m out) t modes t₁ ∧
        Writing.Yields (r.ledgers.mapM fun l => l.write r.type out) t₁ ledgers t' ∧
        modes.flatten ++ ledgers.filterMap id = written := by
  simp [write, hok, hmodes, Writing.yields_bind]

theorem paths_of_yields (hok : r.isOk = true) (hr : r.Complete m)
    (h : (r.write formats namespaceName out).Yields t written t') :
    written = r.paths formats out := by
  obtain ⟨modes, t₁, ledgers, hm, hl, rfl⟩ := (yields_write hok hr.modes).mp h
  have hformats := Writing.eq_map_of_yields hm fun f _ t y t' hy =>
    OutputFormat.paths_of_yields hy
  have hwritten := Writing.eq_map_of_yields (g := fun l => some (l.path r.type out)) hl
    fun l hmem t y t' hy => by
      obtain ⟨-, -, -, -, -, he⟩ := (LedgerResult.yields_write (hr.ledgers l hmem)).mp hy
      exact he.symm
  have hnames : r.modeNames = m.names := by simp [modeNames, hr.modes]
  rw [hformats, hwritten, paths, hnames, hr.type]
  simp [List.flatMap_def, List.filterMap_map]

/-- What has been written keeps what was there, and each format has been written. -/
theorem grows_of_yields (hok : r.isOk = true) (hmodes : r.modes? = some m)
    (h : (r.write formats namespaceName out).Yields t written t') :
    t.Grows t' ∧ ∀ f ∈ formats, ∃ t₁ paths t₂,
      (f.write namespaceName m out).Yields t₁ paths t₂ ∧ t₂.Grows t' := by
  obtain ⟨modes, t₁, ledgers, hm, hl, -⟩ := (yields_write hok hmodes).mp h
  obtain ⟨hgrows, hsteps⟩ := Writing.grows_of_mapM hm fun f _ t y t' hy =>
    (OutputFormat.grows_of_yields hy).1
  obtain ⟨hledgers, -⟩ := Writing.grows_of_mapM hl fun l _ t y t' => LedgerResult.grows_of_yields
  refine ⟨hgrows.trans hledgers, fun f hf => ?_⟩
  obtain ⟨t₂, paths, t₃, hwritten, hrest⟩ := hsteps f hf
  exact ⟨t₂, paths, t₃, hwritten, hrest.trans hledgers⟩

end TypeResult

namespace Report

/-- The path of the index of the types' script modules. -/
def scriptIndexPath (out : Path) : Path := out / OutputFormat.ts.name / "index.ts"

/-- The indexes list the types without errors and no others, each with its modes. -/
theorem index_eq (r : Report) :
    r.index = .map (r.sound.map fun result =>
      (.text result.type, .list (result.modeNames.map .text))) := by
  have hentry : ∀ result ∈ r.sound,
      (result.modes?.map fun m => (Value.text result.type, Value.list (m.names.map .text))) =
        some (.text result.type, .list (result.modeNames.map .text)) := by
    intro result hmem
    obtain ⟨m, hm⟩ := TypeResult.exists_modes_of_isOk (List.mem_filter.mp hmem).2
    simp [TypeResult.modeNames, hm]
  rw [index, List.filterMap_congr hentry, List.filterMap_eq_map']

variable [Platform] {r : Report} {formats : List OutputFormat} {namespaceName : Value}
  {out : Path} {t t' : FileTree} {written : List Path}

/-- Writing a report writes its types, then the index of script modules if these are asked for, then
the index of types and modes. -/
theorem yields_write :
    (r.write formats namespaceName out).Yields t written t' ↔
      ∃ types t₁ t₂ t₃ s,
        Writing.Yields (r.results.mapM fun result => result.write formats namespaceName out)
          t types t₁ ∧
        (if .ts ∈ formats then ∃ t₁', t₁.ensureDirectories (out / OutputFormat.ts.name) = .ok t₁' ∧
          t₁'.write (scriptIndexPath out) (scriptIndex (r.sound.map (·.type))) = .ok t₂
        else t₁ = t₂) ∧
        t₂.ensureDirectories out = .ok t₃ ∧ jsonText r.index = .ok s ∧
        t₃.write (out / "index.json") (s ++ "\n") = .ok t' ∧
        types.flatten ++ (if .ts ∈ formats then [scriptIndexPath out] else []) ++
          [out / "index.json"] = written := by
  by_cases hts : .ts ∈ formats
  · simp [write, writeScriptIndex, writeIndex, hts, Writing.yields_bind, Writing.ensure,
      Writing.yields_change, Writing.yields_file, functor_map_eq_ok, scriptIndexPath]
    grind
  · simp [write, writeIndex, hts, Writing.yields_bind, Writing.ensure,
      Writing.yields_change, Writing.yields_file, functor_map_eq_ok]
    grind

/-- After writing, what is written is told: the paths of the types without errors, then those of the
indexes. -/
theorem paths_of_yields (hr : ∀ result ∈ r.sound, ∃ m, result.Complete m)
    (h : (r.write formats namespaceName out).Yields t written t') :
    written = r.sound.flatMap (·.paths formats out) ++
      (if .ts ∈ formats then [scriptIndexPath out] else []) ++ [out / "index.json"] := by
  obtain ⟨types, t₁, -, -, -, htypes, -, -, -, -, rfl⟩ := yields_write.mp h
  have hpaths : types =
      r.results.map fun result => if result.isOk then result.paths formats out else [] := by
    refine Writing.eq_map_of_yields htypes fun result hmem t y t' hy => ?_
    cases hok : result.isOk with
    | false => exact ((TypeResult.yields_write_of_not_isOk hok).mp hy).1.symm
    | true =>
      obtain ⟨m, hm⟩ := hr result (List.mem_filter.mpr ⟨hmem, hok⟩)
      exact TypeResult.paths_of_yields hok hm hy
  have hflat : ∀ results : List TypeResult,
      (results.map fun result => if result.isOk then result.paths formats out else []).flatten =
        (results.filter (·.isOk)).flatMap (·.paths formats out) := by
    intro results
    induction results with
    | nil => rfl
    | cons result rest ih => cases hok : result.isOk <;> simp [hok, ih]
  rw [hpaths, hflat]
  rfl

/-- The indexes are found as they were written. -/
theorem reads_of_yields (h : (r.write formats namespaceName out).Yields t written t') :
    (.ts ∈ formats → t'.read (scriptIndexPath out) =
      .ok (scriptIndex (r.sound.map (·.type))).toUTF8) ∧
    ∃ s, jsonText r.index = .ok s ∧ t'.read (out / "index.json") = .ok (s ++ "\n").toUTF8 := by
  obtain ⟨types, t₁, t₂, t₃, s, -, hscripts, hensure, hs, hindex, -⟩ := yields_write.mp h
  refine ⟨fun hts => ?_, s, hs, FileTree.read_of_write hindex⟩
  rw [if_pos hts] at hscripts
  obtain ⟨t₁', -, hscript⟩ := hscripts
  have hread := FileTree.read_of_extends (FileTree.ensureDirectories_extends hensure)
    (FileTree.read_of_write hscript)
  have hscriptName : IsFileName "index.ts" := by decide
  have hindexName : IsFileName "index.json" := by decide
  refine FileTree.read_of_write_of_ne hindex ?_ ?_ ?_ hread
  · simp [scriptIndexPath, hscriptName.div, hindexName.div, Path.name]
  · simp [scriptIndexPath, hscriptName.div, Path.name]
  · simp [scriptIndexPath, hscriptName.div]

/-- In a report that has been written each format of each type without errors has been written, and
the index of script modules has taken the place of no type. -/
theorem formats_of_yields (h : (r.write formats namespaceName out).Yields t written t') :
    ∀ result ∈ r.sound, ∀ m, result.modes? = some m → ∀ f ∈ formats,
      (∃ t₁ paths t₂, (f.write namespaceName m out).Yields t₁ paths t₂) ∧
        (f = .ts → m.type ≠ "index.ts") := by
  obtain ⟨types, t₁, t₂, -, -, htypes, hscripts, -⟩ := yields_write.mp h
  obtain ⟨-, hsteps⟩ := Writing.grows_of_mapM htypes fun result _ t y t' hy => by
    cases hok : result.isOk with
    | false =>
      obtain ⟨-, rfl⟩ := (TypeResult.yields_write_of_not_isOk hok).mp hy
      exact FileTree.Grows.refl t
    | true =>
      obtain ⟨m, hm⟩ := TypeResult.exists_modes_of_isOk hok
      exact (TypeResult.grows_of_yields hok hm hy).1
  intro result hresult m hm f hf
  obtain ⟨hmem, hok⟩ := List.mem_filter.mp hresult
  obtain ⟨_, _, t₃, hresult, hrest⟩ := hsteps result hmem
  obtain ⟨t₄, paths, t₅, hwritten, hafter⟩ := (TypeResult.grows_of_yields hok hm hresult).2 f hf
  refine ⟨⟨t₄, paths, t₅, hwritten⟩, fun hts htype => ?_⟩
  subst hts
  -- The directory of such a type is still there when the index of script modules is written.
  rw [if_pos hf] at hscripts
  obtain ⟨t₁', hmade, hscript⟩ := hscripts
  have hgrows := (hafter.trans hrest).trans (FileTree.ensureDirectories_extends hmade).grows
  have hdirectory := hgrows.isDirectory (OutputFormat.grows_of_yields hwritten).2.1
  rw [htype] at hdirectory
  exact absurd hdirectory (Bool.eq_false_iff.mp (FileTree.not_isDirectory_of_write hscript))

end Report

end DesignTokens
