import DesignTokens.Proofs.Binding
import DesignTokens.Proofs.Commands
import DesignTokens.Proofs.Recording

/-! Whether what has been written stays. Files of different types, formats and ledgers have places
of their own as long as the files of modes lie in the folder of their type. Within a folder only the
index of script modules can take the place of a mode, unless names of modes hold slashes. -/
namespace DesignTokens

namespace OutputFormat

variable {f : OutputFormat} {type mode : String} {out : Path} {modes : List String}

theorem name_inj {f g : OutputFormat} : f.name = g.name ↔ f = g := by
  cases f <;> cases g <;> decide

theorem place_directory (f : OutputFormat) (out : Path) (h : IsFileName type) :
    (f.directory out type).place = out.place ++ [f.name, type] := by
  rw [directory, h.place, f.isFileName_name.place, List.append_assoc]
  rfl

theorem fileName_inj {a b : String} : f.fileName a = f.fileName b ↔ a = b := by
  constructor
  · intro h
    cases f with
    | scss =>
      have hend : "_" ++ a ++ ".scss" = "_" ++ b ++ ".scss" := h
      exact (String.append_right_inj _).mp ((String.append_left_inj _).mp hend)
    | json => exact (String.append_left_inj ".json").mp h
    | dtcg => exact (String.append_left_inj ".tokens.json").mp h
    | ts => exact (String.append_left_inj ".ts").mp h
  · rintro rfl
    rfl

theorem place_file (f : OutputFormat) (h : '/' ∉ mode.toList) (p : Path) :
    (p / f.fileName mode).place = p.place ++ [f.fileName mode] := by
  have hplain : ∀ s : String, toString s = s := fun _ => rfl
  have hslash : '/' ∉ (f.fileName mode).toList := by
    cases f <;> simp [fileName, hplain, h]
  have hlong : 2 < (f.fileName mode).toList.length := by
    cases f <;> simp [fileName, hplain]
  apply Path.place_div _ hslash
  all_goals
    intro heq
    rw [heq] at hlong
    exact absurd hlong (by decide)

/-- Whether the files of modes lie in the folder of their type. -/
def Encloses (f : OutputFormat) (out : Path) (type : String) (modes : List String) : Prop :=
  ∀ mode ∈ modes, ∃ rest, rest ≠ [] ∧
    (f.directory out type / f.fileName mode).place = out.place ++ f.name :: type :: rest

theorem encloses_of_slashless (f : OutputFormat) (out : Path) (htype : IsFileName type)
    (hmodes : ∀ mode ∈ modes, '/' ∉ mode.toList) : f.Encloses out type modes := by
  intro mode hmode
  refine ⟨[f.fileName mode], by simp, ?_⟩
  rw [place_file f (hmodes mode hmode), place_directory f out htype, List.append_assoc]
  rfl

/-- What is written for a type in a format lies in its folder if the files of modes do. -/
theorem place_of_mem_paths (htype : IsFileName type) (h : f.Encloses out type modes) {path : Path}
    (hpath : path ∈ f.paths type modes out) :
    ∃ rest, rest ≠ [] ∧ path.place = out.place ++ f.name :: type :: rest := by
  rcases List.mem_append.mp hpath with hfile | hindex
  · obtain ⟨mode, hmode, rfl⟩ := List.mem_map.mp hfile
    exact h mode hmode
  · split at hindex
    · obtain rfl := List.mem_singleton.mp hindex
      have hname : IsFileName "index.ts" := by decide
      refine ⟨["index.ts"], by simp, ?_⟩
      rw [hname.place, place_directory f out htype, List.append_assoc]
      rfl
    · cases hindex

/-- Modes whose names hold no slash have places of their own, unless one takes that of the index. -/
theorem nodup_paths (hslash : ∀ mode ∈ modes, '/' ∉ mode.toList) (hmodes : modes.Nodup) :
    ((f.paths type modes out).map (·.place)).Nodup ↔ (f = .ts → "index" ∉ modes) := by
  have hname : IsFileName "index.ts" := by decide
  have hplaces : (f.paths type modes out).map (·.place) =
      (modes.map f.fileName ++ if f = .ts then ["index.ts"] else []).map
        fun name => (f.directory out type).place ++ [name] := by
    rw [paths, List.map_append, List.map_append, List.map_map, List.map_map]
    congr 1
    · apply List.map_congr_left
      intro mode hmode
      exact place_file f (hslash mode hmode) _
    · split
      · exact congrArg (· :: []) (hname.place _)
      · rfl
  have hinjective : Function.Injective fun name => (f.directory out type).place ++ [name] := by
    intro a b hab
    simpa using hab
  have hfiles : (modes.map f.fileName).Nodup :=
    (List.nodup_map_iff fun a b => fileName_inj.mp).mpr hmodes
  rw [hplaces, List.nodup_map_iff hinjective, List.nodup_append]
  by_cases hts : f = .ts
  · subst hts
    have hindex : ∀ mode, OutputFormat.ts.fileName mode = "index.ts" ↔ mode = "index" :=
      fun mode => fileName_inj (f := .ts) (b := "index")
    simp only [if_true, hfiles, List.nodup_singleton, true_and, List.forall_mem_singleton,
      List.forall_mem_map, ne_eq, hindex, forall_const]
    exact ⟨fun h hmem => h "index" hmem rfl, fun h mode hmode heq => h (heq ▸ hmode)⟩
  · simp [hts, hfiles]

end OutputFormat

theorem LedgerKind.name_inj {a b : LedgerKind} : a.name = b.name ↔ a = b := by
  cases a <;> cases b <;> decide

theorem LedgerResult.place_path (r : LedgerResult) {type : String} (htype : IsFileName type)
    (out : Path) :
    (r.path type out).place = out.place ++ [r.kind.name, OutputFormat.json.fileName type] := by
  have hname := OutputFormat.isFileName_fileName .json htype
  have hpath : r.path type out = out / r.kind.name / OutputFormat.json.fileName type := rfl
  rw [hpath, hname.place, r.kind.isFileName_name.place, List.append_assoc]
  rfl

/-- A place that belongs to a type: within its folder in a format, or that of one of its ledgers. -/
def BelongsTo (out : Path) (type : String) (place : List String) : Prop :=
  (∃ f : OutputFormat, ∃ rest, rest ≠ [] ∧ place = out.place ++ f.name :: type :: rest) ∨
    ∃ kind : LedgerKind, place = out.place ++ [kind.name, OutputFormat.json.fileName type]

namespace BelongsTo

variable {out : Path} {a b : String} {place : List String}

/-- No place belongs to two types. -/
theorem unique (ha : BelongsTo out a place) (hb : BelongsTo out b place) : a = b := by
  rcases ha with ⟨f, rest, -, rfl⟩ | ⟨kind, rfl⟩
  · rcases hb with ⟨g, rest', -, hplace⟩ | ⟨kind, hplace⟩
    · have hnames := List.append_cancel_left hplace
      exact (List.cons.inj (List.cons.inj hnames).2).1
    · have hnames := List.append_cancel_left hplace
      exact absurd (List.cons.inj hnames).1 (format_name_ne_kind_name f kind)
  · rcases hb with ⟨g, rest', -, hplace⟩ | ⟨kind', hplace⟩
    · have hnames := List.append_cancel_left hplace
      exact absurd (List.cons.inj hnames).1.symm (format_name_ne_kind_name g kind)
    · have hnames := List.append_cancel_left hplace
      exact OutputFormat.fileName_inj.mp (List.cons.inj (List.cons.inj hnames).2).1

theorem ne_scriptIndex (h : BelongsTo out a place) :
    place ≠ out.place ++ [OutputFormat.ts.name, "index.ts"] := by
  intro heq
  rcases h with ⟨f, rest, hrest, rfl⟩ | ⟨kind, rfl⟩
  · have hnames := List.append_cancel_left heq
    exact hrest (List.cons.inj (List.cons.inj hnames).2).2
  · have hnames := List.append_cancel_left heq
    exact format_name_ne_kind_name .ts kind (List.cons.inj hnames).1.symm

theorem ne_index (h : BelongsTo out a place) : place ≠ out.place ++ ["index.json"] := by
  intro heq
  rcases h with ⟨f, rest, -, rfl⟩ | ⟨kind, rfl⟩
  · have hnames := List.append_cancel_left heq
    cases (List.cons.inj hnames).2
  · have hnames := List.append_cancel_left heq
    cases (List.cons.inj hnames).2

end BelongsTo

namespace TypeResult

variable {r : TypeResult} {formats : List OutputFormat} {out : Path}

theorem belongsTo_of_mem_paths (htype : IsFileName r.type)
    (h : ∀ f ∈ formats, f.Encloses out r.type r.modeNames) {path : Path}
    (hpath : path ∈ r.paths formats out) : BelongsTo out r.type path.place := by
  rcases List.mem_append.mp hpath with hmode | hledger
  · obtain ⟨f, hf, hmode⟩ := List.mem_flatMap.mp hmode
    exact Or.inl ⟨f, OutputFormat.place_of_mem_paths htype (h f hf) hmode⟩
  · obtain ⟨l, -, rfl⟩ := List.mem_map.mp hledger
    exact Or.inr ⟨l.kind, l.place_path htype out⟩

/-- The files of a type have places of their own if those of each format do. -/
theorem nodup_paths (hformats : formats.Nodup) (hkinds : (r.ledgers.map (·.kind)).Nodup)
    (htype : IsFileName r.type) (h : ∀ f ∈ formats, f.Encloses out r.type r.modeNames) :
    ((r.paths formats out).map (·.place)).Nodup ↔
      ∀ f ∈ formats, ((f.paths r.type r.modeNames out).map (·.place)).Nodup := by
  have hledgers : ((r.ledgers.map (·.path r.type out)).map (·.place)).Nodup := by
    have hplaces : (r.ledgers.map (·.path r.type out)).map (·.place) =
        (r.ledgers.map (·.kind)).map fun kind =>
          out.place ++ [kind.name, OutputFormat.json.fileName r.type] := by
      rw [List.map_map, List.map_map]
      exact List.map_congr_left fun l _ => l.place_path htype out
    rw [hplaces]
    apply (List.nodup_map_iff ?_).mpr hkinds
    intro a b hab
    exact LedgerKind.name_inj.mp (List.cons.inj (List.append_cancel_left hab)).1
  have hapart : formats.Pairwise (Function.onFun List.Disjoint fun f =>
      (f.paths r.type r.modeNames out).map (·.place)) := by
    apply List.Pairwise.imp_of_mem ?_ hformats
    intro f g hf hg hne place hplace hplace'
    obtain ⟨path, hpath, rfl⟩ := List.mem_map.mp hplace
    obtain ⟨path', hpath', hsame⟩ := List.mem_map.mp hplace'
    obtain ⟨rest, -, hrest⟩ := OutputFormat.place_of_mem_paths htype (h f hf) hpath
    obtain ⟨rest', -, hrest'⟩ := OutputFormat.place_of_mem_paths htype (h g hg) hpath'
    rw [hrest, hrest'] at hsame
    have hnames := List.append_cancel_left hsame
    exact hne (OutputFormat.name_inj.mp (List.cons.inj hnames).1.symm)
  have hmixed : ∀ place ∈ formats.flatMap (fun f =>
      (f.paths r.type r.modeNames out).map (·.place)),
      ∀ place' ∈ (r.ledgers.map (·.path r.type out)).map (·.place), place ≠ place' := by
    intro place hplace place' hplace' hsame
    obtain ⟨f, hf, hplace⟩ := List.mem_flatMap.mp hplace
    obtain ⟨path, hpath, rfl⟩ := List.mem_map.mp hplace
    obtain ⟨path', hpath', rfl⟩ := List.mem_map.mp hplace'
    obtain ⟨l, -, rfl⟩ := List.mem_map.mp hpath'
    obtain ⟨rest, -, hrest⟩ := OutputFormat.place_of_mem_paths htype (h f hf) hpath
    rw [hrest, l.place_path htype out] at hsame
    have hnames := List.append_cancel_left hsame
    exact format_name_ne_kind_name f l.kind (List.cons.inj hnames).1
  rw [paths, List.map_append, List.map_flatMap, List.nodup_append, List.nodup_flatMap]
  exact ⟨fun hnodup => hnodup.1.1, fun hnodup => ⟨⟨hnodup, hapart⟩, hledgers, hmixed⟩⟩

end TypeResult

namespace Report

/-- Whether a mode takes the name of the index of script modules. -/
def NamesIndex (r : Report) (formats : List OutputFormat) : Prop :=
  .ts ∈ formats ∧ ∃ result ∈ r.sound, "index" ∈ result.modeNames

/-- The indexes of the outputs, by the formats that are written. -/
def indexPaths (formats : List OutputFormat) (out : Path) : List Path :=
  (if .ts ∈ formats then [scriptIndexPath out] else []) ++ [out / "index.json"]

theorem place_scriptIndexPath (out : Path) :
    (scriptIndexPath out).place = out.place ++ [OutputFormat.ts.name, "index.ts"] := by
  have hname : IsFileName "index.ts" := by decide
  rw [scriptIndexPath, hname.place, OutputFormat.ts.isFileName_name.place, List.append_assoc]
  rfl

theorem place_indexPath (out : Path) : (out / "index.json").place = out.place ++ ["index.json"] := by
  have hname : IsFileName "index.json" := by decide
  exact hname.place out

theorem nodup_indexPaths (formats : List OutputFormat) (out : Path) :
    ((indexPaths formats out).map (·.place)).Nodup := by
  have hboth : (scriptIndexPath out).place ≠ (out / "index.json").place := by
    rw [place_scriptIndexPath, place_indexPath]
    intro heq
    cases (List.cons.inj (List.append_cancel_left heq)).2
  unfold indexPaths
  split <;> simp [hboth]

theorem not_belongsTo_of_mem_indexPaths {formats : List OutputFormat} {out path : Path}
    (h : path ∈ indexPaths formats out) (type : String) : ¬ BelongsTo out type path.place := by
  intro hbelongs
  rcases List.mem_append.mp h with hscript | hindex
  · obtain rfl : path = scriptIndexPath out := by
      split at hscript <;> simp_all
    exact hbelongs.ne_scriptIndex (place_scriptIndexPath out)
  · obtain rfl := List.mem_singleton.mp hindex
    exact hbelongs.ne_index (place_indexPath out)

/-- The files of a report have places of their own if those of each type in each format do. -/
theorem nodup_paths {r : Report} {formats : List OutputFormat} {out : Path}
    (hformats : formats.Nodup) (hdistinct : (r.sound.map (·.type)).Nodup)
    (hproper : ∀ result ∈ r.sound, IsFileName result.type)
    (hkinds : ∀ result ∈ r.sound, (result.ledgers.map (·.kind)).Nodup)
    (h : ∀ result ∈ r.sound, ∀ f ∈ formats, f.Encloses out result.type result.modeNames) :
    ((r.sound.flatMap (·.paths formats out) ++ indexPaths formats out).map (·.place)).Nodup ↔
      ∀ result ∈ r.sound, ∀ f ∈ formats,
        ((f.paths result.type result.modeNames out).map (·.place)).Nodup := by
  have hbelongs : ∀ result ∈ r.sound, ∀ place ∈ (result.paths formats out).map (·.place),
      BelongsTo out result.type place := by
    intro result hresult place hplace
    obtain ⟨path, hpath, rfl⟩ := List.mem_map.mp hplace
    exact TypeResult.belongsTo_of_mem_paths (hproper result hresult) (h result hresult) hpath
  have hapart : r.sound.Pairwise (Function.onFun List.Disjoint fun result =>
      (result.paths formats out).map (·.place)) := by
    rw [List.Nodup, List.pairwise_map] at hdistinct
    apply List.Pairwise.imp_of_mem ?_ hdistinct
    intro a b ha hb hne place hplace hplace'
    exact hne ((hbelongs a ha place hplace).unique (hbelongs b hb place hplace'))
  have hindexes : ∀ place ∈ r.sound.flatMap (fun result =>
      (result.paths formats out).map (·.place)),
      ∀ place' ∈ (indexPaths formats out).map (·.place), place ≠ place' := by
    intro place hplace place' hplace' hsame
    obtain ⟨result, hresult, hplace⟩ := List.mem_flatMap.mp hplace
    obtain ⟨path, hpath, rfl⟩ := List.mem_map.mp hplace'
    exact not_belongsTo_of_mem_indexPaths hpath result.type
      (hsame ▸ hbelongs result hresult place hplace)
  have htypes : ∀ result ∈ r.sound, ((result.paths formats out).map (·.place)).Nodup ↔
      ∀ f ∈ formats, ((f.paths result.type result.modeNames out).map (·.place)).Nodup :=
    fun result hresult => TypeResult.nodup_paths hformats (hkinds result hresult)
      (hproper result hresult) (h result hresult)
  rw [← forall₂_congr htypes, List.map_append, List.map_flatMap, List.nodup_append,
    List.nodup_flatMap]
  exact ⟨fun hnodup => hnodup.1.1,
    fun hnodup => ⟨⟨hnodup, hapart⟩, nodup_indexPaths formats out, hindexes⟩⟩

section Kept

variable [Platform] {r : Report} {formats : List OutputFormat} {namespaceName : Value} {out : Path}

/-- The index of script modules is no module. -/
theorem scriptIndex_ne_module {names : List String} (hne : names ≠ []) {set : ModeSet}
    {mode text : String} (h : set.scriptModule mode = .ok text) : text ≠ scriptIndex names := by
  obtain ⟨s, -, h⟩ := bind_eq_ok.mp h
  obtain ⟨tree, -, h⟩ := bind_eq_ok.mp h
  cases h
  obtain ⟨name, rest, rfl⟩ := List.exists_cons_of_ne_nil hne
  intro heq
  have hlist := congrArg String.toList heq
  have hmodule : (s!"export default {tree}\n").toList =
      'e' :: ("xport default ".toList ++ tree.toList ++ ['\n']) := by
    show ("export default " ++ tree ++ "\n").toList = _
    rw [String.toList_append, String.toList_append]
    rfl
  rw [hmodule, ModuleIndex.toList_scriptIndex, List.flatMap_cons] at hlist
  exact absurd (List.cons.inj hlist).1 (by decide)

/-- Files that all keep their texts are no index in the place of a mode. -/
theorem not_namesIndex_of_read {files : List (Path × String)} {after : FileTree}
    (hfiles : r.files formats namespaceName out = .ok files)
    (hcomplete : ∀ result ∈ r.sound, ∃ set, result.Complete set)
    (hread : ∀ file ∈ files, after.read file.1 = .ok file.2.toUTF8) : ¬ r.NamesIndex formats := by
  intro h
  obtain ⟨hts, result, hresult, hmode⟩ := h
  obtain ⟨set, hset⟩ := hcomplete result hresult
  obtain ⟨part, hpart, hsub⟩ := files_of_type hfiles hresult
  have hok := (List.mem_filter.mp hresult).2
  obtain ⟨some, hsome, hsub'⟩ := TypeResult.files_of_format hok hset.modes hpart hts
  have hnames : result.modeNames = set.names := by
    rw [TypeResult.modeNames, hset.modes]
    rfl
  rw [hnames] at hmode
  obtain ⟨mode, hmem, hindex⟩ := List.mem_map.mp hmode
  obtain ⟨text, htext, hmodule⟩ := OutputFormat.mode_mem_files hsome hmem
  have hlast := hread _ (hsub _ (hsub' _ (OutputFormat.index_mem_files hsome)))
  have hfirst := hread _ (hsub _ (hsub' _ hmodule))
  rw [hindex] at hfirst
  have hsame : text.toUTF8 = (scriptIndex set.names).toUTF8 :=
    Except.ok.inj (hfirst.symm.trans hlast)
  exact scriptIndex_ne_module (List.ne_nil_of_mem hmode) htext (String.toByteArray_inj.mp hsame)

variable [Yaml.Library] {t : FileTree} {m : Manifest}

/-- The types of a project have names of their own. -/
theorem types_nodup (ht : t.Sound) (hbuild : (build t m).outcome = .ok r) :
    (r.sound.map (·.type)).Nodup := by
  obtain ⟨data, types, -, htypes, hresults⟩ := build_eq_ok hbuild
  have hnames : types = r.results.map (·.type) := by
    have hsame : List.Forall₂ (fun type result => id type = result.type) types r.results := by
      refine List.forall₂_iff_zip.mpr ⟨hresults.length_eq, fun {type result} hmem => ?_⟩
      obtain ⟨hname, hdir⟩ := directory_of_discoverTypes ht htypes type (List.of_mem_zip hmem).1
      have htype := (TypeResult.isOk_iff_passes hdir (List.forall₂_zip hresults hmem)).1
      exact (htype.trans hname).symm
    have hmap := map_eq_map_of_forall₂ hsame
    rwa [List.map_id] at hmap
  obtain ⟨sorted, hsorted, hpairwise, -⟩ :=
    discoverTypes_sorted ht (isDirectory_of_discoverTypes htypes)
  rw [htypes] at hsorted
  cases hsorted
  have hdistinct : types.Nodup := hpairwise.imp fun hlt => ne_of_lt hlt
  rw [hnames] at hdistinct
  exact (List.filter_sublist.map _).nodup hdistinct

/-- A type without errors has one ledger of each kind at most. -/
theorem kinds_nodup (ht : t.Sound) (hbuild : (build t m).outcome = .ok r) :
    ∀ result ∈ r.sound, (result.ledgers.map (·.kind)).Nodup := by
  obtain ⟨data, types, -, htypes, hresults⟩ := build_eq_ok hbuild
  intro result hresult
  obtain ⟨hmem, hok⟩ := List.mem_filter.mp hresult
  obtain ⟨type, htype, hbuilt⟩ := exists_left_of_forall₂ hresults hmem
  obtain ⟨-, hdir⟩ := directory_of_discoverTypes ht htypes type htype
  obtain ⟨-, hiff, hpasses⟩ := TypeResult.isOk_iff_passes hdir hbuilt
  obtain ⟨s, modes, hpass⟩ := hiff.mp hok
  obtain ⟨configured, -, hledgers⟩ := hpasses s modes hpass
  have hfiles := congrArg (List.map Prod.fst) (TypeResult.ledgers_isOk_iff hledgers).2.2
  rw [List.map_map] at hfiles
  have hkinds : result.ledgers.map (·.kind) = (TypeResult.ledgerFiles s).map (·.1) := hfiles
  rw [hkinds, TypeResult.ledgerFiles]
  cases s.deprecated <;> cases s.removed <;> simp

theorem exists_complete (ht : t.Sound) (hbuild : (build t m).outcome = .ok r) :
    ∀ result ∈ r.sound, ∃ set, result.Complete set := by
  intro result hresult
  obtain ⟨-, set, hset⟩ := ready_of_mem ht hbuild result hresult
  exact ⟨set, hset.complete⟩

/-- What is written stays, as far as it does. The files of a report have been written one after the
other, and each path holds the text of the last file at its place. If the files of modes lie in the
folder of their type and format, all files have places of their own exactly if those of each type in
each format do. They lie there if no name of a mode holds a slash, and then files have places of
their own, or keep their texts, exactly if no mode takes the name of the index of script modules. -/
theorem write_keeps (ht : t.Sound) (hbuild : (build t m).outcome = .ok r)
    (hformats : formats.Nodup) {before after : FileTree} {written : List Path}
    (h : (r.write formats namespaceName out).Yields before written after) :
    ∃ files, r.files formats namespaceName out = .ok files ∧ files.map (·.1) = written ∧
      (∀ earlier file later, files = earlier ++ file :: later →
        (∀ other ∈ later, other.1.place ≠ file.1.place) →
        ∀ other ∈ files, other.1.place = file.1.place →
          after.read other.1 = .ok file.2.toUTF8) ∧
      ((∀ result ∈ r.sound, ∀ f ∈ formats, f.Encloses out result.type result.modeNames) →
        ((written.map (·.place)).Nodup ↔ ∀ result ∈ r.sound, ∀ f ∈ formats,
          ((f.paths result.type result.modeNames out).map (·.place)).Nodup)) ∧
      ((∀ result ∈ r.sound, ∀ mode ∈ result.modeNames, '/' ∉ mode.toList) →
        (∀ result ∈ r.sound, ∀ f ∈ formats, f.Encloses out result.type result.modeNames) ∧
        ((written.map (·.place)).Nodup ↔ ¬ r.NamesIndex formats) ∧
        ((∀ file ∈ files, after.read file.1 = .ok file.2.toUTF8) ↔ ¬ r.NamesIndex formats)) := by
  have hready := ready_of_mem ht hbuild
  have hproper : ∀ result ∈ r.sound, IsFileName result.type :=
    fun result hresult => (hready result hresult).1
  have hcomplete := exists_complete ht hbuild
  have hmodes : ∀ result ∈ r.sound, result.modeNames.Nodup := by
    intro result hresult
    obtain ⟨-, set, hset⟩ := hready result hresult
    rw [TypeResult.modeNames, hset.complete.modes]
    exact hset.rendered.names_nodup
  obtain ⟨files, hfiles, hpaths, hrecords⟩ := records_of_yields h
  have hgroups : (∀ result ∈ r.sound, ∀ f ∈ formats,
        f.Encloses out result.type result.modeNames) →
      ((written.map (·.place)).Nodup ↔ ∀ result ∈ r.sound, ∀ f ∈ formats,
        ((f.paths result.type result.modeNames out).map (·.place)).Nodup) := by
    rw [paths_of_yields hcomplete h, List.append_assoc]
    exact nodup_paths hformats (types_nodup ht hbuild) hproper (kinds_nodup ht hbuild)
  refine ⟨files, hfiles, hpaths, ?_, hgroups, fun hslash => ?_⟩
  · intro earlier file later hsplit hlast other hother hplace
    exact hrecords.read_of_last hsplit hlast hother hplace
  have hinside : ∀ result ∈ r.sound, ∀ f ∈ formats,
      f.Encloses out result.type result.modeNames := fun result hresult f _ =>
    f.encloses_of_slashless out (hproper result hresult) (hslash result hresult)
  have hnodup : (written.map (·.place)).Nodup ↔ ¬ r.NamesIndex formats := by
    rw [hgroups hinside]
    constructor
    · intro hnodup hindex
      obtain ⟨hts, result, hresult, hmode⟩ := hindex
      exact (OutputFormat.nodup_paths (hslash result hresult) (hmodes result hresult)).mp
        (hnodup result hresult .ts hts) rfl hmode
    · intro hindex result hresult f hf
      apply (OutputFormat.nodup_paths (hslash result hresult) (hmodes result hresult)).mpr
      rintro rfl hmode
      exact hindex ⟨hf, result, hresult, hmode⟩
  refine ⟨hinside, hnodup, not_namesIndex_of_read hfiles hcomplete, fun hindex => ?_⟩
  apply hrecords.read_of_nodup
  have hplaces := hnodup.mpr hindex
  rw [← hpaths, List.map_map] at hplaces
  exact hplaces

end Kept

/-- The modes of colours have names of their own, and all of their files keep their texts. -/
theorem write_keeps_colors :
    gatedProject.Sound ∧ [OutputFormat.ts].Nodup ∧
    ∃ r, (build gatedProject gatedManifest).outcome = .ok r ∧
      (∀ result ∈ r.sound, ∀ mode ∈ result.modeNames, '/' ∉ mode.toList) ∧
      ∃ written after,
        (r.write [.ts] "proj" ⟨"/", ["out"]⟩).Yields gatedProject written after ∧
        (written.map (·.place)).Nodup ∧
        ∃ files, r.files [.ts] "proj" ⟨"/", ["out"]⟩ = .ok files ∧ files.map (·.1) = written ∧
          ∀ file ∈ files, after.read file.1 = .ok file.2.toUTF8 := by
  have hsound : gatedProject.Sound := ⟨by decide, by decide⟩
  have hformats : [OutputFormat.ts].Nodup := by decide
  have hverdict : (match (build gatedProject gatedManifest).outcome with
      | .ok r => ((r.write [.ts] "proj" ⟨"/", ["out"]⟩).endsWell gatedProject,
        r.sound.map (·.modeNames))
      | .error _ => (false, [])) = (true, [["light", "dark"]]) := by
    decide +kernel
  split at hverdict
  · next r hr =>
    obtain ⟨hends, hmodes⟩ := Prod.mk.inj hverdict
    have hnames : ∀ result ∈ r.sound, result.modeNames = ["light", "dark"] := by
      intro result hresult
      have hmem : result.modeNames ∈ r.sound.map (·.modeNames) := List.mem_map_of_mem hresult
      rw [hmodes] at hmem
      exact List.mem_singleton.mp hmem
    have hslash : ∀ result ∈ r.sound, ∀ mode ∈ result.modeNames, '/' ∉ mode.toList := by
      intro result hresult
      rw [hnames result hresult]
      decide
    have hindex : ¬ r.NamesIndex [.ts] := by
      rintro ⟨-, result, hresult, hmode⟩
      rw [hnames result hresult] at hmode
      exact absurd hmode (by decide)
    obtain ⟨written, after, hyields⟩ := Writing.exists_yields_iff_endsWell.mpr hends
    obtain ⟨files, hfiles, hpaths, -, -, hkeeps⟩ := write_keeps hsound hr hformats hyields
    obtain ⟨-, hnodup, hreads⟩ := hkeeps hslash
    exact ⟨hsound, hformats, r, hr, hslash, written, after, hyields, hnodup.mpr hindex, files,
      hfiles, hpaths, hreads.mpr hindex⟩
  · cases hverdict

/-- A project of one type with one mode, which has the name of an index. -/
def indexedProject : FileTree :=
  ⟨[(["proj"], .directory), (["proj", "data"], .directory),
    (["proj", "data", "colors"], .directory),
    (["proj", "data", "colors", "index.yml"], .file "a: 1\n".toUTF8)]⟩

/-- The mode of that project and the index of script modules are written to one place, where the
mode is lost. A mode whose name leads above the folder of its type does not lie in it. -/
theorem write_replaces :
    indexedProject.Sound ∧
    (∃ r, (build indexedProject gatedManifest).outcome = .ok r ∧ ∃ after,
      (r.write [.ts] "proj" ⟨"/", ["out"]⟩).Yields indexedProject
        [⟨"/", ["out", "ts", "colors", "index.ts"]⟩, ⟨"/", ["out", "ts", "colors", "index.ts"]⟩,
          ⟨"/", ["out", "ts", "index.ts"]⟩, ⟨"/", ["out", "index.json"]⟩] after ∧
      ∃ files, r.files [.ts] "proj" ⟨"/", ["out"]⟩ = .ok files ∧
        ∃ file ∈ files, after.read file.1 ≠ .ok file.2.toUTF8) ∧
    ¬ OutputFormat.json.Encloses ⟨"/", ["out"]⟩ "colors" ["../light"] := by
  have hsound : indexedProject.Sound := ⟨by decide, by decide⟩
  have hverdict : (match (build indexedProject gatedManifest).outcome with
      | .ok r => ((r.write [.ts] "proj" ⟨"/", ["out"]⟩).endsWell indexedProject,
        r.sound.map fun result => (result.type, result.modeNames, result.ledgers.map (·.kind)))
      | .error _ => (false, [])) = (true, [("colors", ["index"], [])]) := by
    decide +kernel
  refine ⟨hsound, ?_, ?_⟩
  · split at hverdict
    · next r hr =>
      obtain ⟨hends, hmodes⟩ := Prod.mk.inj hverdict
      obtain ⟨written, after, hyields⟩ := Writing.exists_yields_iff_endsWell.mpr hends
      obtain ⟨colors, hcolors, hfacts⟩ := List.map_eq_singleton_iff.mp hmodes
      obtain ⟨htype, hfacts⟩ := Prod.mk.inj hfacts
      obtain ⟨hnames, hkinds⟩ := Prod.mk.inj hfacts
      have hledgers : colors.ledgers = [] := List.map_eq_nil_iff.mp hkinds
      have hcomplete := exists_complete hsound hr
      have hindex : r.NamesIndex [.ts] := by
        refine ⟨List.mem_singleton_self _, colors, ?_, ?_⟩
        · rw [hcolors]
          exact List.mem_singleton_self _
        · rw [hnames]
          exact List.mem_singleton_self _
      have hwritten := paths_of_yields hcomplete hyields
      rw [hcolors, List.flatMap_singleton, TypeResult.paths, hnames, hledgers, htype] at hwritten
      obtain ⟨files, hfiles, -, -⟩ := records_of_yields hyields
      have hlost : ¬ ∀ file ∈ files, after.read file.1 = .ok file.2.toUTF8 :=
        fun hread => not_namesIndex_of_read hfiles hcomplete hread hindex
      push Not at hlost
      subst hwritten
      exact ⟨r, hr, after, hyields, files, hfiles, hlost⟩
    · cases hverdict
  · intro h
    obtain ⟨rest, -, hplace⟩ := h "../light" List.mem_cons_self
    have hfile : (OutputFormat.json.directory ⟨"/", ["out"]⟩ "colors" /
        OutputFormat.json.fileName "../light").place = ["out", "json", "light.json"] := by
      decide +kernel
    rw [hfile] at hplace
    have hnames := (List.cons.inj (List.cons.inj hplace).2).2
    exact absurd (List.cons.inj hnames).1 (by decide)

end Report

end DesignTokens
