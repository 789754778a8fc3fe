import DesignTokens.Proofs.Gate
import DesignTokens.Proofs.Placing

/-! Types do not interfere. What is built for a type is read below its directory and from the overlays
that its index names, and depends on its own settings and skip rules. So two trees that agree on these
files give the same result for the type, with whatever other types and manifests around it. -/
namespace DesignTokens

namespace FileTree

theorem mem_namesIn_iff {t : FileTree} {place : List String} {name : String} :
    name ∈ t.namesIn place ↔ (t.item? (place ++ [name])).isSome = true := by
  rw [item?_of_ne_nil (by simp), List.lookup_isSome_iff]
  simp only [namesIn, List.mem_filterMap, beq_iff_eq]
  refine exists_congr fun item => and_congr_right fun _ => ?_
  constructor
  · intro h
    split at h
    · next hplace => rw [← hplace, List.dropLast_append_getLast? name h]
    · cases h
  · intro h
    rw [← h]
    simp

/-- Two trees agree on everything at and below the place that a path leads to. -/
def SameBelow (t t' : FileTree) (p : Path) : Prop :=
  ∀ place, t.walk [] p.names = .ok place → ∀ below, t.item? (place ++ below) = t'.item? (place ++ below)

/-- A path leads to the same place in two trees, with the same item, or nowhere for one reason. -/
structure SameAt (t t' : FileTree) (p : Path) : Prop where
  walk_eq : t.walk [] p.names = t'.walk [] p.names
  item_eq : ∀ place, t.walk [] p.names = .ok place → t.item? place = t'.item? place

variable {t t' : FileTree} {p directory : Path} {place : List String} {name : String}

/-- The names alone tell which place they lead to. -/
theorem walk_unique {here place' names : List String} (h : t.walk here names = .ok place)
    (h' : t'.walk here names = .ok place') : place = place' := by
  induction names generalizing here with
  | nil => exact Except.ok.inj (h.symm.trans h')
  | cons name rest ih =>
    rw [← List.singleton_append, walk_append, bind_eq_ok] at h h'
    obtain ⟨next, hnext, h⟩ := h
    obtain ⟨next', hnext', h'⟩ := h'
    obtain rfl : next = next' := by
      obtain ⟨-, ⟨hup, rfl⟩ | ⟨hdown, -, rfl⟩⟩ := walk_singleton_eq_ok.mp hnext <;>
        obtain ⟨-, ⟨hup', rfl⟩ | ⟨hdown', -, rfl⟩⟩ := walk_singleton_eq_ok.mp hnext'
      · rfl
      · exact absurd hup hdown'
      · exact absurd hup' hdown
      · rfl
    exact ih h h'

namespace SameAt

theorem find?_eq (h : t.SameAt t' p) : t.find? p = t'.find? p := by
  unfold find?
  rw [← h.walk_eq]
  cases hwalk : t.walk [] p.names with
  | error problem => rfl
  | ok place => simp only [h.item_eq place hwalk]

theorem exists?_eq (h : t.SameAt t' p) : t.exists? p = t'.exists? p := by
  rw [exists?, exists?, h.find?_eq]

theorem isFile_eq (h : t.SameAt t' p) : t.isFile p = t'.isFile p := by
  rw [isFile, isFile, h.find?_eq]

theorem read_eq (h : t.SameAt t' p) : t.read p = t'.read p := by
  unfold read
  rw [← h.walk_eq]
  cases hwalk : t.walk [] p.names with
  | error problem => rfl
  | ok place => simp only [ok_bind, h.item_eq place hwalk]

end SameAt

theorem readText_congr (h : t.read p = t'.read p) : t.readText p = t'.readText p := by
  rw [readText, readText, h]

section Below

variable (hdir : t.isDirectory directory = true) (hdir' : t'.isDirectory directory = true)
  (hsame : t.SameBelow t' directory)
include hdir hdir' hsame

/-- A name in a directory on which two trees agree. -/
theorem sameAt_of_below (hempty : name ≠ "") (hslash : '/' ∉ name.toList) (hdot : name ≠ ".")
    (hdots : name ≠ "..") : t.SameAt t' (directory / name) := by
  obtain ⟨-, place, hwalk, hitem⟩ := find?_of_isDirectory hdir
  obtain ⟨-, place', hwalk', hitem'⟩ := find?_of_isDirectory hdir'
  obtain rfl := walk_unique hwalk hwalk'
  have hnext : t.item? (place ++ [name]) = t'.item? (place ++ [name]) := hsame place hwalk [name]
  have hstep : t.walk place [name] = t'.walk place [name] := by
    have hplace : t.hasDirectory place = true := hasDirectory_iff.mpr hitem
    have hplace' : t'.hasDirectory place = true := hasDirectory_iff.mpr hitem'
    simp only [walk, hplace, hplace', hdots, hnext]
  have hnames : (directory / name).names = directory.names ++ [name] := by
    rw [Path.div_of_proper hempty hslash hdot]
  constructor
  · rw [hnames, walk_append, walk_append, hwalk, hwalk', ok_bind, ok_bind, hstep]
  · intro found hfound
    rw [hnames, walk_append, hwalk, ok_bind] at hfound
    obtain ⟨-, ⟨hup, -⟩ | ⟨-, -, rfl⟩⟩ := walk_singleton_eq_ok.mp hfound
    · exact absurd hup hdots
    · exact hnext

/-- The names in a directory are the same where the items are. -/
theorem list_of_below (ht : t.Sound) (ht' : t'.Sound) : t.list directory = t'.list directory := by
  obtain ⟨-, place, hwalk, -⟩ := find?_of_isDirectory hdir
  obtain ⟨-, place', hwalk', -⟩ := find?_of_isDirectory hdir'
  obtain rfl := walk_unique hwalk hwalk'
  have hperm : (t.namesIn place).Perm (t'.namesIn place) := by
    refine (List.perm_ext_iff_of_nodup (namesIn_nodup ht place) (namesIn_nodup ht' place)).mpr ?_
    intro name
    rw [mem_namesIn_iff, mem_namesIn_iff, hsame place hwalk [name]]
  have hsorted : (t.namesIn place).mergeSort (fun a b => a ≤ b) =
      (t'.namesIn place).mergeSort fun a b => a ≤ b := by
    refine List.Perm.eq_of_pairwise (fun a b _ _ => le_antisymm) (pairwise_mergeSort_names _)
      (pairwise_mergeSort_names _) ?_
    exact (List.mergeSort_perm _ _).trans (hperm.trans (List.mergeSort_perm _ _).symm)
  rw [list_of_walk hdir hwalk, list_of_walk hdir' hwalk', hsorted]

end Below

end FileTree

theorem loadOverlay_congr [Yaml.Library] {t t' : FileTree} {path : Path}
    (h : t.read path = t'.read path) :
    loadOverlay t path = loadOverlay t' path := by
  rw [loadOverlay, loadOverlay, FileTree.readText_congr h]

namespace TypeSource

variable {t t' : FileTree} {directory : Path}

/-- The overlays of modes without an index are files of the directory. -/
theorem mem_looseModes {names : List String} {mode : String × List Path}
    (h : mode ∈ looseModes t directory names) :
    ∀ path ∈ mode.2, ∃ name ∈ names, path = directory / name ∧
      (t.isFile path && (path.suffix == ".yaml" || path.suffix == ".yml")) = true := by
  rw [looseModes_eq, mem_collected] at h
  obtain ⟨p, hp, rfl⟩ := List.mem_map.mp h.mem
  obtain ⟨hpath, hfits⟩ := List.mem_filter.mp hp
  obtain ⟨name, hname, rfl⟩ := List.mem_map.mp hpath
  intro path hpath'
  obtain rfl : path = directory / name := by simpa using hpath'
  exact ⟨name, hname, rfl, hfits⟩

variable [Yaml.Library]

theorem addOverlay_congr {s : TypeSource} {v : VariableSet} {path : Path}
    (h : t.read path = t'.read path) : addOverlay t s v path = addOverlay t' s v path := by
  rw [addOverlay, addOverlay, loadOverlay_congr h]

/-- The modes of a type depend on their overlays alone, and on which modes are to be skipped. -/
theorem build_congr {s : TypeSource} {skip skip' : List String} {strict : Bool} {baseline : Value}
    (hreads : ∀ mode ∈ s.modes, ∀ path ∈ mode.2, t.read path = t'.read path)
    (hskip : ∀ mode, mode ∈ skip ↔ mode ∈ skip') :
    s.build t skip strict baseline = s.build t' skip' strict baseline := by
  have hcontains : ∀ mode, skip.contains mode = skip'.contains mode := by
    intro mode
    rw [Bool.eq_iff_iff, List.contains_iff_mem, List.contains_iff_mem, hskip]
  have hadd : ∀ mode ∈ s.modes, ∀ m, addMode t s strict m mode = addMode t' s strict m mode := by
    intro mode hmode m
    have hfold : ∀ v, mode.2.foldlM (addOverlay t s) v =
        mode.2.foldlM (addOverlay t' s) v :=
      Noted.foldlM_congr fun path hpath v => addOverlay_congr (hreads mode hmode path hpath)
    simp only [addMode, hfold]
  simp only [build, hcontains]
  rw [Noted.foldlM_congr fun mode hmode m => hadd mode (List.mem_of_mem_filter hmode) m]

end TypeSource

theorem TypeResult.checkLedgers_congr {t t' : FileTree} {s : TypeSource} {set : ModeSet}
    (hdeprecated : ∀ path, s.deprecated = some path → t.read path = t'.read path)
    (hremoved : ∀ path, s.removed = some path → t.read path = t'.read path) :
    checkLedgers t s set = checkLedgers t' s set := by
  have hcheck : ∀ kind path, t.read path = t'.read path →
      checkLedger t s set kind path = checkLedger t' s set kind path := by
    intro kind path h
    rw [checkLedger, checkLedger, LedgerResult.check, LedgerResult.check, FileTree.readText_congr h]
  unfold checkLedgers
  simp only [List.foldlM_cons, List.foldlM_nil]
  cases hd : s.deprecated with
  | none =>
    cases hr : s.removed with
    | none => rfl
    | some removed => simp only [hcheck .removed removed (hremoved _ hr)]
  | some deprecated =>
    cases hr : s.removed with
    | none => simp only [hcheck .deprecated deprecated (hdeprecated _ hd)]
    | some removed =>
      simp only [hcheck .removed removed (hremoved _ hr),
        hcheck .deprecated deprecated (hdeprecated _ hd)]

/-- Two trees agree on all files that are read for the type in a directory: on those below it, and on
the overlays that its index lists, which may stand elsewhere. -/
structure SameFiles [Yaml.Library] (t t' : FileTree) (directory : Path) : Prop where
  below : t.SameBelow t' directory
  overlays : t.exists? (directory / "index.yaml") = true →
    ∀ modes, TypeSource.readModes t directory directory.name = .ok modes →
      ∀ mode ∈ modes, ∀ path ∈ mode.2, t.read path = t'.read path

/-- Two manifests agree on all that concerns a type. -/
structure Manifest.SameSettings (m m' : Manifest) (type : String) : Prop where
  strict_eq : m.strict = m'.strict
  settings_eq : m.settings type = m'.settings type
  skip_iff : ∀ mode, mode ∈ m.skippedModes type ↔ mode ∈ m'.skippedModes type

theorem Manifest.SameSettings.baselineOf_eq {m m' : Manifest} {type : String}
    (h : m.SameSettings m' type) :
    TypeResult.baselineOf m type = TypeResult.baselineOf m' type := by
  rw [TypeResult.baselineOf, TypeResult.baselineOf, h.settings_eq]

section Files

/-! The type in a directory of two trees that agree on its files. -/

variable [Yaml.Library] {t t' : FileTree} {directory : Path} (ht : t.Sound) (ht' : t'.Sound)
  (hdir : t.isDirectory directory = true) (hdir' : t'.isDirectory directory = true)
  (hfiles : SameFiles t t' directory)

section Reading

include hdir hdir' hfiles

/-- A name that the directory of a type may hold is fixed, or it is found by listing. -/
theorem SameFiles.sameAt (name : String) (hname : IsFileName name) :
    t.SameAt t' (directory / name) :=
  FileTree.sameAt_of_below hdir hdir' hfiles.below hname.nonempty hname.not_slash hname.not_here
    hname.not_above

theorem SameFiles.readPrefix_eq :
    TypeSource.readPrefix t directory = TypeSource.readPrefix t' directory := by
  have hsame := hfiles.sameAt hdir hdir' "prefix" (by decide)
  rw [TypeSource.readPrefix, TypeSource.readPrefix, hsame.exists?_eq,
    FileTree.readText_congr hsame.read_eq]

/-- A listed name leads to the same file, or in neither tree to one that can be an overlay. -/
theorem SameFiles.overlay_cases {name : String} (hempty : name ≠ "") (hslash : '/' ∉ name.toList) :
    t.SameAt t' (directory / name) ∨
      ∀ u : FileTree, u.isDirectory directory = true →
        (u.isFile (directory / name) &&
          ((directory / name).suffix == ".yaml" || (directory / name).suffix == ".yml")) = false := by
  by_cases hdot : name = "."
  · right
    intro u hu
    simp [hdot, Path.div_dot, FileTree.not_isFile_of_isDirectory hu]
  · by_cases hdots : name = ".."
    · right
      intro u _
      have hsuffix : (directory / name).suffix = "" := by
        rw [Path.div_of_proper hempty hslash hdot, hdots, Path.suffix, Path.name]
        simp only [List.getLast?_append, List.getLast?_singleton, Option.some_or, Option.getD_some]
        decide
      simp [hsuffix]
    · exact Or.inl (FileTree.sameAt_of_below hdir hdir' hfiles.below hempty hslash hdot hdots)

theorem SameFiles.read_of_ledgers {m : Manifest} {s : TypeSource} {set : ModeSet}
    (hload : (TypeResult.load t m directory).outcome = .ok (s, set)) :
    (∀ path, s.deprecated = some path → t.read path = t'.read path) ∧
      ∀ path, s.removed = some path → t.read path = t'.read path := by
  obtain ⟨hs, -⟩ := TypeResult.load_eq_ok_iff.mp hload
  obtain ⟨typePrefix, modes, -, rfl⟩ := TypeSource.exists_inDirectory hs
  have hpresent : ∀ name, IsFileName name → ∀ path,
      (if t.exists? (directory / name) then some (directory / name) else none) = some path →
        t.read path = t'.read path := by
    intro name hname path hpath
    obtain ⟨-, hsome⟩ := Option.ite_none_right_eq_some.mp hpath
    obtain rfl := Option.some.inj hsome
    exact (hfiles.sameAt hdir hdir' name hname).read_eq
  exact ⟨hpresent "deprecated.json" (by decide), hpresent "removed.json" (by decide)⟩

include ht

theorem SameFiles.looseModes_eq {names : List String} (hlist : t.list directory = .ok names) :
    TypeSource.looseModes t directory names = TypeSource.looseModes t' directory names := by
  unfold TypeSource.looseModes
  dsimp only
  congr 1
  refine List.filter_congr fun path hpath => ?_
  obtain ⟨name, hname, rfl⟩ := List.mem_map.mp hpath
  obtain ⟨hempty, hslash⟩ := FileTree.proper_of_list ht hlist name hname
  rcases hfiles.overlay_cases hdir hdir' hempty hslash with hsame | hunfit
  · rw [hsame.isFile_eq]
  · rw [hunfit t hdir, hunfit t' hdir']

theorem SameFiles.read_of_looseModes {names : List String} (hlist : t.list directory = .ok names) :
    ∀ mode ∈ TypeSource.looseModes t directory names, ∀ path ∈ mode.2,
      t.read path = t'.read path := by
  intro mode hmode path hpath
  obtain ⟨name, hname, rfl, hfits⟩ := TypeSource.mem_looseModes hmode path hpath
  obtain ⟨hempty, hslash⟩ := FileTree.proper_of_list ht hlist name hname
  rcases hfiles.overlay_cases hdir hdir' hempty hslash with hsame | hunfit
  · exact hsame.read_eq
  · rw [hunfit t hdir] at hfits
    cases hfits

/-- The overlays of a type are the same in both trees. -/
theorem SameFiles.read_of_readModes {modes : List (String × List Path)}
    (hmodes : TypeSource.readModes t directory directory.name = .ok modes) :
    ∀ mode ∈ modes, ∀ path ∈ mode.2, t.read path = t'.read path := by
  cases hindex : t.exists? (directory / "index.yaml") with
  | true => exact hfiles.overlays hindex modes hmodes
  | false =>
    obtain ⟨place, hlist⟩ := FileTree.list_of_isDirectory hdir
    unfold TypeSource.readModes at hmodes
    simp only [hindex, hlist] at hmodes
    cases hmodes
    exact hfiles.read_of_looseModes ht hdir hdir' hlist

include ht'

theorem SameFiles.readModes_eq (type : String) :
    TypeSource.readModes t directory type = TypeSource.readModes t' directory type := by
  have hindex := hfiles.sameAt hdir hdir' "index.yaml" (by decide)
  have hlist := FileTree.list_of_below hdir hdir' hfiles.below ht ht'
  unfold TypeSource.readModes
  dsimp only
  rw [← hindex.exists?_eq, ← FileTree.readText_congr hindex.read_eq, ← hlist]
  obtain ⟨place, hnames⟩ := FileTree.list_of_isDirectory hdir
  simp only [hnames, hfiles.looseModes_eq ht hdir hdir' hnames]

theorem SameFiles.read_eq (given : Option Value) :
    TypeSource.read t directory given = TypeSource.read t' directory given := by
  have hdeprecated := hfiles.sameAt hdir hdir' "deprecated.json" (by decide)
  have hremoved := hfiles.sameAt hdir hdir' "removed.json" (by decide)
  unfold TypeSource.read
  dsimp only
  rw [hfiles.readPrefix_eq hdir hdir', hfiles.readModes_eq ht ht' hdir hdir',
    hdeprecated.exists?_eq, hremoved.exists?_eq]

variable {m m' : Manifest} (hsettings : m.SameSettings m' directory.name)
include hsettings

theorem SameFiles.load_eq :
    TypeResult.load t m directory = TypeResult.load t' m' directory := by
  unfold TypeResult.load
  dsimp only
  rw [← hfiles.read_eq ht ht' hdir hdir', ← hsettings.settings_eq, ← hsettings.strict_eq,
    ← hsettings.baselineOf_eq]
  refine Noted.bind_congr fun s hs => ?_
  obtain ⟨typePrefix, modes, hmodes, rfl⟩ := TypeSource.exists_inDirectory hs
  rw [TypeSource.build_congr (hfiles.read_of_readModes ht hdir hdir' hmodes) hsettings.skip_iff]

/-- The type is built alike, with all that is noted on the way. -/
theorem SameFiles.build_eq [Platform] :
    TypeResult.build t m directory = TypeResult.build t' m' directory := by
  unfold TypeResult.build
  rw [← hfiles.load_eq ht ht' hdir hdir' hsettings, ← hsettings.baselineOf_eq]
  refine Noted.bind_congr fun loaded hloaded => ?_
  rw [Noted.outcome_attempt] at hloaded
  cases loaded with
  | error e => rfl
  | ok loaded =>
    obtain ⟨s, set⟩ := loaded
    have hload : (TypeResult.load t m directory).outcome = .ok (s, set) := by
      cases houtcome : (TypeResult.load t m directory).outcome with
      | ok loaded' => simpa [houtcome] using hloaded
      | error failure => cases failure <;> simp [houtcome] at hloaded
    obtain ⟨hdeprecated, hremoved⟩ := hfiles.read_of_ledgers hdir hdir' hload
    simp only [TypeResult.examine, TypeResult.checkLedgers_congr hdeprecated hremoved]

end Reading

end Files

/-- Among results of types that differ one belongs to each. -/
theorem filter_eq_singleton {R : String → TypeResult → Prop} {types : List String}
    {results : List TypeResult} (h : List.Forall₂ R types results) (hnodup : types.Nodup)
    (htypes : ∀ type ∈ types, ∀ result, R type result → result.type = type) {type : String}
    (htype : type ∈ types) :
    ∃ result, R type result ∧ results.filter (·.type = type) = [result] := by
  induction h with
  | nil => cases htype
  | @cons type₁ result types results hfirst hrest ih =>
    obtain ⟨hnew, hnodup⟩ := List.nodup_cons.mp hnodup
    have hname : result.type = type₁ := htypes type₁ List.mem_cons_self result hfirst
    have hnames : ∀ type ∈ types, ∀ result, R type result → result.type = type :=
      fun type hmem => htypes type (List.mem_cons_of_mem _ hmem)
    rcases List.mem_cons.mp htype with rfl | hmem
    · have hothers : results.filter (·.type = type) = [] := by
        refine List.filter_eq_nil_iff.mpr fun other hother he => hnew ?_
        obtain ⟨type', hmem, hR⟩ := exists_left_of_forall₂ hrest hother
        obtain rfl : type' = type := (hnames type' hmem other hR).symm.trans (by simpa using he)
        exact hmem
      exact ⟨result, hfirst, by rw [List.filter_cons_of_pos (by simpa using hname), hothers]⟩
    · have hne : result.type ≠ type := by
        rw [hname]
        rintro rfl
        exact hnew hmem
      obtain ⟨found, hfound, hfilter⟩ := ih hnodup hnames hmem
      exact ⟨found, hfound, by rw [List.filter_cons_of_neg (by simpa using hne), hfilter]⟩

section Results

variable [Yaml.Library] [Platform]

theorem TypeResult.build_type {t : FileTree} {m : Manifest} {directory : Path} {r : TypeResult}
    (hdir : t.isDirectory directory = true) (h : (build t m directory).outcome = .ok r) :
    r.type = directory.name := by
  obtain ⟨f, -, herror⟩ | ⟨-, r', hok, hrecorded⟩ := build_cases t m directory hdir
  · rw [h] at herror
    cases herror
  · obtain rfl : r = r' := Except.ok.inj (h.symm.trans hok)
    exact hrecorded.type_eq

theorem Report.build_outcome {t : FileTree} {m : Manifest} {data : Path} {types : List String}
    (hdata : m.dataPath = .ok data) (htypes : discoverTypes t data = .ok types) :
    (build t m).outcome =
      (types.mapM fun type => (TypeResult.build t m (data / type)).outcome).map Report.mk := by
  simp only [build, Noted.outcome_bind, Noted.outcome_ofExcept, hdata, htypes, ok_bind,
    Noted.outcome_mapM]
  rfl

/-- A type of a report is one that was found, and one result belongs to it. -/
theorem Report.exists_only_result {t : FileTree} {m : Manifest} {r : Report} (ht : t.Sound)
    (hbuild : (build t m).outcome = .ok r) {type : String} (htype : type ∈ r.types) :
    ∃ data, m.dataPath = .ok data ∧ (data / type).name = type ∧
      t.isDirectory (data / type) = true ∧
      ∃ result, (TypeResult.build t m (data / type)).outcome = .ok result ∧
        r.results.filter (·.type = type) = [result] := by
  obtain ⟨data, types, hdata, htypes, hresults⟩ := build_eq_ok hbuild
  obtain ⟨types', htypes', hsorted, hdirs⟩ :=
    discoverTypes_sorted ht (isDirectory_of_discoverTypes htypes)
  obtain rfl : types = types' := Except.ok.inj (htypes.symm.trans htypes')
  have hnames : ∀ type ∈ types, ∀ result,
      (TypeResult.build t m (data / type)).outcome = .ok result → result.type = type := by
    intro type hmem result hresult
    obtain ⟨hname, hdir⟩ := hdirs type hmem
    exact (TypeResult.build_type hdir hresult).trans hname
  have hmem : type ∈ types := by
    obtain ⟨result, hresult, rfl⟩ := List.mem_map.mp htype
    obtain ⟨type', hmem, hbuilt⟩ := exists_left_of_forall₂ hresults hresult
    exact hnames type' hmem result hbuilt ▸ hmem
  obtain ⟨hname, hdir⟩ := hdirs type hmem
  obtain ⟨result, hresult, hfilter⟩ :=
    filter_eq_singleton hresults (hsorted.imp ne_of_lt) hnames hmem
  exact ⟨data, hdata, hname, hdir, result, hresult, hfilter⟩

/-- Types do not interfere. Where two projects with their data in one place have both been built, a
type of both has one result, the same in both reports, if the projects agree on the files of the
type, its settings, its skip rules and whether names may be repeated. -/
theorem Report.build_isolated {t t' : FileTree} {m m' : Manifest} {r r' : Report} {type : String}
    {data : Path} (ht : t.Sound) (ht' : t'.Sound) (hroot : m.root = m'.root)
    (hdirectory : m.dataDirectory = m'.dataDirectory) (hdata : m.dataPath = .ok data)
    (hbuild : (build t m).outcome = .ok r) (hbuild' : (build t' m').outcome = .ok r')
    (htype : type ∈ r.types) (htype' : type ∈ r'.types)
    (hfiles : SameFiles t t' (data / type)) (hsettings : m.SameSettings m' type) :
    ∃ result, r.results.filter (·.type = type) = [result] ∧
      r'.results.filter (·.type = type) = [result] := by
  obtain ⟨data₁, hdata₁, hname, hdir, result, hresult, hfilter⟩ :=
    exists_only_result ht hbuild htype
  obtain ⟨data₂, hdata₂, -, hdir', result', hresult', hfilter'⟩ :=
    exists_only_result ht' hbuild' htype'
  have hsame : m'.dataPath = m.dataPath := by
    simp only [Manifest.dataPath, Manifest.pathOf, hroot, hdirectory]
  obtain rfl : data = data₁ := Except.ok.inj (hdata.symm.trans hdata₁)
  obtain rfl : data = data₂ := Except.ok.inj (hdata.symm.trans (hsame.symm.trans hdata₂))
  rw [hfiles.build_eq ht ht' hdir hdir' (hname.symm ▸ hsettings)] at hresult
  obtain rfl : result = result' := Except.ok.inj (hresult.symm.trans hresult')
  exact ⟨result, hfilter, hfilter'⟩

end Results

/-- A project of one type, whose index lists an overlay outside its directory. -/
def plainProject : FileTree :=
  ⟨[(["proj"], .directory), (["proj", "shared.yaml"], .file "a: 1\n".toUTF8),
    (["proj", "data"], .directory), (["proj", "data", "colors"], .directory),
    (["proj", "data", "colors", "index.yaml"],
      .file "modes:\n  light: ../../shared.yaml\n".toUTF8)]⟩

/-- The project with one more type, which cannot be built. -/
def crowdedProject : FileTree :=
  ⟨plainProject.items ++ [(["proj", "data", "sizes"], .directory),
    (["proj", "data", "sizes", "light.yaml"], .file "a: !ref b\n".toUTF8)]⟩

/-- A manifest with another name, other formats and a rule for the other type. -/
def crowdedManifest : Manifest :=
  { gatedManifest with name := .text "crowded", formats := [], skip := [⟨"sizes", "dark"⟩] }

/-- The data of both projects. -/
def sharedData : Path := ⟨"/", ["proj", "data"]⟩

/-- The projects agree on the files of the type that they share. -/
theorem sameFiles_colors : SameFiles plainProject crowdedProject (sharedData / "colors") := by
  let shared : Path := ⟨"/", ["proj", "data", "colors", "..", "..", "shared.yaml"]⟩
  constructor
  · intro place hplace below
    obtain rfl : ["proj", "data", "colors"] = place := Except.ok.inj hplace
    simp [FileTree.item?, crowdedProject, List.lookup_append, List.lookup_cons]
  · intro _ modes hmodes
    have hlisted : (TypeSource.readModes plainProject (sharedData / "colors")
        (sharedData / "colors").name).toOption = some [("light", [shared])] := by
      decide +kernel
    rw [hmodes] at hlisted
    obtain rfl : modes = [("light", [shared])] := Option.some.inj hlisted
    have hread : plainProject.read shared = crowdedProject.read shared := by rfl
    simpa using hread

theorem discoverTypes_crowded :
    discoverTypes crowdedProject sharedData = .ok ["colors", "sizes"] := by
  have hlist : crowdedProject.list sharedData = .ok ["colors", "sizes"] := by
    change Except.ok (["colors", "sizes"].mergeSort fun a b => decide (a ≤ b)) = _
    rw [List.mergeSort_of_pairwise]
    decide
  have hdata : crowdedProject.isDirectory sharedData = true := rfl
  have hcolors : crowdedProject.isDirectory (sharedData / "colors") = true := rfl
  have hsizes : crowdedProject.isDirectory (sharedData / "sizes") = true := rfl
  simp [discoverTypes, hlist, hdata, hcolors, hsizes]

/-- The broken type leaves the result of the other as it is. -/
theorem Report.build_isolated_crowded :
    plainProject.Sound ∧ crowdedProject.Sound ∧
      SameFiles plainProject crowdedProject (sharedData / "colors") ∧
      gatedManifest.SameSettings crowdedManifest "colors" ∧
      ∃ r r' result, (build plainProject gatedManifest).outcome = .ok r ∧
        (build crowdedProject crowdedManifest).outcome = .ok r' ∧
        r.types = ["colors"] ∧ r'.types = ["colors", "sizes"] ∧ r'.isOk = false ∧
        r.results.filter (·.type = "colors") = [result] ∧
        r'.results.filter (·.type = "colors") = [result] := by
  have hsound : plainProject.Sound := ⟨by decide, by decide⟩
  have hsound' : crowdedProject.Sound := ⟨by decide, by decide⟩
  have hsettings : gatedManifest.SameSettings crowdedManifest "colors" :=
    ⟨rfl, rfl, by simp [gatedManifest, crowdedManifest, Manifest.skippedModes]⟩
  have hplain : (match (build plainProject gatedManifest).outcome with
      | .ok r => decide (r.types = ["colors"])
      | .error _ => false) = true := by
    decide +kernel
  have hcrowded : (match ["colors", "sizes"].mapM fun type =>
        (TypeResult.build crowdedProject crowdedManifest (sharedData / type)).outcome with
      | .ok results => decide ((⟨results⟩ : Report).types = ["colors", "sizes"] ∧
          (⟨results⟩ : Report).isOk = false)
      | .error _ => false) = true := by
    decide +kernel
  have hroot : gatedManifest.root = crowdedManifest.root := rfl
  have hdirectory : gatedManifest.dataDirectory = crowdedManifest.dataDirectory := rfl
  have hdata : gatedManifest.dataPath = .ok sharedData := rfl
  have hdata' : crowdedManifest.dataPath = .ok sharedData := rfl
  split at hplain
  · next r hr =>
    split at hcrowded
    · next results hresults =>
      have hbuild' : (build crowdedProject crowdedManifest).outcome = .ok ⟨results⟩ := by
        rw [build_outcome hdata' discoverTypes_crowded, hresults]
        rfl
      have htypes : r.types = ["colors"] := of_decide_eq_true hplain
      obtain ⟨htypes', hbroken⟩ := of_decide_eq_true hcrowded
      obtain ⟨result, hresult, hresult'⟩ := build_isolated hsound hsound' hroot hdirectory hdata hr
        hbuild' (by simp [htypes]) (by simp [htypes']) sameFiles_colors hsettings
      exact ⟨hsound, hsound', sameFiles_colors, hsettings, r, ⟨results⟩, result, hr, hbuild', htypes,
        htypes', hbroken, hresult, hresult'⟩
    · cases hcrowded
  · cases hplain

end DesignTokens
