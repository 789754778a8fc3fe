import DesignTokens.Proofs.Discovery
import DesignTokens.Proofs.Outcomes
import Mathlib.Data.List.Induction

/-! Changes of a tree of files. Making directories adds places and changes none, writing puts a file
where no directory is, so what a path leads to keeps standing. Below an empty directory whose folders
are planned, and kept apart from files, every step of laying outputs out succeeds. -/
namespace DesignTokens

/-- A name that a file or a directory can have. -/
structure IsFileName (s : String) : Prop where
  nonempty : s ≠ ""
  not_here : s ≠ "."
  not_above : s ≠ ".."
  not_slash : '/' ∉ s.toList
  not_null : '\x00' ∉ s.toList

instance (s : String) : Decidable (IsFileName s) :=
  decidable_of_iff (s ≠ "" ∧ s ≠ "." ∧ s ≠ ".." ∧ '/' ∉ s.toList ∧ '\x00' ∉ s.toList)
    ⟨fun ⟨a, b, c, d, e⟩ => ⟨a, b, c, d, e⟩, fun ⟨a, b, c, d, e⟩ => ⟨a, b, c, d, e⟩⟩

/-- A name with a suffix, and perhaps something before it, is the name of a file. -/
theorem isFileName_of_long {s : String} (hslash : '/' ∉ s.toList) (hnull : '\x00' ∉ s.toList)
    (hlong : 2 < s.toList.length) : IsFileName s := by
  refine ⟨?_, ?_, ?_, hslash, hnull⟩ <;> rintro rfl <;> simp at hlong

theorem IsFileName.div {name : String} (h : IsFileName name) (p : Path) :
    p / name = ⟨p.root, p.names ++ [name]⟩ :=
  Path.div_of_proper h.nonempty h.not_slash h.not_here

namespace FileTree

variable {t t' t'' : FileTree} {p q : Path} {here place : List String} {text : String}

theorem item?_of_ne_nil {names : List String} (h : names ≠ []) :
    t.item? names = t.items.lookup names := by
  cases names with
  | nil => exact absurd rfl h
  | cons => rfl

theorem item?_put (hplace : place ≠ []) (item : FileItem) (names : List String) :
    (t.put place item).item? names = if names = place then some item else t.item? names := by
  by_cases hnil : names = []
  · subst hnil
    simp [item?, Ne.symm hplace]
  have hlookup : ∀ items : List (List String × FileItem),
      (items.filter (·.1 != place) ++ [(place, item)]).lookup names =
        if names = place then some item else items.lookup names := by
    intro items
    induction items with
    | nil =>
      by_cases h : names = place
      · simp [h]
      · simp [List.lookup_cons, h, beq_false_of_ne h]
    | cons e rest ih =>
      obtain ⟨found, other⟩ := e
      by_cases hfound : found = place
      · subst hfound
        by_cases h : names = found
        · simp_all
        · simp_all [List.lookup_cons, beq_false_of_ne h]
      · by_cases h : names = found
        · simp_all
        · simp_all [List.lookup_cons, beq_false_of_ne h]
  rw [item?_of_ne_nil hnil, item?_of_ne_nil hnil]
  exact hlookup t.items

theorem hasDirectory_iff : t.hasDirectory place = true ↔ t.item? place = some .directory := by
  unfold hasDirectory
  split
  · simp [*]
  · next hnot => simpa using hnot

/-- Places stay, and directories stay directories. -/
structure Grows (t t' : FileTree) : Prop where
  directories : ∀ place, t.hasDirectory place = true → t'.hasDirectory place = true
  places : ∀ place, (t.item? place).isSome = true → (t'.item? place).isSome = true

/-- Places stay with what is there. -/
def Extends (t t' : FileTree) : Prop :=
  ∀ place item, t.item? place = some item → t'.item? place = some item

theorem Grows.refl (t : FileTree) : t.Grows t := ⟨fun _ h => h, fun _ h => h⟩

theorem Grows.trans (h : t.Grows t') (h' : t'.Grows t'') : t.Grows t'' :=
  ⟨fun place hp => h'.directories place (h.directories place hp),
    fun place hp => h'.places place (h.places place hp)⟩

theorem Extends.refl (t : FileTree) : t.Extends t := fun _ _ h => h

theorem Extends.trans (h : t.Extends t') (h' : t'.Extends t'') : t.Extends t'' :=
  fun place item hp => h' place item (h place item hp)

theorem Extends.grows (h : t.Extends t') : t.Grows t' := by
  refine ⟨fun place hp => hasDirectory_iff.mpr (h _ _ (hasDirectory_iff.mp hp)), fun place hp => ?_⟩
  obtain ⟨item, hitem⟩ := Option.isSome_iff_exists.mp hp
  simp [h place item hitem]

theorem put_extends (item : FileItem) (hplace : place ≠ []) (hnew : t.item? place = none) :
    t.Extends (t.put place item) := by
  intro names found hfound
  rw [item?_put hplace]
  split
  · next he => simp [he, hnew] at hfound
  · exact hfound

theorem put_grows (item : FileItem) (hplace : place ≠ [])
    (hfile : t.hasDirectory place = false) : t.Grows (t.put place item) := by
  refine ⟨fun names h => ?_, fun names h => ?_⟩
  · have hne : names ≠ place := by
      rintro rfl
      simp [hfile] at h
    rw [hasDirectory_iff] at h ⊢
    simpa [item?_put hplace, hne] using h
  · rw [item?_put hplace]
    split
    · rfl
    · exact h

theorem walk_append (here names names' : List String) :
    t.walk here (names ++ names') = t.walk here names >>= fun place => t.walk place names' := by
  induction names generalizing here with
  | nil => rfl
  | cons name rest ih =>
    rw [List.cons_append, walk, walk]
    dsimp only
    split
    · rfl
    · split
      · exact ih _
      · split
        · exact ih _
        · rfl

theorem walk_singleton_eq_ok {name : String} :
    t.walk here [name] = .ok place ↔ t.hasDirectory here = true ∧
      (name = ".." ∧ place = here.dropLast ∨
        name ≠ ".." ∧ (t.item? (here ++ [name])).isSome = true ∧ place = here ++ [name]) := by
  unfold walk
  dsimp only
  cases t.hasDirectory here with
  | false => simp
  | true =>
    by_cases hname : name = ".."
    · simpa [hname, walk] using eq_comm
    · by_cases hitem : (t.item? (here ++ [name])).isSome
      · simpa [hname, hitem, walk] using eq_comm
      · simp [hname, hitem]

/-- Where places stay, a path leads to where it has led. -/
theorem Grows.walk (h : t.Grows t') {names : List String} (hwalk : t.walk here names = .ok place) :
    t'.walk here names = .ok place := by
  induction names generalizing here with
  | nil => exact hwalk
  | cons name rest ih =>
    rw [← List.singleton_append, walk_append, bind_eq_ok] at hwalk ⊢
    obtain ⟨next, hnext, hrest⟩ := hwalk
    refine ⟨next, ?_, ih hrest⟩
    rw [walk_singleton_eq_ok] at hnext ⊢
    obtain ⟨hdir, hlast⟩ := hnext
    exact ⟨h.directories _ hdir, hlast.imp_right fun ⟨hname, hitem, he⟩ =>
      ⟨hname, h.places _ hitem, he⟩⟩

theorem usable_eq_ok {α : Type} {a : α} {result : Except FileProblem α} :
    usable p result = .ok a ↔ isUnusable p = false ∧ result = .ok a := by
  unfold usable
  cases isUnusable p <;> cases result <;> simp [faultAt]

theorem read_eq_ok {bytes : ByteArray} :
    t.read p = .ok bytes ↔ isUnusable p = false ∧
      ∃ place, t.walk [] p.names = .ok place ∧ t.item? place = some (.file bytes) := by
  unfold read
  rw [usable_eq_ok, bind_eq_ok]
  refine and_congr_right fun _ => exists_congr fun place => and_congr_right fun _ => ?_
  cases hitem : t.item? place with
  | none => simp [throw, throwThe, MonadExceptOf.throw]
  | some item => cases item <;> simp [throw, throwThe, MonadExceptOf.throw, pure, Except.pure]

theorem write_eq_ok :
    t.write p text = .ok t' ↔ isUnusable p = false ∧ ∃ parent,
      t.walk [] p.parent.names = .ok parent ∧ t.hasDirectory parent = true ∧ p.name ≠ ".." ∧
      p.names ≠ [] ∧ t.hasDirectory (parent ++ [p.name]) = false ∧
      t' = t.put (parent ++ [p.name]) (.file text.toUTF8) := by
  unfold write
  rw [usable_eq_ok, bind_eq_ok]
  refine and_congr_right fun _ => exists_congr fun parent => and_congr_right fun _ => ?_
  simp only [guard_eq_ok, pure_eq_ok, not_or, Bool.not_eq_true, Bool.not_eq_false', and_assoc,
    eq_comm (b := t')]

theorem makeDirectory_eq_ok :
    t.makeDirectory p = .ok t' ↔ ∃ parent,
      t.walk [] p.parent.names = .ok parent ∧ t.hasDirectory parent = true ∧ p.name ≠ ".." ∧
      p.names ≠ [] ∧ t.item? (parent ++ [p.name]) = none ∧
      t' = t.put (parent ++ [p.name]) .directory := by
  unfold makeDirectory
  rw [bind_eq_ok]
  refine exists_congr fun parent => and_congr_right fun _ => ?_
  simp only [guard_eq_ok, pure_eq_ok, not_or, Bool.not_eq_true, Bool.not_eq_false', and_assoc,
    eq_comm (b := t'), Option.isSome_eq_false_iff, Option.isNone_iff_eq_none]

theorem names_eq_parent_append (h : p.names ≠ []) : p.names = p.parent.names ++ [p.name] := by
  rw [Path.parent, Path.name]
  exact (List.dropLast_append_getLast? _ (by simp [List.getLast?_eq_some_getLast h])).symm

theorem makeDirectory_extends (h : t.makeDirectory p = .ok t') : t.Extends t' := by
  obtain ⟨parent, -, -, -, -, hnew, rfl⟩ := makeDirectory_eq_ok.mp h
  exact put_extends _ (by simp) hnew

theorem ensureDirectory_extends (h : t.ensureDirectory p = .ok t') : t.Extends t' := by
  unfold ensureDirectory at h
  split at h
  · split at h
    · cases h
      exact .refl t
    · cases h
  · next hmade =>
    cases h
    exact makeDirectory_extends hmade

theorem ensureAbove_extends {root : String} {names : List String}
    (h : t.ensureAbove root names = .ok t') : t.Extends t' := by
  induction names generalizing t' with
  | nil => exact ensureDirectory_extends h
  | cons name above ih =>
    rw [ensureAbove] at h
    split at h
    · obtain ⟨t₁, habove, h⟩ := bind_eq_ok.mp h
      exact (ih habove).trans (ensureDirectory_extends h)
    · exact ensureDirectory_extends h

theorem ensureDirectories_extends (h : t.ensureDirectories p = .ok t') : t.Extends t' := by
  unfold ensureDirectories at h
  split at h
  · cases h
  · exact ensureAbove_extends h

theorem write_grows (h : t.write p text = .ok t') : t.Grows t' := by
  obtain ⟨-, parent, -, -, -, -, hfile, rfl⟩ := write_eq_ok.mp h
  exact put_grows _ (by simp) hfile

theorem read_of_extends {bytes : ByteArray} (h : t.Extends t') (hread : t.read p = .ok bytes) :
    t'.read p = .ok bytes := by
  obtain ⟨husable, place, hwalk, hitem⟩ := read_eq_ok.mp hread
  exact read_eq_ok.mpr ⟨husable, place, h.grows.walk hwalk, h _ _ hitem⟩

theorem read_of_write (h : t.write p text = .ok t') : t'.read p = .ok text.toUTF8 := by
  obtain ⟨husable, parent, hwalk, hparent, hname, hnames, -, rfl⟩ := write_eq_ok.mp h
  have hgrows := write_grows h
  have hitem : (t.put (parent ++ [p.name]) (.file text.toUTF8)).item? (parent ++ [p.name]) =
      some (.file text.toUTF8) := by
    rw [item?_put (by simp), if_pos rfl]
  refine read_eq_ok.mpr ⟨husable, parent ++ [p.name], ?_, hitem⟩
  rw [names_eq_parent_append hnames, walk_append, hgrows.walk hwalk, ok_bind, walk_singleton_eq_ok]
  exact ⟨hgrows.directories _ hparent, Or.inr ⟨hname, Option.isSome_of_eq_some hitem, rfl⟩⟩

/-- Writing under one name leaves what is read under another. -/
theorem read_of_write_of_ne {bytes : ByteArray} (h : t.write q text = .ok t')
    (hname : p.name ≠ q.name) (hp : p.name ≠ "..") (hnames : p.names ≠ [])
    (hread : t.read p = .ok bytes) : t'.read p = .ok bytes := by
  obtain ⟨husable, place, hwalk, hitem⟩ := read_eq_ok.mp hread
  refine read_eq_ok.mpr ⟨husable, place, (write_grows h).walk hwalk, ?_⟩
  obtain ⟨-, parent, -, -, -, -, -, rfl⟩ := write_eq_ok.mp h
  rw [names_eq_parent_append hnames, walk_append, bind_eq_ok] at hwalk
  obtain ⟨above, -, hlast⟩ := hwalk
  obtain ⟨-, ⟨hdots, -⟩ | ⟨-, -, rfl⟩⟩ := walk_singleton_eq_ok.mp hlast
  · exact absurd hdots hp
  · rw [item?_put (by simp), if_neg (by simp [hname]), hitem]

theorem isDirectory_of_walk (husable : isUnusable p = false)
    (hwalk : t.walk [] p.names = .ok place) (hdir : t.hasDirectory place = true) :
    t.isDirectory p = true := by
  simp [isDirectory, find?, husable, hwalk, hasDirectory_iff.mp hdir]

/-- Making a directory that is there fails for no other reason than that it is there. -/
theorem makeDirectory_of_isDirectory (h : t.isDirectory p = true) :
    t.makeDirectory p = .error .exists := by
  obtain ⟨-, place, hwalk, hplace⟩ := find?_of_isDirectory h
  by_cases hnames : p.names = []
  · have hroot : t.hasDirectory [] = true := rfl
    simp [makeDirectory, Path.parent, hnames, walk, hroot]
    rfl
  · rw [names_eq_parent_append hnames, walk_append, bind_eq_ok] at hwalk
    obtain ⟨parent, hparent, hlast⟩ := hwalk
    obtain ⟨hdir, hlast⟩ := walk_singleton_eq_ok.mp hlast
    have hexists : p.name = ".." ∨ p.names = [] ∨ (t.item? (parent ++ [p.name])).isSome = true :=
      hlast.imp And.left fun h => Or.inr h.2.1
    simp [makeDirectory, hparent, hdir, hexists]
    rfl

theorem ensureDirectory_of_isDirectory (h : t.isDirectory p = true) :
    t.ensureDirectory p = .ok t := by
  simp [ensureDirectory, makeDirectory_of_isDirectory h, h]

theorem ensureAbove_of_isDirectory {root : String} {names : List String}
    (h : t.isDirectory ⟨root, names.reverse⟩ = true) : t.ensureAbove root names = .ok t := by
  cases names with
  | nil => exact ensureDirectory_of_isDirectory h
  | cons name above =>
    simp only [ensureAbove, makeDirectory_of_isDirectory h]
    exact ensureDirectory_of_isDirectory h

theorem Grows.isDirectory (h : t.Grows t') (hdir : t.isDirectory p = true) :
    t'.isDirectory p = true := by
  obtain ⟨husable, place, hwalk, hplace⟩ := find?_of_isDirectory hdir
  exact isDirectory_of_walk husable (h.walk hwalk) (h.directories _ (hasDirectory_iff.mpr hplace))

theorem isDirectory_of_ensureDirectory (husable : isUnusable p = false)
    (h : t.ensureDirectory p = .ok t') : t'.isDirectory p = true := by
  unfold ensureDirectory at h
  split at h
  · split at h
    · next hdir =>
      cases h
      exact hdir.2
    · cases h
  · next hmade =>
    cases h
    have hgrows := (makeDirectory_extends hmade).grows
    obtain ⟨parent, hwalk, hparent, hname, hnames, -, rfl⟩ := makeDirectory_eq_ok.mp hmade
    have hitem : (t.put (parent ++ [p.name]) .directory).item? (parent ++ [p.name]) =
        some .directory := by
      rw [item?_put (by simp), if_pos rfl]
    refine isDirectory_of_walk husable ?_ (hasDirectory_iff.mpr hitem)
    rw [names_eq_parent_append hnames, walk_append, hgrows.walk hwalk, ok_bind,
      walk_singleton_eq_ok]
    exact ⟨hgrows.directories _ hparent, Or.inr ⟨hname, Option.isSome_of_eq_some hitem, rfl⟩⟩

theorem isDirectory_of_ensureDirectories (h : t.ensureDirectories p = .ok t') :
    t'.isDirectory p = true := by
  unfold ensureDirectories at h
  split at h
  · cases h
  · next husable =>
    have husable : isUnusable p = false := by simpa using husable
    cases hnames : p.names.reverse with
    | nil =>
      have hp : (⟨p.root, []⟩ : Path) = p := by rw [← List.reverse_eq_nil_iff.mp hnames]
      rw [hnames, ensureAbove, hp] at h
      exact isDirectory_of_ensureDirectory husable h
    | cons name above =>
      have hp : (⟨p.root, (name :: above).reverse⟩ : Path) = p := by
        rw [← hnames, List.reverse_reverse]
      rw [hnames, ensureAbove, hp] at h
      split at h
      · obtain ⟨t₁, -, hlast⟩ := bind_eq_ok.mp h
        exact isDirectory_of_ensureDirectory husable hlast
      · exact isDirectory_of_ensureDirectory husable h

/-- A file is not written where a directory is. -/
theorem not_isDirectory_of_write (h : t.write p text = .ok t') : t.isDirectory p = false := by
  obtain ⟨-, parent, hwalk, -, hname, hnames, hfile, -⟩ := write_eq_ok.mp h
  refine Bool.eq_false_iff.mpr fun hdir => ?_
  obtain ⟨-, place, hplace, hitem⟩ := find?_of_isDirectory hdir
  rw [names_eq_parent_append hnames, walk_append, hwalk, ok_bind, walk_singleton_eq_ok] at hplace
  obtain ⟨-, ⟨hdots, -⟩ | ⟨-, -, rfl⟩⟩ := hplace
  · exact hname hdots
  · simp [hasDirectory_iff.mpr hitem] at hfile

/-- A path leads to a directory in which nothing is. -/
def IsEmptyDirectory (t : FileTree) (p : Path) : Prop :=
  isUnusable p = false ∧ ∃ base, t.walk [] p.names = .ok base ∧ t.hasDirectory base = true ∧
    ∀ item ∈ t.items, base <+: item.1 → item.1 = base

end FileTree

/-- The folders that outputs are laid out in, by their names below one directory. With a folder those
above it are planned. -/
structure Plan where
  Folder : List String → Prop
  closed : ∀ {rel : List String} {name : String}, Folder (rel ++ [name]) → rel ≠ [] → Folder rel
  proper : ∀ {rel : List String}, Folder rel → ∀ name ∈ rel, IsFileName name

namespace Plan

/-- A tree in which below a directory there are only planned folders, and no file where one is
planned. -/
structure Laid (plan : Plan) (out : Path) (base : List String) (t : FileTree) : Prop where
  usable : FileTree.isUnusable out = false
  walk : t.walk [] out.names = .ok base
  directory : t.hasDirectory base = true
  folders : ∀ rel, rel ≠ [] → t.hasDirectory (base ++ rel) = true → plan.Folder rel
  files : ∀ rel bytes, t.item? (base ++ rel) = some (.file bytes) → ¬ plan.Folder rel

/-- A folder that has been made. -/
structure Reaches (out : Path) (base rel : List String) (t : FileTree) : Prop where
  walk : t.walk [] (out.names ++ rel) = .ok (base ++ rel)
  directory : t.hasDirectory (base ++ rel) = true

section Laying

open FileTree

variable {plan : Plan} {out : Path} {base rel : List String} {name text : String}
  {t t' : FileTree}

theorem Reaches.grows (h : Reaches out base rel t) (hg : t.Grows t') : Reaches out base rel t' :=
  ⟨hg.walk h.walk, hg.directories _ h.directory⟩

theorem Reaches.step (h : Reaches out base rel t) (hname : name ≠ "..")
    (hdir : t.item? (base ++ (rel ++ [name])) = some .directory) :
    Reaches out base (rel ++ [name]) t := by
  have hsplit : out.names ++ (rel ++ [name]) = (out.names ++ rel) ++ [name] := by simp
  refine ⟨?_, hasDirectory_iff.mpr hdir⟩
  rw [hsplit, walk_append, h.walk, ok_bind, walk_singleton_eq_ok]
  exact ⟨h.directory, Or.inr ⟨hname, by simp [hdir], by simp⟩⟩

theorem Laid.reaches_nil (h : plan.Laid out base t) : Reaches out base [] t :=
  ⟨by simpa using h.walk, by simpa using h.directory⟩

theorem laid_of_isEmptyDirectory (plan : Plan) (h : t.IsEmptyDirectory out) :
    ∃ base, plan.Laid out base t := by
  obtain ⟨husable, base, hwalk, hdir, hempty⟩ := h
  have hnone : ∀ rel, rel ≠ [] → t.item? (base ++ rel) = none := by
    intro rel hrel
    rw [item?_of_ne_nil (by simp [hrel]), List.lookup_eq_none_iff]
    intro item hitem
    rw [bne_iff_ne]
    intro he
    have := hempty item hitem ⟨rel, he⟩
    simp [← he, hrel] at this
  refine ⟨base, husable, hwalk, hdir, fun rel hrel h => ?_, fun rel bytes h => ?_⟩
  · rw [hasDirectory_iff, hnone rel hrel] at h
    cases h
  · by_cases hrel : rel = []
    · subst hrel
      rw [List.append_nil, hasDirectory_iff.mp hdir] at h
      cases h
    · rw [hnone rel hrel] at h
      cases h

theorem isUnusable_append {names : List String} (hout : isUnusable out = false)
    (hnames : ∀ name ∈ names, IsFileName name) :
    isUnusable ⟨out.root, out.names ++ names⟩ = false := by
  simp only [isUnusable, List.any_append, Bool.or_eq_false_iff, List.any_eq_false,
    List.contains_iff_mem] at hout ⊢
  exact ⟨hout, fun name hname => (hnames name hname).not_null⟩

/-- A planned folder below one that has been made is there already or is missing. -/
theorem Laid.item?_cases (h : plan.Laid out base t) (hfolder : plan.Folder rel) :
    t.item? (base ++ rel) = none ∨ t.item? (base ++ rel) = some .directory := by
  cases hitem : t.item? (base ++ rel) with
  | none => exact Or.inl rfl
  | some item =>
    cases item with
    | directory => exact Or.inr rfl
    | file bytes => exact absurd hfolder (h.files rel bytes hitem)

/-- The way to a planned folder is there or breaks off where something is missing. -/
theorem Laid.walk_cases (h : plan.Laid out base t) (hrel : rel = [] ∨ plan.Folder rel) :
    Reaches out base rel t ∨ t.walk [] (out.names ++ rel) = .error .missing := by
  induction rel using List.reverseRecOn with
  | nil => exact Or.inl h.reaches_nil
  | append_singleton rel name ih =>
    have hfolder : plan.Folder (rel ++ [name]) := by simpa using hrel
    have hname := plan.proper hfolder name (by simp)
    have habove := ih (or_iff_not_imp_left.mpr (plan.closed hfolder))
    -- If the way breaks off above, it stays broken; else it goes one name further.
    rcases h.item?_cases hfolder with hnone | hdir
    · refine Or.inr ?_
      rw [← List.append_assoc, walk_append]
      rcases habove with hreach | hmissing
      · rw [hreach.walk, ok_bind]
        simp [FileTree.walk, hreach.directory, hname.not_above, hnone]
      · rw [hmissing, error_bind]
    · rcases habove with hreach | hmissing
      · exact Or.inl (hreach.step hname.not_above hdir)
      · refine Or.inr ?_
        rw [← List.append_assoc, walk_append, hmissing, error_bind]

theorem Laid.put_directory (h : plan.Laid out base t) (hrel : plan.Folder rel) (hne : rel ≠ [])
    (hnew : t.item? (base ++ rel) = none) :
    plan.Laid out base (t.put (base ++ rel) .directory) := by
  have hplace : base ++ rel ≠ [] := by simp [hne]
  have hgrows := (put_extends .directory hplace hnew).grows
  refine ⟨h.usable, hgrows.walk h.walk, hgrows.directories _ h.directory, fun rel' hne' hdir => ?_,
    fun rel' bytes hfile => ?_⟩
  · rw [hasDirectory_iff, item?_put hplace] at hdir
    split at hdir
    · next he => exact List.append_cancel_left he ▸ hrel
    · exact h.folders rel' hne' (hasDirectory_iff.mpr hdir)
  · rw [item?_put hplace] at hfile
    split at hfile
    · cases hfile
    · exact h.files rel' bytes hfile

theorem Laid.put_file (h : plan.Laid out base t) {bytes : ByteArray} (hrel : ¬ plan.Folder rel)
    (hne : rel ≠ []) : plan.Laid out base (t.put (base ++ rel) (.file bytes)) := by
  have hplace : base ++ rel ≠ [] := by simp [hne]
  have hfile : t.hasDirectory (base ++ rel) = false :=
    Bool.eq_false_iff.mpr fun hdir => hrel (h.folders rel hne hdir)
  have hgrows := put_grows (.file bytes) hplace hfile
  refine ⟨h.usable, hgrows.walk h.walk, hgrows.directories _ h.directory, fun rel' hne' hdir => ?_,
    fun rel' bytes' hfile => ?_⟩
  · rw [hasDirectory_iff, item?_put hplace] at hdir
    split at hdir
    · cases hdir
    · exact h.folders rel' hne' (hasDirectory_iff.mpr hdir)
  · rw [item?_put hplace] at hfile
    split at hfile
    · next he => exact List.append_cancel_left he ▸ hrel
    · exact h.files rel' bytes' hfile

theorem Laid.ensureDirectory (h : plan.Laid out base t) (hfolder : plan.Folder (rel ++ [name]))
    (hreach : Reaches out base rel t) :
    ∃ t', t.ensureDirectory ⟨out.root, out.names ++ (rel ++ [name])⟩ = .ok t' ∧
      plan.Laid out base t' ∧ Reaches out base (rel ++ [name]) t' := by
  have hname := plan.proper hfolder name (by simp)
  have husable := isUnusable_append h.usable (plan.proper hfolder)
  rcases h.item?_cases hfolder with hnone | hdir
  · have hplace : base ++ (rel ++ [name]) ≠ [] := by simp
    have hmade : t.makeDirectory ⟨out.root, out.names ++ (rel ++ [name])⟩ =
        .ok (t.put (base ++ (rel ++ [name])) .directory) := by
      refine makeDirectory_eq_ok.mpr ⟨base ++ rel, ?_, hreach.directory, ?_⟩
      · rw [Path.parent, ← List.append_assoc, List.dropLast_concat]
        exact hreach.walk
      · simp [Path.name, hname.not_above, hnone]
    have hlaid := h.put_directory hfolder (by simp) hnone
    refine ⟨_, by simp only [FileTree.ensureDirectory, hmade], hlaid, ?_⟩
    have hitem : (t.put (base ++ (rel ++ [name])) .directory).item? (base ++ (rel ++ [name])) =
        some .directory := by
      rw [item?_put hplace, if_pos rfl]
    exact (hreach.grows (put_extends .directory hplace hnone).grows).step
      hname.not_above hitem
  · have hreach' := hreach.step hname.not_above hdir
    exact ⟨t, ensureDirectory_of_isDirectory
      (isDirectory_of_walk husable hreach'.walk hreach'.directory), h, hreach'⟩

theorem Laid.ensureAbove (h : plan.Laid out base t) (hrel : rel = [] ∨ plan.Folder rel) :
    ∃ t', t.ensureAbove out.root (out.names ++ rel).reverse = .ok t' ∧ plan.Laid out base t' ∧
      Reaches out base rel t' := by
  induction rel using List.reverseRecOn with
  | nil =>
    refine ⟨t, ensureAbove_of_isDirectory ?_, h, h.reaches_nil⟩
    simpa using isDirectory_of_walk (p := out) h.usable h.walk h.directory
  | append_singleton rel name ih =>
    have hfolder : plan.Folder (rel ++ [name]) := by simpa using hrel
    have habove := or_iff_not_imp_left.mpr (plan.closed hfolder)
    have hnames : (out.names ++ (rel ++ [name])).reverse = name :: (out.names ++ rel).reverse := by
      simp
    have hback : (name :: (out.names ++ rel).reverse).reverse = out.names ++ (rel ++ [name]) := by
      simp
    rw [hnames, FileTree.ensureAbove, hback]
    -- The folders above are made only where making this one finds something missing.
    split
    · next hmissing =>
      obtain ⟨t₁, hmade, hlaid, hreach⟩ := ih habove
      obtain ⟨t', hlast, hlaid', hreach'⟩ := hlaid.ensureDirectory hfolder hreach
      exact ⟨t', by rw [hmade]; exact hlast, hlaid', hreach'⟩
    · next hother =>
      rcases h.walk_cases habove with hreach | hmissing
      · exact h.ensureDirectory hfolder hreach
      · refine absurd ?_ hother
        have hparent : Path.parent ⟨out.root, out.names ++ (rel ++ [name])⟩ =
            ⟨out.root, out.names ++ rel⟩ := by
          rw [Path.parent, ← List.append_assoc, List.dropLast_concat]
        simp [makeDirectory, hparent, hmissing]

/-- Every planned folder can be made. -/
theorem Laid.ensureDirectories (h : plan.Laid out base t) (hrel : rel = [] ∨ plan.Folder rel) :
    ∃ t', t.ensureDirectories ⟨out.root, out.names ++ rel⟩ = .ok t' ∧ plan.Laid out base t' ∧
      Reaches out base rel t' := by
  have husable : isUnusable ⟨out.root, out.names ++ rel⟩ = false := by
    refine isUnusable_append h.usable ?_
    rcases hrel with rfl | hfolder
    · simp
    · exact plan.proper hfolder
  simpa [FileTree.ensureDirectories, husable] using h.ensureAbove hrel

/-- A file that takes the place of no planned folder can be written in a folder that has been
made. -/
theorem Laid.write (h : plan.Laid out base t) (hreach : Reaches out base rel t)
    (hrel : ∀ folder ∈ rel, IsFileName folder) (hname : IsFileName name)
    (hfile : ¬ plan.Folder (rel ++ [name])) (text : String) :
    ∃ t', t.write ⟨out.root, out.names ++ (rel ++ [name])⟩ text = .ok t' ∧
      plan.Laid out base t' ∧ Reaches out base rel t' := by
  have husable : isUnusable ⟨out.root, out.names ++ (rel ++ [name])⟩ = false :=
    isUnusable_append h.usable (List.forall_mem_append.mpr ⟨hrel, by simpa using hname⟩)
  have hnot : t.hasDirectory (base ++ (rel ++ [name])) = false :=
    Bool.eq_false_iff.mpr fun hdir => hfile (h.folders _ (by simp) hdir)
  have hwritten : t.write ⟨out.root, out.names ++ (rel ++ [name])⟩ text =
      .ok (t.put (base ++ (rel ++ [name])) (.file text.toUTF8)) := by
    refine write_eq_ok.mpr ⟨husable, base ++ rel, ?_, hreach.directory, ?_⟩
    · rw [Path.parent, ← List.append_assoc, List.dropLast_concat]
      exact hreach.walk
    · simp [Path.name, hname.not_above, hnot]
  exact ⟨_, hwritten, h.put_file hfile (by simp), hreach.grows (write_grows hwritten)⟩

/-- A file can be written in a folder right below the directory once that folder has been made. -/
theorem Laid.write_in (h : plan.Laid out base t) {folder : String}
    (hfolder : plan.Folder [folder]) (hname : IsFileName name)
    (hfile : ¬ plan.Folder [folder, name]) (text : String) :
    ∃ t₁ t', t.ensureDirectories (out / folder) = .ok t₁ ∧
      t₁.write (out / folder / name) text = .ok t' ∧ plan.Laid out base t' := by
  have hproper := plan.proper hfolder
  have hdirectory : out / folder = ⟨out.root, out.names ++ [folder]⟩ :=
    (hproper folder (List.mem_singleton_self folder)).div out
  obtain ⟨t₁, hmade, hlaid₁, hreach⟩ := h.ensureDirectories (Or.inr hfolder)
  obtain ⟨t', hwrite, hlaid', -⟩ := hlaid₁.write hreach hproper hname hfile text
  refine ⟨t₁, t', by rw [hdirectory, hmade], ?_, hlaid'⟩
  rw [hdirectory, hname.div, List.append_assoc]
  exact hwrite

end Laying

end Plan

end DesignTokens
