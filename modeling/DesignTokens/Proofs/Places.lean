import DesignTokens.Proofs.Placing

/-! Where files are written and what stays of them. A path that can be followed leads to the place
that its names tell, and a file keeps its text until another one is written at the same place. -/
namespace DesignTokens

namespace Path

/-- The place that names lead to from a place. -/
def placeFrom (here names : List String) : List String :=
  names.foldl (fun done name => if name = ".." then done.dropLast else done ++ [name]) here

/-- The place that a path leads to, if it leads anywhere. -/
def place (p : Path) : List String := collapse p.names

theorem place_eq (p : Path) : p.place = placeFrom [] p.names := rfl

theorem placeFrom_concat (here names : List String) (name : String) :
    placeFrom here (names ++ [name]) =
      if name = ".." then (placeFrom here names).dropLast else placeFrom here names ++ [name] := by
  unfold placeFrom
  rw [List.foldl_append, List.foldl_cons, List.foldl_nil]

/-- A proper name leads one step down. -/
theorem place_div {name : String} (hempty : name ≠ "") (hslash : '/' ∉ name.toList)
    (hdot : name ≠ ".") (hdots : name ≠ "..") (p : Path) :
    (p / name).place = p.place ++ [name] := by
  rw [div_of_proper hempty hslash hdot, place_eq, placeFrom_concat, if_neg hdots]
  rfl

end Path

theorem IsFileName.place {name : String} (h : IsFileName name) (p : Path) :
    (p / name).place = p.place ++ [name] :=
  Path.place_div h.nonempty h.not_slash h.not_here h.not_above p

namespace FileTree

variable {t t₁ t' : FileTree} {p : Path} {here place : List String} {text : String}

theorem eq_placeFrom_of_walk {names : List String} (h : t.walk here names = .ok place) :
    place = Path.placeFrom here names := by
  induction names generalizing here with
  | nil =>
    cases h
    rfl
  | cons name rest ih =>
    rw [← List.singleton_append, walk_append, bind_eq_ok] at h
    obtain ⟨next, hnext, hrest⟩ := h
    have hplace := ih hrest
    obtain ⟨-, ⟨rfl, rfl⟩ | ⟨hname, -, rfl⟩⟩ := walk_singleton_eq_ok.mp hnext
    · exact hplace
    · rw [hplace, Path.placeFrom, Path.placeFrom, List.foldl_cons, if_neg hname]

/-- A file is written at the place of its path. -/
theorem put_of_write (h : t.write p text = .ok t') :
    p.place ≠ [] ∧ t' = t.put p.place (.file text.toUTF8) := by
  obtain ⟨-, parent, hwalk, -, hname, hnames, -, rfl⟩ := write_eq_ok.mp h
  have hplace : p.place = parent ++ [p.name] := by
    rw [Path.place_eq, names_eq_parent_append hnames, Path.placeFrom_concat, if_neg hname,
      ← eq_placeFrom_of_walk hwalk]
  rw [hplace]
  exact ⟨by simp, rfl⟩

theorem item?_of_write (h : t.write p text = .ok t') (names : List String) :
    t'.item? names = if names = p.place then some (.file text.toUTF8) else t.item? names := by
  obtain ⟨hplace, rfl⟩ := put_of_write h
  exact item?_put hplace _ names

/-- Files that are written one after the other, each with its text. Directories may be made between
them. -/
inductive Records : FileTree → List (Path × String) → FileTree → Prop
  | nil (t : FileTree) : Records t [] t
  | make {t t₁ t' : FileTree} {files : List (Path × String)} (hmade : t.Extends t₁)
      (hrest : Records t₁ files t') : Records t files t'
  | write {t t₁ t' : FileTree} {path : Path} {text : String} {files : List (Path × String)}
      (hwrite : t.write path text = .ok t₁) (hrest : Records t₁ files t') :
      Records t ((path, text) :: files) t'

namespace Records

variable {files more before after : List (Path × String)} {file other : Path × String}

theorem trans (h : t.Records files t₁) (h' : t₁.Records more t') :
    t.Records (files ++ more) t' := by
  induction h with
  | nil => exact h'
  | make hmade _ ih => exact .make hmade (ih h')
  | write hwrite _ ih => exact .write hwrite (ih h')

theorem of_write (h : t.write p text = .ok t') : t.Records [(p, text)] t' := .write h (.nil t')

theorem of_extends (h : t.Extends t') : t.Records [] t' := .make h (.nil t')

theorem grows (h : t.Records files t') : t.Grows t' := by
  induction h with
  | nil t => exact .refl t
  | make hmade _ ih => exact hmade.grows.trans ih
  | write hwrite _ ih => exact (write_grows hwrite).trans ih

/-- What has been written can still be followed to its place. -/
theorem leads (h : t.Records files t') :
    ∀ file ∈ files, isUnusable file.1 = false ∧ t'.walk [] file.1.names = .ok file.1.place := by
  induction h with
  | nil => simp
  | make _ _ ih => exact ih
  | write hwrite hrest ih =>
    obtain ⟨husable, place, hwalk, -⟩ := read_eq_ok.mp (read_of_write hwrite)
    have hplace := eq_placeFrom_of_walk hwalk
    subst hplace
    exact List.forall_mem_cons.mpr ⟨⟨husable, hrest.grows.walk hwalk⟩, ih⟩

/-- Files at other places leave what is at a place. -/
theorem item?_of_ne (h : t.Records files t') (hplace : ∀ file ∈ files, file.1.place ≠ place)
    {item : FileItem} (hitem : t.item? place = some item) : t'.item? place = some item := by
  induction h with
  | nil => exact hitem
  | make hmade _ ih => exact ih hplace (hmade _ _ hitem)
  | write hwrite _ ih =>
    obtain ⟨hne, hrest⟩ := List.forall_mem_cons.mp hplace
    apply ih hrest
    rw [item?_of_write hwrite, if_neg (Ne.symm hne)]
    exact hitem

/-- The last file at a place stays. -/
theorem item?_of_last (h : t.Records files t') (hfiles : files = before ++ file :: after)
    (hlast : ∀ later ∈ after, later.1.place ≠ file.1.place) :
    t'.item? file.1.place = some (.file file.2.toUTF8) := by
  induction h generalizing before with
  | nil => simp at hfiles
  | make _ _ ih => exact ih hfiles
  | write hwrite hrest ih =>
    cases before with
    | nil =>
      obtain ⟨rfl, rfl⟩ := List.cons.inj hfiles
      apply hrest.item?_of_ne hlast
      rw [item?_of_write hwrite, if_pos rfl]
    | cons first before => exact ih (List.cons.inj hfiles).2

/-- A path holds the text of the last file that has been written at its place. -/
theorem read_of_last (h : t.Records files t') (hfiles : files = before ++ file :: after)
    (hlast : ∀ later ∈ after, later.1.place ≠ file.1.place) (hother : other ∈ files)
    (hplace : other.1.place = file.1.place) : t'.read other.1 = .ok file.2.toUTF8 := by
  obtain ⟨husable, hwalk⟩ := h.leads other hother
  apply read_eq_ok.mpr
  refine ⟨husable, other.1.place, hwalk, ?_⟩
  rw [hplace]
  exact h.item?_of_last hfiles hlast

/-- Files at places of their own keep their texts. -/
theorem read_of_nodup (h : t.Records files t') (hnodup : (files.map (·.1.place)).Nodup) :
    ∀ file ∈ files, t'.read file.1 = .ok file.2.toUTF8 := by
  intro file hfile
  obtain ⟨before, after, hfiles⟩ := List.append_of_mem hfile
  apply h.read_of_last hfiles ?_ hfile rfl
  intro later hlater hsame
  rw [hfiles, List.map_append, List.map_cons] at hnodup
  have hnot := (List.nodup_cons.mp (List.nodup_append.mp hnodup).2.1).1
  exact hnot (List.mem_map.mpr ⟨later, hlater, hsame⟩)

end Records

end FileTree

end DesignTokens
