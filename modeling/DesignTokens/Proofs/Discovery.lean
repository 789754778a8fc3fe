import DesignTokens.Source
import DesignTokens.Proofs.Outcomes
import DesignTokens.Proofs.Splitting
import Mathlib.Data.List.Nodup
import Mathlib.Data.String.Basic

/-! Finding the types of a project. In the directory of the data every type is met once, in the
order of names, and its name leads to a directory. -/
namespace DesignTokens

/-- A tree as file systems keep it: nothing stands at one place twice, and names are neither empty
nor hold a slash. -/
structure FileTree.Sound (t : FileTree) : Prop where
  places_nodup : (t.items.map (·.1)).Nodup
  names_proper : ∀ item ∈ t.items, ∀ name ∈ item.1, name ≠ "" ∧ '/' ∉ name.toList

/-- A proper name is read as the path of itself alone. -/
theorem Path.ofText_of_proper {s : String} (hempty : s ≠ "") (hslash : '/' ∉ s.toList)
    (hdot : s ≠ ".") : Path.ofText s = ⟨"", [s]⟩ := by
  have hroot : rootOf s.toList = "" := by
    unfold rootOf
    have htake : s.toList.takeWhile (· == '/') = [] := by
      cases hs : s.toList with
      | nil => rfl
      | cons c rest =>
        rw [hs] at hslash
        have hc : c ≠ '/' := fun he => hslash (he ▸ List.mem_cons_self)
        simp [hc]
    rw [htake]
    rfl
  rw [ofText, hroot, Text.splitOn_of_not_mem hslash]
  simp [hempty, hdot]

theorem Path.div_of_proper {p : Path} {s : String} (hempty : s ≠ "") (hslash : '/' ∉ s.toList)
    (hdot : s ≠ ".") : p / s = ⟨p.root, p.names ++ [s]⟩ := by
  change p.append (ofText s) = _
  rw [ofText_of_proper hempty hslash hdot, append, if_pos rfl]

/-- A single dot leads nowhere else. -/
theorem Path.div_dot (p : Path) : p / "." = p := by
  change p.append ⟨"", []⟩ = p
  simp [append]

namespace FileTree

theorem find?_of_isDirectory {t : FileTree} {p : Path} (h : t.isDirectory p = true) :
    isUnusable p = false ∧ ∃ place, t.walk [] p.names = .ok place ∧
      t.item? place = some .directory := by
  unfold isDirectory at h
  split at h
  · next hfind =>
    unfold find? at hfind
    split at hfind
    · cases hfind
    · next hp =>
      split at hfind
      · next place hplace => exact ⟨by simpa using hp, place, hplace, hfind⟩
      · cases hfind
  · cases h

theorem not_isFile_of_isDirectory {t : FileTree} {p : Path} (h : t.isDirectory p = true) :
    t.isFile p = false := by
  unfold isDirectory at h
  unfold isFile
  split at h
  · next hfind => rw [hfind]
  · cases h

/-- The names in the directory at a place, in no particular order. -/
def namesIn (t : FileTree) (place : List String) : List String :=
  t.items.filterMap fun (names, _) => if names.dropLast = place then names.getLast? else none

theorem mem_namesIn {t : FileTree} {place : List String} {name : String}
    (h : name ∈ t.namesIn place) : ∃ item ∈ t.items, name ∈ item.1 := by
  obtain ⟨⟨names, item⟩, hitem, hname⟩ := List.mem_filterMap.mp h
  refine ⟨(names, item), hitem, ?_⟩
  dsimp only at hname
  split at hname
  · exact List.mem_of_getLast? hname
  · cases hname

theorem namesIn_nodup {t : FileTree} (h : t.Sound) (place : List String) :
    (t.namesIn place).Nodup := by
  have hmap : t.namesIn place = (t.items.map (·.1)).filterMap fun names =>
      if names.dropLast = place then names.getLast? else none := by
    rw [List.filterMap_map]
    rfl
  rw [hmap]
  refine h.places_nodup.filterMap fun a b name ha hb => ?_
  have hsplit : ∀ names : List String,
      name ∈ (if names.dropLast = place then names.getLast? else none) →
        names = place ++ [name] := by
    intro names hn
    split at hn
    · next hplace => rw [← hplace, List.dropLast_append_getLast? name hn]
    · cases hn
  rw [hsplit a ha, hsplit b hb]

theorem list_of_walk {t : FileTree} {p : Path} {place : List String}
    (hdir : t.isDirectory p = true) (hwalk : t.walk [] p.names = .ok place) :
    t.list p = .ok ((t.namesIn place).mergeSort fun a b => a ≤ b) := by
  obtain ⟨husable, place', hwalk', hitem⟩ := find?_of_isDirectory hdir
  obtain rfl : place = place' := Except.ok.inj (hwalk.symm.trans hwalk')
  have hplace : t.hasDirectory place = true := by simp [hasDirectory, hitem]
  simp [list, usable, husable, hwalk, hplace, faultAt, namesIn, bind, Except.bind, pure,
    Except.pure]

theorem list_of_isDirectory {t : FileTree} {p : Path} (h : t.isDirectory p = true) :
    ∃ place, t.list p = .ok ((t.namesIn place).mergeSort fun a b => a ≤ b) := by
  obtain ⟨-, place, hwalk, -⟩ := find?_of_isDirectory h
  exact ⟨place, list_of_walk h hwalk⟩

theorem pairwise_mergeSort_names (names : List String) :
    (names.mergeSort fun a b => a ≤ b).Pairwise (· ≤ ·) := by
  have hsorted := @List.pairwise_mergeSort _ (fun a b : String => decide (a ≤ b))
    (fun a b c hab hbc => by simpa using le_trans (by simpa using hab) (by simpa using hbc))
    (fun a b => by simpa using le_total a b) names
  exact hsorted.imp fun hab => by simpa using hab

theorem isDirectory_of_list {t : FileTree} {p : Path} {names : List String}
    (h : t.list p = .ok names) : t.isDirectory p = true := by
  unfold list usable at h
  split at h
  · cases h
  next husable =>
  cases hwalk : t.walk [] p.names with
  | error problem => simp [hwalk, faultAt] at h
  | ok place =>
    cases hplace : t.hasDirectory place with
    | false => simp [hwalk, hplace, faultAt, throw, throwThe, MonadExceptOf.throw, bind,
        Except.bind] at h
    | true => simpa [isDirectory, find?, husable, hwalk, hasDirectory] using hplace

section Listing

variable {t : FileTree} {p : Path} {names : List String}

/-- The names in a directory are proper, and listed once each, in order. -/
theorem proper_of_list (ht : t.Sound) (h : t.list p = .ok names) :
    ∀ name ∈ names, name ≠ "" ∧ '/' ∉ name.toList := by
  intro name hname
  obtain ⟨place, hlist⟩ := list_of_isDirectory (isDirectory_of_list h)
  obtain rfl := Except.ok.inj (h.symm.trans hlist)
  obtain ⟨item, hitem, hmem⟩ := mem_namesIn (List.mem_mergeSort.mp hname)
  exact ht.names_proper item hitem name hmem

theorem sorted_of_list (ht : t.Sound) (h : t.list p = .ok names) : names.Pairwise (· < ·) := by
  obtain ⟨place, hlist⟩ := list_of_isDirectory (isDirectory_of_list h)
  obtain rfl := Except.ok.inj (h.symm.trans hlist)
  have hnodup : ((t.namesIn place).mergeSort fun a b => a ≤ b).Nodup :=
    (List.mergeSort_perm _ _).nodup_iff.mpr (namesIn_nodup ht place)
  exact ((pairwise_mergeSort_names _).and hnodup).imp fun hab => lt_of_le_of_ne hab.1 hab.2

end Listing

end FileTree

section Types

variable {t : FileTree} {data : Path} {types : List String}

theorem isDirectory_of_discoverTypes (h : discoverTypes t data = .ok types) :
    t.isDirectory data = true := by
  unfold discoverTypes at h
  split at h
  · cases h
  · next hdir => simpa using hdir

/-- A type is found under a proper name that does not begin with a dot and leads to a directory. -/
theorem mem_discoverTypes (ht : t.Sound) (h : discoverTypes t data = .ok types) {type : String}
    (htype : type ∈ types) :
    (type ≠ "" ∧ '/' ∉ type.toList) ∧ type.startsWith "." = false ∧
      t.isDirectory (data / type) = true := by
  have hdir := isDirectory_of_discoverTypes h
  obtain ⟨place, hlist⟩ := FileTree.list_of_isDirectory hdir
  simp only [discoverTypes, hdir, hlist] at h
  cases h
  obtain ⟨hin, hkeep⟩ := List.mem_filter.mp htype
  simp only [Bool.and_eq_true, Bool.not_eq_true'] at hkeep
  exact ⟨FileTree.proper_of_list ht hlist type hin, hkeep.1.2, hkeep.1.1⟩

theorem directory_of_discoverTypes (ht : t.Sound) (h : discoverTypes t data = .ok types) :
    ∀ type ∈ types, (data / type).name = type ∧ t.isDirectory (data / type) = true := by
  intro type htype
  obtain ⟨⟨hempty, hslash⟩, hdots, hdirectory⟩ := mem_discoverTypes ht h htype
  have hdot : type ≠ "." := by
    rintro rfl
    simp at hdots
  refine ⟨?_, hdirectory⟩
  rw [Path.div_of_proper hempty hslash hdot, Path.name]
  simp

/-- The types of a directory that is there are found, each once and in the order of their names, and
each leads to a directory of its name. -/
theorem discoverTypes_sorted (ht : t.Sound)
    (hdir : t.isDirectory data = true) :
    ∃ types, discoverTypes t data = .ok types ∧ types.Pairwise (· < ·) ∧
      ∀ type ∈ types, (data / type).name = type ∧ t.isDirectory (data / type) = true := by
  obtain ⟨place, hlist⟩ := FileTree.list_of_isDirectory hdir
  have htypes : discoverTypes t data = .ok (((t.namesIn place).mergeSort fun a b => a ≤ b).filter
      fun name => t.isDirectory (data / name) && !name.startsWith "." && !name.startsWith "_") := by
    simp only [discoverTypes, hdir, hlist]
    rfl
  exact ⟨_, htypes, (FileTree.sorted_of_list ht hlist).filter _,
    directory_of_discoverTypes ht htypes⟩

end Types

end DesignTokens
