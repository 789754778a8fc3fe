import DesignTokens.Proofs.Loading
import DesignTokens.Yaml.Reader
import Mathlib.Data.List.Induction

/-! Which sources of a type are kept. A directory offers overlays for modes: its index lists them, or
each file is the overlay of a mode. Of several offers for one mode the last one is kept, without a
word about the others. Files meet in one mode only as twins with the two suffixes of overlays. -/
namespace DesignTokens

theorem exists_append_dot {cs : List Char}
    (h : (cs.reverse.takeWhile (· != '.')).length ≠ cs.length) :
    ∃ start, cs = start ++ '.' :: (cs.reverse.takeWhile (· != '.')).reverse := by
  have hsplit := List.takeWhile_append_dropWhile (p := (· != '.')) (l := cs.reverse)
  cases hrest : cs.reverse.dropWhile (· != '.') with
  | nil =>
    rw [hrest, List.append_nil] at hsplit
    exact absurd (by rw [hsplit, List.length_reverse]) h
  | cons c rest =>
    have hdot : c = '.' := by simpa [hrest] using List.head?_dropWhile_not (· != '.') cs.reverse
    rw [hrest, hdot] at hsplit
    have hreverse := congrArg List.reverse hsplit
    rw [List.reverse_append, List.reverse_reverse, List.reverse_cons, List.append_assoc,
      List.singleton_append] at hreverse
    exact ⟨rest.reverse, hreverse.symm⟩

/-- A file name is its stem and its suffix. -/
theorem Path.splitSuffix_append (name : String) :
    (splitSuffix name).1 ++ (splitSuffix name).2 = name := by
  unfold splitSuffix
  dsimp only
  split
  · exact String.append_empty
  · next h =>
    simp only [Bool.or_eq_true, not_or, beq_iff_eq] at h
    obtain ⟨start, hname⟩ := exists_append_dot h.2
    generalize name.toList.reverse.takeWhile (· != '.') = tail at hname ⊢
    rw [← String.toList_inj, String.toList_append, String.toList_ofList, String.toList_ofList]
    have hlength : name.toList.length - tail.length - 1 = start.length := by
      have := congrArg List.length hname
      simp only [List.length_append, List.length_cons, List.length_reverse] at this
      omega
    rw [hlength, hname, List.take_left]

theorem Path.stem_append_suffix (p : Path) : p.stem ++ p.suffix = p.name :=
  splitSuffix_append p.name

namespace TypeSource

section Collected

variable {rows : List (String × List Path)} {row last : String × List Path} {mode : String}
  {overlays : List Path} {found : List (String × List Path)}

theorem putMode_names (mode : String) (overlays : List Path) (found : List (String × List Path)) :
    (putMode mode overlays found).map (·.1) =
      if mode ∈ found.map (·.1) then found.map (·.1) else found.map (·.1) ++ [mode] := by
  induction found with
  | nil => rfl
  | cons entry rest ih =>
    by_cases h : entry.1 = mode
    · simp [putMode, h]
    · have hne : mode ≠ entry.1 := fun he => h he.symm
      by_cases hmem : mode ∈ rest.map (·.1)
      · rw [if_pos hmem] at ih
        simp only [putMode, if_neg h, List.map_cons, ih]
        rw [if_pos (List.mem_cons_of_mem _ hmem)]
      · rw [if_neg hmem] at ih
        simp only [putMode, if_neg h, List.map_cons, ih, List.mem_cons, hne, hmem, or_self,
          if_false, List.cons_append]

theorem putMode_nodup {mode : String} {overlays : List Path} {found : List (String × List Path)}
    (h : (found.map (·.1)).Nodup) : ((putMode mode overlays found).map (·.1)).Nodup := by
  rw [putMode_names]
  split
  · exact h
  · next hmode => exact h.append (List.nodup_singleton mode) (by simpa using hmode)

theorem mem_putMode (hnodup : (found.map (·.1)).Nodup) :
    row ∈ putMode mode overlays found ↔ row = (mode, overlays) ∨ row.1 ≠ mode ∧ row ∈ found := by
  induction found with
  | nil => simp [putMode]
  | cons entry rest ih =>
    obtain ⟨m, o⟩ := entry
    simp only [List.map_cons, List.nodup_cons, List.mem_map, not_exists, not_and] at hnodup
    by_cases hm : m = mode
    · subst hm
      have hrest : row ∈ rest → row.1 ≠ m := hnodup.1 row
      simp only [putMode, if_true, List.mem_cons]
      grind
    · rw [putMode, if_neg hm, List.mem_cons, List.mem_cons, ih hnodup.2]
      grind

theorem putMode_of_new (hnew : mode ∉ found.map (·.1)) :
    putMode mode overlays found = found ++ [(mode, overlays)] := by
  induction found with
  | nil => rfl
  | cons entry rest ih =>
    simp only [List.map_cons, List.mem_cons, not_or] at hnew
    rw [putMode, if_neg (Ne.symm hnew.1), ih hnew.2, List.cons_append]

/-- The modes of some offers: one for each key, where it is first offered, with what is offered
last. -/
def collected (rows : List (String × List Path)) : List (String × List Path) :=
  rows.foldl (fun found row => putMode row.1 row.2 found) []

/-- An offer is the last one under its key. -/
def IsLast (rows : List (String × List Path)) (row : String × List Path) : Prop :=
  ∃ before after, rows = before ++ row :: after ∧ ∀ later ∈ after, later.1 ≠ row.1

theorem IsLast.mem (h : IsLast rows row) : row ∈ rows := by
  obtain ⟨before, after, rfl, -⟩ := h
  simp

theorem isLast_append :
    IsLast (rows ++ [last]) row ↔ row = last ∨ row.1 ≠ last.1 ∧ IsLast rows row := by
  constructor
  · rintro ⟨before, after, hrows, hafter⟩
    induction after using List.reverseRecOn with
    | nil => exact Or.inl (by simpa using (List.append_inj' hrows rfl).2.symm)
    | append_singleton after last' =>
      have hsplit : rows ++ [last] = (before ++ row :: after) ++ [last'] := by simpa using hrows
      obtain ⟨rfl, hlast⟩ := List.append_inj' hsplit rfl
      obtain rfl : last = last' := by simpa using hlast
      simp only [List.forall_mem_append, List.forall_mem_singleton] at hafter
      exact Or.inr ⟨hafter.2.symm, before, after, rfl, hafter.1⟩
  · rintro (rfl | ⟨hne, before, after, rfl, hafter⟩)
    · exact ⟨rows, [], rfl, by simp⟩
    · refine ⟨before, after ++ [last], by simp, ?_⟩
      simpa only [List.forall_mem_append, List.forall_mem_singleton] using ⟨hafter, hne.symm⟩

theorem collected_append (rows : List (String × List Path)) (row : String × List Path) :
    collected (rows ++ [row]) = putMode row.1 row.2 (collected rows) := by
  simp [collected]

theorem collected_nodup (rows : List (String × List Path)) :
    ((collected rows).map (·.1)).Nodup := by
  induction rows using List.reverseRecOn with
  | nil => exact List.nodup_nil
  | append_singleton rows row ih =>
    rw [collected_append]
    exact putMode_nodup ih

/-- What is kept is what is offered last under its key. -/
theorem mem_collected : row ∈ collected rows ↔ IsLast rows row := by
  induction rows using List.reverseRecOn with
  | nil => simp [collected, IsLast]
  | append_singleton rows last ih =>
    rw [collected_append, mem_putMode (collected_nodup rows), isLast_append, ih]

/-- All offers are kept exactly if they are for different modes. -/
theorem collected_eq_self : collected rows = rows ↔ (rows.map (·.1)).Nodup := by
  refine ⟨fun h => h ▸ collected_nodup rows, fun h => ?_⟩
  induction rows using List.reverseRecOn with
  | nil => rfl
  | append_singleton rows row ih =>
    simp only [List.map_append, List.map_cons, List.map_nil, List.nodup_append] at h
    rw [collected_append, ih h.1, putMode_of_new]
    exact fun hmem => h.2.2 _ hmem _ (by simp) rfl

end Collected

section Offered

variable {t : FileTree} {directory : Path} {rows : List (String × List Path)} {names : List String}

/-- The files of a directory that are overlays, in the order of their names. -/
def overlayFiles (t : FileTree) (directory : Path) (names : List String) : List Path :=
  (names.map (directory / ·)).filter fun p =>
    t.isFile p && (p.suffix == ".yaml" || p.suffix == ".yml")

/-- An entry of an index offers a mode: the text of its key, with the overlays that it lists. -/
def Offers (directory : Path) (entry : Value × Value) (row : String × List Path) : Prop :=
  row.1 = entry.1.plain ∧
    ∃ names, overlayNames? entry.2 = some names ∧ row.2 = names.map (directory / ·)

theorem looseModes_eq (t : FileTree) (directory : Path) (names : List String) :
    looseModes t directory names =
      collected ((overlayFiles t directory names).map fun p => (p.stem, [p])) := by
  rw [collected, List.foldl_map]
  rfl

theorem exists_rows_of_foldlM {index : Path} {type : String} {entries : List (Value × Value)}
    {found modes : List (String × List Path)}
    (h : entries.foldlM (putListed directory index type) found = .ok modes) :
    ∃ rows, List.Forall₂ (Offers directory) entries rows ∧
      modes = rows.foldl (fun found row => putMode row.1 row.2 found) found := by
  induction entries generalizing found with
  | nil =>
    cases h
    exact ⟨[], .nil, rfl⟩
  | cons entry rest ih =>
    obtain ⟨found', hentry, hrest⟩ := bind_eq_ok.mp h
    rcases putListed_cases directory index type found entry with
      ⟨-, he⟩ | ⟨-, ⟨-, e, he⟩ | ⟨names, hnames, he⟩⟩
    · cases he.symm.trans hentry
    · cases he.symm.trans hentry
    · cases he.symm.trans hentry
      obtain ⟨rows, hrows, rfl⟩ := ih hrest
      exact ⟨(_, names.map (directory / ·)) :: rows, .cons ⟨rfl, names, hnames, rfl⟩ hrows, rfl⟩

theorem listedModes?_eq_some {data : Value} {entries : List (Value × Value)}
    (h : listedModes? data = some entries) :
    ∃ es, data = .map es ∧ Value.entry? "modes" es = some (.map entries) := by
  unfold listedModes? at h
  split at h
  · next es =>
    split at h
    · next hentry =>
      cases h
      exact ⟨es, rfl, hentry⟩
    · cases h
  · cases h

theorem exists_of_indexedModes {index : Path} {type : String} {data : Value}
    {modes : List (String × List Path)} (h : indexedModes directory index type data = .ok modes) :
    ∃ es entries rows, data = .map es ∧ Value.entry? "modes" es = some (.map entries) ∧
      List.Forall₂ (Offers directory) entries rows ∧ modes = collected rows := by
  unfold indexedModes at h
  split at h
  · next entries hlisted =>
    obtain ⟨es, rfl, hentry⟩ := listedModes?_eq_some hlisted
    obtain ⟨rows, hrows, rfl⟩ := exists_rows_of_foldlM h
    exact ⟨es, entries, rows, rfl, hentry, hrows, rfl⟩
  · cases h

variable [Yaml.Library]

/-- What a directory offers: a mode for each entry of its index, with the overlays in the order in
which they are listed there, or without an index a mode for each file that is an overlay. -/
inductive Offered (t : FileTree) (directory : Path) : List (String × List Path) → Prop where
  | loose {names : List String} (hindex : t.exists? (directory / "index.yaml") = false)
      (hlist : t.list directory = .ok names) :
      Offered t directory ((overlayFiles t directory names).map fun p => (p.stem, [p]))
  | index {text : String} {es entries : List (Value × Value)} {rows : List (String × List Path)}
      (hindex : t.exists? (directory / "index.yaml") = true)
      (htext : t.readText (directory / "index.yaml") = .ok text)
      (hread : Yaml.read false text = .ok (.map es))
      (hmodes : Value.entry? "modes" es = some (.map entries))
      (hrows : List.Forall₂ (Offers directory) entries rows) : Offered t directory rows

/-- Modes that are read are those that the directory offers, as far as they are kept. -/
theorem exists_offered {type : String} {modes : List (String × List Path)}
    (h : readModes t directory type = .ok modes) :
    ∃ rows, Offered t directory rows ∧ modes = collected rows := by
  unfold readModes at h
  dsimp only at h
  cases hindex : t.exists? (directory / "index.yaml") with
  | true =>
    rw [hindex, if_pos rfl] at h
    cases htext : t.readText (directory / "index.yaml") with
    | error f => simp [htext] at h
    | ok text =>
      rw [htext] at h
      obtain ⟨data, hread, h⟩ := bind_eq_ok.mp h
      obtain ⟨es, entries, rows, rfl, hmodes, hrows, rfl⟩ := exists_of_indexedModes h
      exact ⟨rows, .index hindex htext (readYaml_eq_ok.mp hread) hmodes hrows, rfl⟩
  | false =>
    rw [hindex, if_neg Bool.false_ne_true] at h
    cases hlist : t.list directory with
    | error f => simp [hlist] at h
    | ok names =>
      rw [hlist] at h
      cases h
      exact ⟨_, .loose hindex hlist, looseModes_eq t directory names⟩

end Offered

section Twins

variable {t : FileTree} {directory : Path} {names : List String} {p q : Path}

theorem name_div (ht : t.Sound) (hlist : t.list directory = .ok names) {name : String}
    (hname : name ∈ names) (hfile : t.isFile (directory / name) = true) :
    (directory / name).name = name := by
  obtain ⟨hempty, hslash⟩ := FileTree.proper_of_list ht hlist name hname
  have hdot : name ≠ "." := by
    rintro rfl
    rw [Path.div_dot, FileTree.not_isFile_of_isDirectory (FileTree.isDirectory_of_list hlist)]
      at hfile
    cases hfile
  rw [Path.div_of_proper hempty hslash hdot, Path.name]
  simp

theorem suffix_of_mem (hp : p ∈ overlayFiles t directory names) :
    p.suffix = ".yaml" ∨ p.suffix = ".yml" := by
  have hfits := (List.mem_filter.mp hp).2
  simp only [Bool.and_eq_true, Bool.or_eq_true, beq_iff_eq] at hfits
  exact hfits.2

theorem overlayFiles_sorted (ht : t.Sound) (hlist : t.list directory = .ok names) :
    (overlayFiles t directory names).Pairwise fun p q => p.name < q.name := by
  rw [overlayFiles, List.pairwise_filter, List.pairwise_map]
  refine (FileTree.sorted_of_list ht hlist).imp_of_mem fun ha hb hlt hfa hfb => ?_
  simp only [Bool.and_eq_true] at hfa hfb
  rwa [name_div ht hlist ha hfa.1, name_div ht hlist hb hfb.1]

/-- Of two overlays with one stem the one with the shorter suffix is the later one. -/
theorem name_lt_iff (hstem : q.stem = p.stem) (hp : p.suffix = ".yaml" ∨ p.suffix = ".yml")
    (hq : q.suffix = ".yaml" ∨ q.suffix = ".yml") :
    p.name < q.name ↔ p.suffix = ".yaml" ∧ q.suffix = ".yml" := by
  have hlt : p.stem ++ ".yaml" < p.stem ++ ".yml" := by
    rw [String.lt_iff_toList_lt, String.toList_append, String.toList_append]
    exact List.Lex.append_left (· < ·) (by decide) _
  rw [← p.stem_append_suffix, ← q.stem_append_suffix, hstem]
  rcases hp with hp | hp <;> rcases hq with hq | hq <;> rw [hp, hq]
  · exact iff_of_false (lt_irrefl _) (by simp)
  · exact iff_of_true hlt ⟨rfl, rfl⟩
  · exact iff_of_false hlt.not_gt (by simp)
  · exact iff_of_false (lt_irrefl _) (by simp)

/-- Among files in the order of their names, a file is the last one of its mode unless a file after it
has the same stem. -/
theorem isLast_iff {files : List Path} (hsorted : files.Pairwise fun p q => p.name < q.name)
    (hp : p ∈ files) :
    IsLast (files.map fun p => (p.stem, [p])) (p.stem, [p]) ↔
      ∀ q ∈ files, p.name < q.name → q.stem ≠ p.stem := by
  constructor
  · rintro ⟨before, after, hrows, hafter⟩ q hq hlt
    obtain ⟨before', rest, rfl, -, hrest⟩ := List.map_eq_append_iff.mp hrows
    obtain ⟨p', after', rfl, hp', rfl⟩ := List.map_eq_cons_iff.mp hrest
    obtain rfl : p' = p := by simpa using congrArg Prod.snd hp'
    rw [List.pairwise_append, List.pairwise_cons] at hsorted
    rcases List.mem_append.mp hq with hq | hq
    · exact absurd hlt (hsorted.2.2 q hq p' List.mem_cons_self).not_gt
    rcases List.mem_cons.mp hq with rfl | hq
    · exact absurd hlt (lt_irrefl _)
    · exact hafter _ (List.mem_map_of_mem hq)
  · intro hlater
    obtain ⟨before, after, rfl⟩ := List.append_of_mem hp
    refine ⟨_, _, by rw [List.map_append, List.map_cons], fun later hmem => ?_⟩
    obtain ⟨q, hq, rfl⟩ := List.mem_map.mp hmem
    rw [List.pairwise_append, List.pairwise_cons] at hsorted
    exact hlater q (by simp [hq]) (hsorted.2.1.1 q hq)

/-- A file is lost exactly if it has the longer suffix, and its twin with the shorter one is there. -/
theorem lost_iff_twin (ht : t.Sound) (hlist : t.list directory = .ok names)
    (hp : p ∈ overlayFiles t directory names) :
    (p.stem, [p]) ∉ collected ((overlayFiles t directory names).map fun p => (p.stem, [p])) ↔
      p.suffix = ".yaml" ∧ ∃ q ∈ overlayFiles t directory names,
        q.stem = p.stem ∧ q.suffix = ".yml" := by
  rw [mem_collected, isLast_iff (overlayFiles_sorted ht hlist) hp]
  simp only [not_forall, ne_eq, not_not, exists_prop]
  have hsuffix := suffix_of_mem hp
  constructor
  · rintro ⟨q, hq, hlt, hstem⟩
    obtain ⟨hyaml, hyml⟩ := (name_lt_iff hstem hsuffix (suffix_of_mem hq)).mp hlt
    exact ⟨hyaml, q, hq, hstem, hyml⟩
  · rintro ⟨hyaml, q, hq, hstem, hyml⟩
    exact ⟨q, hq, (name_lt_iff hstem hsuffix (Or.inr hyml)).mpr ⟨hyaml, hyml⟩, hstem⟩

end Twins

/-- What is kept of the sources of a type. Its directory offers modes, with an index or without one,
and of these each is kept that is the last one under its name; so all are kept, in their order, exactly if
their names differ. Without an index a file is lost exactly if it has the longer one of the two
suffixes, and its twin with the shorter one is there. -/
theorem read_keeps_last [Yaml.Library] (t : FileTree) (directory : Path) (given : Option Value)
    (s : TypeSource) (ht : t.Sound) (h : (read t directory given).outcome = .ok s) :
    ∃ rows, Offered t directory rows ∧
      (s.modes.map (·.1)).Nodup ∧
      (∀ row, row ∈ s.modes ↔ IsLast rows row) ∧
      (s.modes = rows ↔ (rows.map (·.1)).Nodup) ∧
      (t.exists? (directory / "index.yaml") = false →
        ∀ p, (p.stem, [p]) ∈ rows → ((p.stem, [p]) ∉ s.modes ↔
          p.suffix = ".yaml" ∧ ∃ q, (q.stem, [q]) ∈ rows ∧ q.stem = p.stem ∧ q.suffix = ".yml")) := by
  obtain ⟨typePrefix, modes, hmodes, rfl⟩ := exists_inDirectory h
  obtain ⟨rows, hrows, rfl⟩ := exists_offered hmodes
  refine ⟨rows, hrows, collected_nodup rows, fun row => mem_collected, collected_eq_self,
    fun hindex p hp => ?_⟩
  cases hrows with
  | index hexists => simp [hindex] at hexists
  | @loose names _ hlist =>
    have hmem {q : Path} : (q.stem, [q]) ∈ (overlayFiles t directory names).map
        (fun p => (p.stem, [p])) ↔ q ∈ overlayFiles t directory names := by
      simp
    simp only [hmem] at hp ⊢
    exact lost_iff_twin ht hlist hp

/-- The directory of colours. -/
def colors : Path := ⟨"/", ["colors"]⟩

/-- Colours with one mode in a file, and another one in two. -/
def twins : FileTree :=
  ⟨[(["colors"], .directory), (["colors", "dark.yml"], .file ⟨#[]⟩),
    (["colors", "light.yaml"], .file ⟨#[]⟩), (["colors", "light.yml"], .file ⟨#[]⟩)]⟩

theorem twins_sound : twins.Sound := ⟨by decide, by decide⟩

theorem list_twins : twins.list colors = .ok ["dark.yml", "light.yaml", "light.yml"] := by
  change Except.ok (["dark.yml", "light.yaml", "light.yml"].mergeSort fun a b => a ≤ b) = _
  rw [List.mergeSort_of_pairwise]
  decide

theorem readModes_twins : readModes twins colors "colors" =
    .ok [("dark", [colors / "dark.yml"]), ("light", [colors / "light.yml"])] := by
  have hindex : twins.exists? (colors / "index.yaml") = false := rfl
  have hloose : looseModes twins colors ["dark.yml", "light.yaml", "light.yml"] =
      [("dark", [colors / "dark.yml"]), ("light", [colors / "light.yml"])] := by decide +kernel
  simp only [readModes, hindex, list_twins, hloose]
  rfl

theorem read_twins : (read twins colors none).outcome = .ok (inDirectory twins colors (.text "colors")
    [("dark", [colors / "dark.yml"]), ("light", [colors / "light.yml"])]) := by
  have hname : colors.name = "colors" := rfl
  rw [read_outcome, hname, readModes_twins]
  rfl

theorem offered_twins {rows : List (String × List Path)} (h : Offered twins colors rows) :
    rows = [("dark", [colors / "dark.yml"]), ("light", [colors / "light.yaml"]),
      ("light", [colors / "light.yml"])] := by
  cases h with
  | index hindex =>
    have hnone : twins.exists? (colors / "index.yaml") = false := rfl
    cases hnone.symm.trans hindex
  | loose _ hlist =>
    obtain rfl := Except.ok.inj (list_twins.symm.trans hlist)
    decide +kernel

theorem read_keeps_last_twins :
    twins.Sound ∧ ∃ s, (read twins colors none).outcome = .ok s ∧
      ∃ rows, Offered twins colors rows ∧ ("light", [colors / "light.yaml"]) ∈ rows ∧
        ("light", [colors / "light.yaml"]) ∉ s.modes := by
  obtain ⟨rows, hrows, -, -, -, htwin⟩ :=
    read_keeps_last twins colors none _ twins_sound read_twins
  obtain rfl := offered_twins hrows
  have hlight : (colors / "light.yaml").stem = "light" := by decide
  have hlight' : (colors / "light.yml").stem = "light" := by decide
  refine ⟨twins_sound, _, read_twins, _, hrows, by simp, ?_⟩
  have hiff := htwin rfl (colors / "light.yaml") (by simp [hlight])
  rw [hlight] at hiff
  exact hiff.mpr ⟨by decide, colors / "light.yml", by simp [hlight'], hlight', by decide⟩

/-- An index that lists overlays under a number and under the text of that number. -/
def twinKeys : FileTree :=
  ⟨[(["colors"], .directory), (["colors", "a.yaml"], .file ⟨#[]⟩),
    (["colors", "b.yaml"], .file ⟨#[]⟩),
    (["colors", "index.yaml"], .file "modes:\n  1: a.yaml\n  '1': b.yaml\n".toUTF8)]⟩

/-- Of two files with one stem only one is kept, and of two entries of an index whose keys have one
text only one, though reading the sources succeeds. -/
theorem read_loses_twins :
    (∃ s, (read twins colors none).outcome = .ok s ∧
      s.modes = [("dark", [colors / "dark.yml"]), ("light", [colors / "light.yml"])]) ∧
    (twins.exists? (colors / "index.yaml") = false ∧
      twins.isFile (colors / "light.yaml") = true ∧ (colors / "light.yaml").suffix = ".yaml") ∧
    readModes twinKeys colors "colors" = .ok [("1", [colors / "b.yaml"])] := by
  refine ⟨⟨_, read_twins, rfl⟩, ⟨rfl, rfl, by decide⟩, ?_⟩
  have hindexed : (match readModes twinKeys colors "colors" with
      | .ok modes => some modes
      | .error _ => none) = some [("1", [colors / "b.yaml"])] := by decide +kernel
  cases hmodes : readModes twinKeys colors "colors" with
  | ok modes => simpa [hmodes] using hindexed
  | error failure => simp [hmodes] at hindexed

end TypeSource

end DesignTokens
