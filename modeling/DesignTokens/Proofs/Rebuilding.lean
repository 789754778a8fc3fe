import DesignTokens.Proofs.Leaves
import DesignTokens.Proofs.Stopping

/-! A tree flattened and rebuilt. Where the keys of each group differ as texts, no leaf of a tree meets
another, so the variables stand in the order of the leaves. The rebuilt tree arranges them, and a row
of leaves has one arrangement only: the tree itself, with texts for keys, without the groups that hold
no leaf, and with the values that were stored. -/
namespace DesignTokens

open Value

namespace Value

mutual

/-- A value with texts for keys, without groups that hold no leaf, and with each leaf replaced by the
value for its path. -/
def regrown (value : List String → Value) : Value → Value
  | .map es => .map (regrownEntries value es)
  | .group cs => .map (regrownEntries value cs)
  | _ => value []

/-- Entries with texts for keys, without groups that hold no leaf, and with each leaf replaced by the
value for its path. -/
def regrownEntries (value : List String → Value) :
    List (Value × Value) → List (Value × Value)
  | [] => []
  | (k, v) :: rest =>
    if hasLeaf v then
      (.text k.plain, regrown (fun path => value (k.plain :: path)) v) :: regrownEntries value rest
    else regrownEntries value rest

end

theorem IsLeaf.regrown_eq {v : Value} (h : v.IsLeaf) (value : List String → Value) :
    regrown value v = value [] := by
  cases v with
  | map es => exact absurd rfl (h.1 es)
  | group cs => exact absurd rfl (h.2 cs)
  | _ => simp [regrown]

theorem regrownEntries_eq (value : List String → Value) (es : List (Value × Value)) :
    regrownEntries value es = (es.filter fun e => hasLeaf e.2).map fun e =>
      (.text e.1.plain, regrown (fun path => value (e.1.plain :: path)) e.2) := by
  induction es with
  | nil => simp [regrownEntries]
  | cons e rest ih =>
    rw [regrownEntries, ih]
    by_cases h : hasLeaf e.2 <;> simp [h]

end Value

/-- Leaves with other values, chosen by their paths. -/
def revalued (value : List String → Value) (ls : List Leaf) : List Leaf :=
  ls.map fun l => (l.1, value l.1)

theorem heads_revalued (value : List String → Value) (ls : List Leaf) :
    heads (revalued value ls) = heads ls := by
  rw [heads, revalued, List.foldl_map]
  rfl

theorem beneath_revalued (value : List String → Value) (k : String) (ls : List Leaf) :
    beneath k (revalued value ls) = revalued (fun path => value (k :: path)) (beneath k ls) := by
  simp only [beneath, revalued, List.filterMap_map, List.map_filterMap]
  refine List.filterMap_congr fun l _ => ?_
  obtain ⟨path, v⟩ := l
  cases path with
  | nil => rfl
  | cons l rest =>
    by_cases h : l = k
    · simp [h]
    · simp [h]

section Keys

/-! What stands beneath a key, and which keys come first, in the leaves of entries whose keys differ
as texts. -/

theorem beneath_map_under (k l : String) (ls : List Leaf) :
    beneath l (ls.map (under k)) = if k = l then ls else [] := by
  induction ls with
  | nil => simp [beneath]
  | cons leaf rest ih =>
    rw [List.map_cons, under, beneath_cons_cons, ih]
    by_cases h : k = l <;> simp [h]

theorem heads_append_under (k : String) (ls ls' : List Leaf) (hk : k ∉ heads ls) :
    heads (ls ++ ls'.map (under k)) = if ls' = [] then heads ls else heads ls ++ [k] := by
  induction ls' using List.reverseRecOn with
  | nil => simp
  | append_singleton ls' leaf ih =>
    rw [List.map_append, ← List.append_assoc, List.map_singleton, under, heads_append, ih]
    by_cases h : ls' = [] <;> simp [h, hk]

theorem leavesOf_eq_under (es : List (Value × Value)) :
    leavesOf [] es = es.flatMap fun e => (leavesAt [] e.2).map (under e.1.plain) := by
  rw [leavesOf_eq_flatMap]
  exact List.flatMap_congr fun e _ => leavesAt_cons e.1.plain [] e.2

variable {es : List (Value × Value)}

theorem beneath_leavesOf_eq_nil {k : String} (hk : k ∉ es.map (·.1.plain)) :
    beneath k (leavesOf [] es) = [] := by
  refine List.eq_nil_iff_forall_not_mem.mpr fun l hl => hk ?_
  have hmem : (k :: l.1, l.2) ∈ leavesOf [] es := mem_beneath.mp hl
  rw [leavesOf_eq_under, List.mem_flatMap] at hmem
  obtain ⟨e, he, hmem⟩ := hmem
  obtain ⟨l', -, hl'⟩ := List.mem_map.mp hmem
  obtain ⟨hkey, -⟩ : e.1.plain = k ∧ l'.1 = l.1 := by simpa [under] using congrArg Prod.fst hl'
  exact List.mem_map.mpr ⟨e, he, hkey⟩

/-- What stands beneath a key are the leaves of its value. -/
theorem beneath_leavesOf (hkeys : HasDistinctTexts es) {e : Value × Value} (he : e ∈ es) :
    beneath e.1.plain (leavesOf [] es) = leavesAt [] e.2 := by
  induction es with
  | nil => cases he
  | cons d rest ih =>
    obtain ⟨hd, hrest⟩ := List.nodup_cons.mp hkeys
    have hsplit : beneath e.1.plain (leavesOf [] (d :: rest)) =
        (if d.1.plain = e.1.plain then leavesAt [] d.2 else []) ++
          beneath e.1.plain (leavesOf [] rest) := by
      rw [leavesOf_eq_under, List.flatMap_cons, ← leavesOf_eq_under, ← beneath_map_under]
      exact List.filterMap_append
    rw [hsplit]
    rcases List.mem_cons.mp he with rfl | he
    · rw [if_pos rfl, beneath_leavesOf_eq_nil hd, List.append_nil]
    · have hne : d.1.plain ≠ e.1.plain := fun h => hd (List.mem_map.mpr ⟨e, he, h.symm⟩)
      rw [if_neg hne, ih hrest he, List.nil_append]

/-- The first segments of the leaves are the keys of the entries that hold a leaf. -/
theorem heads_leavesOf (hkeys : HasDistinctTexts es) :
    heads (leavesOf [] es) = (es.filter fun e => hasLeaf e.2).map (·.1.plain) := by
  induction es using List.reverseRecOn with
  | nil => simp [leavesOf, heads]
  | append_singleton es e ih =>
    have hsplit : leavesOf [] (es ++ [e]) =
        leavesOf [] es ++ (leavesAt [] e.2).map (under e.1.plain) := by
      simp only [leavesOf_eq_under, List.flatMap_append, List.flatMap_singleton]
    rw [HasDistinctTexts, List.map_append, List.nodup_append'] at hkeys
    obtain ⟨hes, -, hdisjoint⟩ := hkeys
    have hnew : e.1.plain ∉ heads (leavesOf [] es) := by
      rw [ih hes]
      intro hmem
      obtain ⟨d, hd, hkey⟩ := List.mem_map.mp hmem
      exact hdisjoint (List.mem_map.mpr ⟨d, (List.mem_filter.mp hd).1, hkey⟩) (by simp)
    rw [hsplit, heads_append_under _ _ _ hnew, ih hes, List.filter_append, List.map_append]
    by_cases hleaf : leavesAt [] e.2 = []
    · have hnone : hasLeaf e.2 = false := by
        simpa using mt (hasLeaf_iff [] e.2).mp (not_not.mpr hleaf)
      simp [hleaf, hnone]
    · have hsome : hasLeaf e.2 = true := (hasLeaf_iff [] e.2).mpr hleaf
      simp [hleaf, hsome]

end Keys

/-- The leaves of a tree, whatever their values, are arranged as the tree regrown with these values. -/
theorem Value.EveryGroup.arranged {v : Value} (h : v.EveryGroup HasDistinctTexts)
    (value : List String → Value) : Arranged (revalued value (leavesAt [] v)) (regrown value v) := by
  have hgroup : ∀ (es : List (Value × Value)) (value : List String → Value),
      HasDistinctTexts es →
      (∀ e ∈ es, ∀ inner, Arranged (revalued inner (leavesAt [] e.2)) (regrown inner e.2)) →
      Arranged (revalued value (leavesOf [] es)) (.map (regrownEntries value es)) := by
    intro es value hkeys ih
    rw [regrownEntries_eq]
    refine .group (fun l hl => ?_) ?_ fun k x hx => ?_
    · obtain ⟨l', hl', rfl⟩ := List.mem_map.mp hl
      have hne := leaf_path_ne_nil hl'
      exact hne
    · rw [heads_revalued, heads_leavesOf hkeys, List.map_map, List.map_map]
      rfl
    · obtain ⟨e, he, heq⟩ := List.mem_map.mp hx
      obtain ⟨rfl, rfl⟩ : e.1.plain = k ∧ _ = x := by simpa using heq
      have hmem : e ∈ es := (List.mem_filter.mp he).1
      rw [beneath_revalued, beneath_leavesOf hkeys hmem]
      exact ih e hmem _
  induction h generalizing value with
  | leaf h =>
    rw [h.leavesAt_eq, h.regrown_eq]
    exact .leaf _
  | map hkeys _ ih =>
    rw [leavesAt, regrown]
    exact hgroup _ value hkeys fun e he inner => ih e he inner
  | group hkeys _ ih =>
    rw [leavesAt, regrown]
    exact hgroup _ value hkeys fun e he inner => ih e he inner

/-- A row of leaves has one arrangement. -/
theorem Arranged.unique {ls : List Leaf} {x y : Value} (hx : Arranged ls x) (hy : Arranged ls y) :
    x = y := by
  induction hx generalizing y with
  | leaf v =>
    cases hy with
    | leaf => rfl
    | group hpath => simp at hpath
  | @group ls es hpath hkeys hinner ih =>
    cases hy with
    | leaf => simp at hpath
    | @group _ es' _ hkeys' hinner' =>
      have hsame : es.map (·.1) = es'.map (·.1) := hkeys.trans hkeys'.symm
      congr 1
      have hlength : es.length = es'.length := by simpa using congrArg List.length hsame
      refine List.ext_getElem hlength fun i hi hi' => ?_
      have hkey : es[i].1 = es'[i].1 := by
        have := congrArg (·[i]?) hsame
        simpa [hi, hi'] using this
      obtain ⟨k, -, hk⟩ := exists_head_of_mem hkeys (List.getElem_mem hi)
      have hmem : (.text k, es[i].2) ∈ es := hk ▸ List.getElem_mem hi
      have hmem' : (.text k, es'[i].2) ∈ es' := hk ▸ hkey ▸ List.getElem_mem hi'
      exact Prod.ext hkey (ih k _ hmem (hinner' k _ hmem'))

namespace VariableSet

theorem putVariable_of_not_mem {v : Variable} {vs : List Variable}
    (h : v.name ∉ vs.map (·.name)) : putVariable v vs = vs ++ [v] := by
  induction vs with
  | nil => rfl
  | cons w rest ih =>
    rw [List.map_cons, List.mem_cons, not_or] at h
    rw [putVariable, if_neg (Ne.symm h.1), ih h.2, List.cons_append]

/-- Leaves that do not meet each other are stored in a fresh set one behind the other. -/
theorem storeAll_toList (mode typePrefix : String) (strict : Bool) {w : List Leaf}
    (hpath : ∀ l ∈ w, l.1 ≠ []) (hapart : w.Pairwise fun l m => Apart l.1 m.1)
    (hnames : (w.map fun l => fullName typePrefix l.1).Nodup) :
    ((empty mode typePrefix strict).storeAll w).toList =
      w.map fun l => ⟨fullName typePrefix l.1, l.2, l.1, mode⟩ := by
  induction w using List.reverseRecOn with
  | nil => rfl
  | append_singleton w m ih =>
    have hpath' : ∀ l ∈ w, l.1 ≠ [] := fun l hl => hpath l (List.mem_append_left _ hl)
    rw [List.map_append, List.nodup_append'] at hnames
    obtain ⟨hnames, -, hnew⟩ := hnames
    obtain ⟨hapart, -, hm⟩ := List.pairwise_append.mp hapart
    have hs := (empty_coherent mode typePrefix strict).storeAll hpath'
    have hold := ih hpath' hapart hnames
    have hkept : ((empty mode typePrefix strict).storeAll w).keptAt m.1 =
        w.map fun l => ⟨fullName typePrefix l.1, l.2, l.1, mode⟩ := by
      rw [keptAt, hold]
      refine List.filter_eq_self.mpr fun v hv => ?_
      obtain ⟨l, hl, rfl⟩ := List.mem_map.mp hv
      simpa using (apart_iff.mp (hm l hl m (by simp))).1
    rw [storeAll_append_singleton, hs.store_toList (hpath m (by simp)), hkept, nameAt_storeAll,
      (storeAll_frame _ w).1, List.map_append]
    refine putVariable_of_not_mem fun hmem => ?_
    rw [List.map_map] at hmem
    exact hnew hmem (by simp)

/-- A strict set takes the leaves of a tree only if their names differ. -/
theorem names_nodup_of_add {s : VariableSet} {es : List (Value × Value)}
    (hopen : s.finalized = false) (hstrict : s.strict = true)
    (h : (s.add (.map es)).failure = none) :
    ((leavesOf [] es).map fun l => s.nameAt l.1).Nodup := by
  have hkeys : textlessAmong? es = none :=
    (Flattening.insertTree_eq_none _ es).mp ((add_map_eq hopen es).2 ▸ h) |>.1
  have hnone : ∀ n failure, ¬ EndsAt s es n failure := by
    rcases add_map_cases hopen es with ⟨-, hnone⟩ | ⟨n, failure, -, hsome, -⟩
    · exact hnone
    · rw [h] at hsome
      cases hsome
  refine List.pairwise_iff_getElem.mpr fun i j hi hj hij he => ?_
  simp only [List.length_map] at hi hj
  simp only [List.getElem_map] at he
  refine hnone j _ (.leaf (.repeated (List.getElem?_eq_getElem hj) hstrict
    ⟨(leavesOf [] es)[i], ?_, he⟩) fun m hm => by simp [hkeys] at hm)
  exact List.mem_take_iff_getElem.mpr ⟨i, by omega, rfl⟩

/-- Insertions at different paths store a value for each path. -/
theorem exists_revalued {ls w : List Leaf} (hpaths : w.map (·.1) = ls.map (·.1))
    (hnodup : (ls.map (·.1)).Nodup) : ∃ value, w = revalued value ls := by
  classical
  let value : List String → Value := fun path =>
    if h : ∃ x, (path, x) ∈ w then h.choose else .null
  have hvalue : ∀ l ∈ w, l = (l.1, value l.1) := by
    intro l hl
    have hex : ∃ x, (l.1, x) ∈ w := ⟨l.2, hl⟩
    have hchosen : (l.1, value l.1) ∈ w := by
      simp only [value, dif_pos hex]
      exact hex.choose_spec
    exact List.inj_on_of_nodup_map (hpaths ▸ hnodup) hl hchosen rfl
  refine ⟨value, ?_⟩
  calc w = (w.map (·.1)).map fun path => (path, value path) := by
        rw [List.map_map]
        exact (List.map_id w).symm.trans (List.map_congr_left hvalue)
    _ = revalued value ls := by
        rw [hpaths, List.map_map]
        rfl

/-- A tree whose keys differ as texts in each group, once added to a fresh strict set, gives one
variable for each of its leaves, in their order. Each has the value that its leaf resolves to when
its turn comes, and the tree of the set is the added one, regrown with these values. -/
theorem add_rebuilds (mode typePrefix : String) (es : List (Value × Value))
    (hkeys : (Value.map es).EveryGroup HasDistinctTexts)
    (hok : ((empty mode typePrefix true).add (.map es)).failure = none) :
    let s := ((empty mode typePrefix true).add (.map es)).set
    ∃ value : List String → Value,
      Inserted (empty mode typePrefix true) (leavesOf [] es) (revalued value (leavesOf [] es)) ∧
      s.toList = (leavesOf [] es).map
        (fun l => ⟨fullName typePrefix l.1, value l.1, l.1, mode⟩) ∧
      s.tree = .ok (.map (regrownEntries value es)) := by
  intro s
  have hapart : (leavesOf [] es).Pairwise fun l m => Apart l.1 m.1 := by
    have hall := hkeys.leaves_apart []
    rwa [leavesAt] at hall
  have hpaths : ((leavesOf [] es).map (·.1)).Nodup :=
    List.pairwise_map.mpr (hapart.imp fun h => (apart_iff.mp h).2)
  have hnames : ((leavesOf [] es).map fun l => fullName typePrefix l.1).Nodup :=
    names_nodup_of_add rfl rfl hok
  obtain ⟨w, hw, hset⟩ := add_inserted hok
  rw [treeLeaves] at hw
  obtain ⟨value, rfl⟩ := exists_revalued hw.paths hpaths
  have hne : ∀ l ∈ revalued value (leavesOf [] es), l.1 ≠ [] := by
    intro l hl
    obtain ⟨l', hl', rfl⟩ := List.mem_map.mp hl
    have hne := leaf_path_ne_nil hl'
    exact hne
  have hlist : s.toList = (leavesOf [] es).map
      (fun l => ⟨fullName typePrefix l.1, value l.1, l.1, mode⟩) := by
    have hstored := storeAll_toList mode typePrefix true hne (List.pairwise_map.mpr hapart)
      (by simpa [revalued, Function.comp_def] using hnames)
    rw [revalued, List.map_map] at hstored
    exact (congrArg toList hset).trans hstored
  refine ⟨value, hw, hlist, ?_⟩
  have hs : s.Coherent := by
    rw [show s = (empty mode typePrefix true).storeAll (revalued value (leavesOf [] es)) from hset]
    exact (empty_coherent mode typePrefix true).storeAll hne
  obtain ⟨es', htree, harr⟩ := hs.tree
  have hleaves : s.leaves = revalued value (leavesAt [] (.map es)) := by
    rw [leaves, hlist, leavesAt, revalued, List.map_map]
    rfl
  rw [hleaves] at harr
  rw [htree, harr.unique (hkeys.arranged value), regrown]

/-- A tree with a dotted key and a number for a key, a group without leaves, and a reference into a
row. -/
def assorted : List (Value × Value) :=
  [(.text "gray", .list [.text "a", .map [(.text "b", .int 1)]]),
    (.text "a.b", .group [(.int 5, .ref "gray.1"), (.text "d", .deferred (.alpha (.ref "c") .null))]),
    (.text "none", .map [(.text "deep", .map [])]),
    (.text "a", .map [(.text "x", .ref "a.b.5")])]

theorem add_rebuilds_assorted :
    let s := ((empty "light" "colors" true).add (.map assorted)).set
    (Value.map assorted).EveryGroup HasDistinctTexts ∧
      ((empty "light" "colors" true).add (.map assorted)).failure = none ∧
      s.names = ["colors-gray", "colors-a.b.5", "colors-a.b.d", "colors-a.x"] ∧
      ∃ value : List String → Value,
        Inserted (empty "light" "colors" true) (leavesOf [] assorted)
          (revalued value (leavesOf [] assorted)) ∧
        s.toList = (leavesOf [] assorted).map
          (fun l => ⟨fullName "colors" l.1, value l.1, l.1, "light"⟩) ∧
        s.tree = .ok (.map (regrownEntries value assorted)) := by
  have hkeys : (Value.map assorted).EveryGroup HasDistinctTexts := by
    refine .map (by decide) fun e he => ?_
    simp only [assorted, List.mem_cons, List.not_mem_nil, or_false] at he
    rcases he with rfl | rfl | rfl | rfl
    · exact .leaf (by simp [IsLeaf])
    · refine .group (by decide) fun e he => .leaf ?_
      simp only [List.mem_cons, List.not_mem_nil, or_false] at he
      rcases he with rfl | rfl <;> simp [IsLeaf]
    · refine .map (by decide) fun e he => ?_
      obtain rfl := List.mem_singleton.mp he
      exact .map (by decide) (by simp)
    · refine .map (by decide) fun e he => ?_
      obtain rfl := List.mem_singleton.mp he
      exact .leaf (by simp [IsLeaf])
  exact ⟨hkeys, by rfl, by rfl, add_rebuilds "light" "colors" assorted hkeys (by rfl)⟩

end VariableSet

end DesignTokens
