import DesignTokens.Proofs.Leaves

/-! Overlays fold as trees merge. A set and a mapping go together if they hold the same leaves,
whatever the order; storing a value in the set and putting it into the mapping keep them together.
Two mappings with the same leaves are equal but for the order of their entries, so the tree of the set
is the merge of its overlays. -/
namespace DesignTokens

open Value

/-- A row of leaves without those that a leaf at a path replaces. -/
def apartFrom (path : List String) (ls : List Leaf) : List Leaf :=
  ls.filter fun l => Apart l.1 path

theorem mem_apartFrom {path : List String} {ls : List Leaf} {l : Leaf} :
    l ∈ apartFrom path ls ↔ l ∈ ls ∧ Apart l.1 path := by
  simp [apartFrom]

theorem apartFrom_cons (path : List String) (leaf : Leaf) (ls : List Leaf) :
    apartFrom path (leaf :: ls) =
      if Apart leaf.1 path then leaf :: apartFrom path ls else apartFrom path ls := by
  by_cases h : Apart leaf.1 path <;> simp [apartFrom, h]

/-- A leaf under one key replaces nothing under another. -/
theorem beneath_apartFrom (k l : String) (rest : List String) (ls : List Leaf) :
    beneath l (apartFrom (k :: rest) ls) =
      if l = k then apartFrom rest (beneath l ls) else beneath l ls := by
  induction ls with
  | nil => simp [beneath, apartFrom]
  | cons leaf ls ih =>
    obtain ⟨path, v⟩ := leaf
    cases path with
    | nil =>
      rw [apartFrom_cons, if_neg (not_apart_nil _), ih]
      rfl
    | cons h tail =>
      rw [apartFrom_cons, beneath_cons_cons]
      by_cases hl : l = k
      · subst hl
        by_cases hh : h = l <;> by_cases hap : Apart tail rest <;>
          simp_all [beneath_cons_cons, apartFrom_cons]
      · by_cases hh : h = l <;> by_cases hk : h = k <;> by_cases hap : Apart tail rest <;>
          simp_all [beneath_cons_cons]

/-- A value comprises a row of leaves: it is the only one, or it is a mapping under the first segments
of the paths, and what stands under each of them comprises what is beneath. -/
inductive Comprises : List Leaf → Value → Prop where
  | leaf (v : Value) : Comprises [([], v)] v
  | group {ls : List Leaf} {es : List (Value × Value)} (hpath : ∀ l ∈ ls, l.1 ≠ [])
      (hnodup : (es.map (·.1)).Nodup)
      (hkeys : ∀ key, key ∈ es.map (·.1) ↔ ∃ k, key = .text k ∧ beneath k ls ≠ [])
      (hinner : ∀ k x, (.text k, x) ∈ es → Comprises (beneath k ls) x) : Comprises ls (.map es)

theorem Arranged.comprises {ls : List Leaf} {x : Value} (h : Arranged ls x) : Comprises ls x := by
  induction h with
  | leaf v => exact .leaf v
  | @group ls es hpath hkeys _ ih =>
    refine .group hpath (keys_nodup_of_heads hkeys) (fun key => ?_) ih
    rw [hkeys, List.mem_map]
    exact exists_congr fun k => by rw [mem_heads, eq_comm, and_comm]

namespace Comprises

theorem nil : Comprises [] (.map []) := .group (by simp) (by simp) (by simp [beneath]) (by simp)

theorem leaf_or_group {ls : List Leaf} {x : Value} (h : Comprises ls x) :
    ls = [([], x)] ∨ ((∀ l ∈ ls, l.1 ≠ []) ∧ ∃ es, x = .map es) := by
  cases h with
  | leaf => exact Or.inl rfl
  | group hpath => exact Or.inr ⟨hpath, _, rfl⟩

/-- The order of the leaves does not matter. -/
theorem perm {ls ls' : List Leaf} {x : Value} (h : Comprises ls x) (hperm : ls.Perm ls') :
    Comprises ls' x := by
  induction h generalizing ls' with
  | leaf v =>
    obtain rfl := List.perm_singleton.mp hperm.symm
    exact .leaf v
  | @group ls es hpath hnodup hkeys _ ih =>
    have hbeneath : ∀ k, (beneath k ls).Perm (beneath k ls') := fun k => hperm.filterMap _
    refine .group (fun l hl => hpath l (hperm.mem_iff.mpr hl)) hnodup (fun key => ?_)
      fun k x hx => ih k x hx (hbeneath k)
    rw [hkeys]
    refine exists_congr fun k => and_congr_right fun _ => ?_
    rw [ne_eq, ne_eq, ← List.length_eq_zero_iff, ← List.length_eq_zero_iff, (hbeneath k).length_eq]

/-- Values that comprise the same leaves are equal as nested mappings. -/
theorem alike {ls : List Leaf} {x y : Value} (hx : Comprises ls x) (hy : Comprises ls y) :
    Alike x y := by
  induction hx generalizing y with
  | leaf v =>
    cases hy with
    | leaf => exact .refl v
    | group hpath => simp at hpath
  | @group ls es hpath hnodup hkeys _ ih =>
    cases hy with
    | leaf => simp at hpath
    | group _ hnodup' hkeys' hinner' =>
      refine .map ((List.perm_ext_iff_of_nodup hnodup hnodup').mpr fun key => ?_) ?_
      · rw [hkeys, hkeys']
      · intro key x y hx hy
        obtain ⟨k, rfl, -⟩ := (hkeys key).mp (List.mem_map.mpr ⟨_, hx, rfl⟩)
        exact ih k x hx (hinner' k y hy)

theorem entry?_cases {ls : List Leaf} {es : List (Value × Value)} (h : Comprises ls (.map es))
    (hpath : ∀ l ∈ ls, l.1 ≠ []) (k : String) :
    (Value.entry? k es = none ∧ beneath k ls = []) ∨
      ∃ x, entry? k es = some x ∧ Comprises (beneath k ls) x := by
  cases h with
  | leaf => simp at hpath
  | group _ _ hkeys hinner =>
    cases hx : entry? k es with
    | none =>
      have hnot := mt (hkeys (.text k)).mpr (entry?_eq_none.mp hx)
      exact Or.inl ⟨rfl, by simpa using hnot⟩
    | some x => exact Or.inr ⟨x, rfl, hinner k x (mem_of_entry?_eq_some hx)⟩

/-- Putting a value under a key changes what is comprised beneath that key and nothing else. -/
theorem insertEntry {ls ls' : List Leaf} {es : List (Value × Value)} {k : String} {x : Value}
    (h : Comprises ls (.map es)) (hpath : ∀ l ∈ ls, l.1 ≠ []) (hpath' : ∀ l ∈ ls', l.1 ≠ [])
    (hother : ∀ l, l ≠ k → beneath l ls' = beneath l ls) (hne : beneath k ls' ≠ [])
    (hx : Comprises (beneath k ls') x) :
    Comprises ls' (.map (Value.insertEntry (.text k) x es)) := by
  cases h with
  | leaf => simp at hpath
  | group _ hnodup hkeys hinner =>
    refine .group hpath' ?_ (fun key => ?_) fun l y hy => ?_
    · by_cases hk : .text k ∈ es.map (·.1)
      · rwa [keys_insertEntry_of_mem hk]
      · rw [insertEntry_of_not_mem hk, List.map_append]
        exact hnodup.append (List.nodup_singleton _) (by simpa using hk)
    · have hkey : key ∈ (Value.insertEntry (.text k) x es).map (·.1) ↔
          key = .text k ∨ key ∈ es.map (·.1) := by
        by_cases hk : .text k ∈ es.map (·.1)
        · rw [keys_insertEntry_of_mem hk, iff_or_self]
          rintro rfl
          exact hk
        · rw [insertEntry_of_not_mem hk, List.map_append, List.mem_append, or_comm]
          simp
      rw [hkey, hkeys]
      constructor
      · rintro (rfl | ⟨l, rfl, hl⟩)
        · exact ⟨k, rfl, hne⟩
        · by_cases hlk : l = k
          · exact ⟨l, rfl, hlk ▸ hne⟩
          · exact ⟨l, rfl, (hother l hlk).symm ▸ hl⟩
      · rintro ⟨l, rfl, hl⟩
        by_cases hlk : l = k
        · exact Or.inl (by rw [hlk])
        · exact Or.inr ⟨l, rfl, hother l hlk ▸ hl⟩
    · rcases (mem_insertEntry hnodup).mp hy with he | ⟨hmem, hkey⟩
      · obtain ⟨rfl, rfl⟩ : l = k ∧ y = x := by simpa using he
        exact hx
      · have hl : l ≠ k := fun he => hkey (by rw [he])
        rw [hother l hl]
        exact hinner l y hmem

/-- The group under a key comprises what is beneath it, but for a leaf that stands there itself. -/
theorem groupUnder {ls : List Leaf} {es : List (Value × Value)} (h : Comprises ls (.map es))
    (hpath : ∀ l ∈ ls, l.1 ≠ []) (hleaf : ∀ l ∈ ls, ∀ inner, l.2 ≠ .map inner) (k : String) :
    ∃ inner, Comprises inner (.map (Value.groupUnder k es)) ∧ (∀ l ∈ inner, l.1 ≠ []) ∧
      (∀ l ∈ inner, l ∈ beneath k ls) ∧
      ∀ path, apartFrom path inner = apartFrom path (beneath k ls) := by
  rcases h.entry?_cases hpath k with ⟨hx, hnil⟩ | ⟨x, hx, hcomp⟩
  · refine ⟨[], ?_, by simp, by simp, fun path => by rw [hnil]⟩
    simpa [Value.groupUnder, hx] using Comprises.nil
  · rcases hcomp.leaf_or_group with hone | ⟨hinner, es', rfl⟩
    · have hnot : ∀ inner, x ≠ .map inner :=
        hleaf (k :: [], x) (mem_beneath.mp (hone ▸ List.mem_singleton_self _))
      have hgroup : Value.groupUnder k es = [] := by
        unfold Value.groupUnder
        rw [hx]
        split
        · next inner he => exact absurd (Option.some.inj he) (hnot inner)
        · rfl
      refine ⟨[], ?_, by simp, by simp, fun path => by simp [hone, apartFrom]⟩
      rw [hgroup]
      exact Comprises.nil
    · refine ⟨_, ?_, hinner, fun l hl => hl, fun path => rfl⟩
      simpa [Value.groupUnder, hx] using hcomp

/-- Putting a leaf at a path takes the leaves away that it replaces. -/
theorem setAt {ls : List Leaf} {es : List (Value × Value)} {path : List String} (v : Value)
    (h : Comprises ls (.map es)) (hpath : ∀ l ∈ ls, l.1 ≠ [])
    (hleaf : ∀ l ∈ ls, ∀ inner, l.2 ≠ .map inner) (hp : path ≠ []) :
    Comprises (apartFrom path ls ++ [(path, v)]) (.map (Value.setAt v path es)) := by
  induction path generalizing ls es with
  | nil => exact absurd rfl hp
  | cons k rest ih =>
    have hpath' : ∀ l ∈ apartFrom (k :: rest) ls ++ [(k :: rest, v)], l.1 ≠ [] := by
      intro l hl
      rcases List.mem_append.mp hl with hl | hl
      · exact hpath l (mem_apartFrom.mp hl).1
      · obtain rfl := List.mem_singleton.mp hl
        simp
    have hbeneath : beneath k (apartFrom (k :: rest) ls ++ [(k :: rest, v)]) =
        apartFrom rest (beneath k ls) ++ [(rest, v)] := by
      rw [beneath_append, beneath_apartFrom, if_pos rfl, if_pos rfl]
    have hother : ∀ l, l ≠ k →
        beneath l (apartFrom (k :: rest) ls ++ [(k :: rest, v)]) = beneath l ls := by
      intro l hl
      rw [beneath_append, beneath_apartFrom, if_neg hl, if_neg (Ne.symm hl), List.append_nil]
    have hput : ∀ x, Comprises (apartFrom rest (beneath k ls) ++ [(rest, v)]) x →
        Comprises (apartFrom (k :: rest) ls ++ [(k :: rest, v)])
          (.map (Value.insertEntry (.text k) x es)) := fun x hx =>
      h.insertEntry hpath hpath' hother (by simp [hbeneath]) (hbeneath ▸ hx)
    cases rest with
    | nil =>
      have hnone : apartFrom [] (beneath k ls) = [] := by simp [apartFrom]
      rw [Value.setAt]
      refine hput v ?_
      rw [hnone]
      exact .leaf v
    | cons l tail =>
      obtain ⟨inner, hinner, hne, hmem, hsame⟩ := h.groupUnder hpath hleaf k
      rw [setAt_cons (by simp)]
      refine hput _ ?_
      rw [← hsame]
      exact ih hinner hne (fun m hm => hleaf (k :: m.1, m.2) (mem_beneath.mp (hmem m hm))) (by simp)

end Comprises

theorem Value.IsSettled.isLeaf {v : Value} (h : v.IsSettled) : v.IsLeaf := by
  cases v <;> simp_all [IsSettled, IsLeaf]

theorem Value.IsSettled.resolve_eq {v : Value} (h : v.IsSettled) (s : VariableSet)
    (referrer : String) : s.resolve v referrer = .ok v := by
  cases v <;> simp_all [IsSettled, VariableSet.resolve, Token.of]

/-- Leaves that can be stored one after the other without meeting each other: their paths differ and
hold no dots, and their values stand for themselves. -/
structure Separate (ls : List Leaf) : Prop where
  paths_nodup : (ls.map (·.1)).Nodup
  dotFree : ∀ l ∈ ls, DotFree l.1
  settled : ∀ l ∈ ls, l.2.IsSettled

theorem Value.IsPlainTree.everyGroup {v : Value} (h : v.IsPlainTree) :
    v.EveryGroup HasPlainKeys := by
  induction h with
  | leaf h => exact .leaf h.isLeaf
  | map hkeys _ ih => exact .map hkeys ih
  | group hkeys _ ih => exact .group hkeys ih

theorem Value.IsPlainTree.leaves_settled {v : Value} (h : v.IsPlainTree) (path : List String) :
    ∀ l ∈ leavesAt path v, l.2.IsSettled := by
  induction h generalizing path with
  | leaf h =>
    rw [h.isLeaf.leavesAt_eq]
    simpa using h
  | map _ _ ih =>
    intro l hl
    rw [leavesAt, leavesOf_eq_flatMap, List.mem_flatMap] at hl
    obtain ⟨e, he, hl⟩ := hl
    exact ih e he _ l hl
  | group _ _ ih =>
    intro l hl
    rw [leavesAt, leavesOf_eq_flatMap, List.mem_flatMap] at hl
    obtain ⟨e, he, hl⟩ := hl
    exact ih e he _ l hl

theorem Value.IsPlainTree.separate_root {es : List (Value × Value)} (h : IsPlainTree (.map es)) :
    Separate (leavesOf [] es) := by
  have hgroups := h.everyGroup
  have hapart := (hgroups.mono fun _ => HasPlainKeys.hasDistinctTexts).leaves_apart []
  have hdots := hgroups.leaves_dotFree [] (by simp [DotFree])
  have hsettled := h.leaves_settled []
  rw [leavesAt] at hapart hdots hsettled
  exact ⟨List.pairwise_map.mpr (hapart.imp fun h => (apart_iff.mp h).2), hdots, hsettled⟩

namespace VariableSet

/-- Leaves whose names have not been met and differ are all stored as they are. -/
theorem Flattening.insertAll_of_settled {f : Flattening} {ls : List Leaf}
    (hsettled : ∀ l ∈ ls, l.2.IsSettled) (hnew : ∀ l ∈ ls, f.set.nameAt l.1 ∉ f.seen)
    (hnodup : (ls.map fun l => f.set.nameAt l.1).Nodup) :
    ∃ seen, f.insertAll ls = (⟨f.set.storeAll ls, seen, f.warnings⟩, none) := by
  induction ls generalizing f with
  | nil => exact ⟨f.seen, rfl⟩
  | cons l rest ih =>
    obtain ⟨hl, hrest⟩ := List.nodup_cons.mp hnodup
    have hinsert : f.insert l =
        (⟨f.set.store l.1 l.2, f.set.nameAt l.1 :: f.seen, f.warnings⟩, none) := by
      have hseen := hnew l List.mem_cons_self
      simp [insert, hseen, (hsettled l List.mem_cons_self).resolve_eq]
    have hnew' : ∀ m ∈ rest, f.set.nameAt m.1 ∉ f.set.nameAt l.1 :: f.seen := by
      intro m hm
      rw [List.mem_cons, not_or]
      exact ⟨fun he => hl (List.mem_map.mpr ⟨m, hm, he⟩),
        hnew m (List.mem_cons_of_mem _ hm)⟩
    obtain ⟨seen, hseen⟩ := ih
      (f := ⟨f.set.store l.1 l.2, f.set.nameAt l.1 :: f.seen, f.warnings⟩)
      (fun m hm => hsettled m (List.mem_cons_of_mem _ hm)) hnew' hrest
    exact ⟨seen, by rw [insertAll, hinsert]; exact hseen⟩

/-- An overlay with plain keys is stored leaf by leaf, and nothing is to be told about it. -/
theorem add_of_isPlainTree {s : VariableSet} (hopen : s.finalized = false)
    {es : List (Value × Value)} (h : IsPlainTree (.map es)) :
    s.add (.map es) = ⟨s.storeAll (leavesOf [] es), [], none⟩ := by
  have hseparate := h.separate_root
  have hnames : (((leavesOf [] es).map (·.1)).map s.nameAt).Nodup := by
    refine hseparate.paths_nodup.map_on fun p hp q hq he => ?_
    obtain ⟨l, hl, rfl⟩ := List.mem_map.mp hp
    obtain ⟨m, hm, rfl⟩ := List.mem_map.mp hq
    exact fullName_inj (leaf_path_ne_nil hl) (leaf_path_ne_nil hm) (hseparate.dotFree l hl)
      (hseparate.dotFree m hm) he
  obtain ⟨seen, hseen⟩ := Flattening.insertAll_of_settled (f := ⟨s, [], []⟩) hseparate.settled
    (by simp) (by simpa [List.map_map, Function.comp_def] using hnames)
  have htexts : textlessAmong? es = none := by
    have hplain : textlessIn? (.map es) = none := h.everyGroup.textlessIn?_eq_none
      fun _ hkeys e he => by
        obtain ⟨k, hk, -⟩ := hkeys.2 e he
        rw [hk, hasText_text]
    rwa [textlessIn?] at hplain
  simp [add, hopen, Flattening.insertTree, readableLeaves_eq htexts, hseen, htexts]

/-- A set and a mapping that hold the same leaves. -/
structure Mirrors (s : VariableSet) (es : List (Value × Value)) : Prop where
  coherent : s.Coherent
  opened : s.finalized = false
  dotFree : ∀ v ∈ s.toList, DotFree v.path
  settled : ∀ v ∈ s.toList, v.value.IsSettled
  comprises : Comprises s.leaves (.map es)

theorem Coherent.leaves_nodup {s : VariableSet} (h : s.Coherent) : s.leaves.Nodup := by
  refine List.Nodup.of_map (·.1) (List.Nodup.of_map s.nameAt ?_)
  have hnames : (s.leaves.map (·.1)).map s.nameAt = s.names := by
    simp only [leaves, names, List.map_map]
    exact List.map_congr_left fun v hv => (h.name_eq v hv).symm
  rw [hnames]
  exact h.names_nodup

theorem mem_leaves {s : VariableSet} {l : Leaf} :
    l ∈ s.leaves ↔ ∃ v ∈ s.toList, v.path = l.1 ∧ v.value = l.2 := by
  simp [leaves, Prod.ext_iff]

namespace Mirrors

variable {s : VariableSet} {es : List (Value × Value)}

theorem empty (mode typePrefix : String) (strict : Bool) :
    Mirrors (VariableSet.empty mode typePrefix strict) [] :=
  ⟨empty_coherent mode typePrefix strict, rfl, by simp [VariableSet.empty],
    by simp [VariableSet.empty], Comprises.nil⟩

/-- Without dots a store leaves exactly the variables whose paths are apart from the new one. -/
theorem leaves_store (h : s.Mirrors es) {path : List String} (hp : path ≠ [])
    (hdots : DotFree path) (value : Value) :
    (apartFrom path s.leaves ++ [(path, value)]).Perm (s.store path value).leaves := by
  have hnodup : (apartFrom path s.leaves ++ [(path, value)]).Nodup := by
    refine (h.coherent.leaves_nodup.filter _).append (List.nodup_singleton _) ?_
    intro l hl hpath
    obtain rfl := List.mem_singleton.mp hpath
    exact (mem_apartFrom.mp hl).2.1 List.prefix_rfl
  refine (List.perm_ext_iff_of_nodup hnodup (h.coherent.store hp value).leaves_nodup).mpr fun l => ?_
  simp only [List.mem_append, mem_apartFrom, List.mem_singleton, mem_leaves, h.coherent.mem_store hp]
  constructor
  · rintro (⟨⟨v, hv, hpath, hvalue⟩, hapart⟩ | rfl)
    · obtain ⟨hclash, hne⟩ := apart_iff.mp (hpath ▸ hapart)
      refine ⟨v, Or.inr ⟨hv, hclash, fun hname => hne ?_⟩, hpath, hvalue⟩
      rw [h.coherent.name_eq v hv] at hname
      exact fullName_inj (h.coherent.path_ne_nil v hv) hp (h.dotFree v hv) hdots hname
    · exact ⟨_, Or.inl rfl, rfl, rfl⟩
  · rintro ⟨v, rfl | ⟨hv, hclash, hname⟩, hpath, hvalue⟩
    · exact Or.inr (Prod.ext hpath.symm hvalue.symm)
    · refine Or.inl ⟨⟨v, hv, hpath, hvalue⟩, hpath ▸ apart_iff.mpr ⟨hclash, fun he => hname ?_⟩⟩
      rw [h.coherent.name_eq v hv, he]

theorem store (h : s.Mirrors es) {path : List String} (hp : path ≠ []) (hdots : DotFree path)
    {value : Value} (hvalue : value.IsSettled) :
    (s.store path value).Mirrors (setAt value path es) where
  coherent := h.coherent.store hp value
  opened := h.opened
  dotFree v hv := by
    rcases (h.coherent.mem_store hp).mp hv with rfl | ⟨hv, -⟩
    · exact hdots
    · exact h.dotFree v hv
  settled v hv := by
    rcases (h.coherent.mem_store hp).mp hv with rfl | ⟨hv, -⟩
    · exact hvalue
    · exact h.settled v hv
  comprises := by
    have hpath : ∀ l ∈ s.leaves, l.1 ≠ [] := by
      intro l hl
      obtain ⟨v, hv, he, -⟩ := mem_leaves.mp hl
      exact he ▸ h.coherent.path_ne_nil v hv
    have hleaf : ∀ l ∈ s.leaves, ∀ inner, l.2 ≠ .map inner := by
      intro l hl
      obtain ⟨v, hv, -, he⟩ := mem_leaves.mp hl
      exact he ▸ (h.settled v hv).ne_map
    exact (h.comprises.setAt value hpath hleaf hp).perm (h.leaves_store hp hdots value)

theorem storeAll (h : s.Mirrors es) {ls : List Leaf} (hpath : ∀ l ∈ ls, l.1 ≠ [])
    (hdots : ∀ l ∈ ls, DotFree l.1) (hsettled : ∀ l ∈ ls, l.2.IsSettled) :
    (s.storeAll ls).Mirrors (setAll es ls) := by
  induction ls generalizing s es with
  | nil => exact h
  | cons l rest ih =>
    have hl := h.store (hpath l List.mem_cons_self) (hdots l List.mem_cons_self)
      (hsettled l List.mem_cons_self)
    exact ih hl (fun m hm => hpath m (List.mem_cons_of_mem _ hm))
      (fun m hm => hdots m (List.mem_cons_of_mem _ hm))
      fun m hm => hsettled m (List.mem_cons_of_mem _ hm)

/-- The tree of the set is the mapping, but for the order of entries. -/
theorem tree (h : s.Mirrors es) : ∃ entries, s.tree = .ok (.map entries) ∧
    Alike (.map entries) (.map es) := by
  obtain ⟨entries, htree, harranged⟩ := h.coherent.tree
  exact ⟨entries, htree, harranged.comprises.alike h.comprises⟩

theorem addAll (h : s.Mirrors es) {overlays : List (List (Value × Value))}
    (hplain : ∀ later ∈ overlays, IsPlainTree (.map later)) :
    ∃ t : VariableSet, s.addAll (overlays.map .map) = ⟨t, [], none⟩ ∧
      t.Mirrors (overlays.foldl mergeEntries es) := by
  induction overlays generalizing s es with
  | nil => exact ⟨s, rfl, h⟩
  | cons later rest ih =>
    have hlater := hplain later List.mem_cons_self
    have hadd := add_of_isPlainTree h.opened hlater
    have hseparate := hlater.separate_root
    have hmirrors := h.storeAll (fun l => leaf_path_ne_nil) hseparate.dotFree hseparate.settled
    rw [← mergeEntries_eq] at hmirrors
    obtain ⟨t, hrest, ht⟩ := ih hmirrors fun m hm => hplain m (List.mem_cons_of_mem _ hm)
    exact ⟨t, by simp [VariableSet.addAll, hadd, hrest], ht⟩

end Mirrors

/-- Overlays are a deep merge in which the later one wins. Where keys are texts without dots and
leaves stand for themselves, adding overlays to a fresh set succeeds, and its tree is what merging
them one by one into an empty mapping gives, but for the order of entries. -/
theorem addAll_merge (mode typePrefix : String) (strict : Bool)
    (overlays : List (List (Value × Value)))
    (hplain : ∀ later ∈ overlays, IsPlainTree (.map later)) :
    ∃ s : VariableSet,
      (empty mode typePrefix strict).addAll (overlays.map .map) = ⟨s, [], none⟩ ∧
      ∃ entries, s.tree = .ok (.map entries) ∧
        Alike (.map entries) (.map (overlays.foldl mergeEntries [])) := by
  obtain ⟨s, hadd, hmirrors⟩ := (Mirrors.empty mode typePrefix strict).addAll hplain
  exact ⟨s, hadd, hmirrors.tree⟩

/-- Overlays in which a leaf replaces a group, and groups without leaves stand beside a deferred value
under an empty key. -/
def layered : List (List (Value × Value)) :=
  [[(.text "a", .map [(.text "x", .int 1)]), (.text "b", .list [.int 2])],
    [(.text "a", .text "c")],
    [(.text "b", .map [(.text "e", .map [])]),
      (.text "d", .group [(.text "", .deferred (.alpha (.ref "a") (.int 1))),
        (.text "f", .map [])])]]

theorem layered_isPlainTree : ∀ later ∈ layered, IsPlainTree (.map later) := by
  have hnone : IsPlainTree (.map []) := .map ⟨by simp, by simp⟩ (by simp)
  have hbase : IsPlainTree (.map [(.text "x", .int 1)]) :=
    .map ⟨by simp, by simp⟩ (by simpa using .leaf trivial)
  have hgroup : IsPlainTree (.map [(.text "e", .map [])]) :=
    .map ⟨by simp, by simp⟩ (by simpa using hnone)
  have hdeep : IsPlainTree (.group [(.text "", .deferred (.alpha (.ref "a") (.int 1))),
      (.text "f", .map [])]) :=
    .group ⟨by simp, by simp⟩ (by simpa using ⟨.leaf trivial, hnone⟩)
  simp only [layered, List.forall_mem_cons, List.not_mem_nil, false_implies, implies_true, and_true]
  exact ⟨.map ⟨by simp, by simp⟩ (by simpa using ⟨hbase, .leaf trivial⟩),
    .map ⟨by simp, by simp⟩ (by simpa using .leaf trivial),
    .map ⟨by simp, by simp⟩ (by simpa using ⟨hgroup, hdeep⟩)⟩

/-- The leaf that replaces a group comes last in the tree and keeps its place in the merge. -/
theorem addAll_merge_layered :
    (∀ later ∈ layered, IsPlainTree (.map later)) ∧
    layered.foldl mergeEntries [] =
      [(.text "a", .text "c"), (.text "b", .list [.int 2]),
        (.text "d", .map [(.text "", .deferred (.alpha (.ref "a") (.int 1)))])] ∧
    ∃ s : VariableSet,
      (empty "light" "colors" true).addAll (layered.map .map) = ⟨s, [], none⟩ ∧
      s.names = ["colors-b", "colors-a", "colors-d."] ∧
      ∃ entries, s.tree = .ok (.map entries) ∧
        Alike (.map entries) (.map (layered.foldl mergeEntries [])) := by
  obtain ⟨s, hadd, htree⟩ := addAll_merge "light" "colors" true layered layered_isPlainTree
  have hset : s = ((empty "light" "colors" true).addAll (layered.map .map)).set := by rw [hadd]
  exact ⟨layered_isPlainTree, by rfl, s, hadd, by rw [hset]; rfl, htree⟩

end VariableSet

end DesignTokens
