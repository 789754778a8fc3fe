import DesignTokens.Proofs.Interchange
import DesignTokens.Proofs.Renderings
import Mathlib.Algebra.BigOperators.Group.List.Lemmas
import Mathlib.Algebra.GroupWithZero.Nat
import Mathlib.Algebra.Order.BigOperators.Group.List
import Mathlib.Data.List.Dedup

/-! What camel case costs. Collecting entries keeps all of them only if their keys differ: of two that
become one key a value is dropped, with all leaves below it. So the tree with keys in camel case has
as many leaves as there are variables exactly if different keys of one group stay different. -/
namespace DesignTokens

namespace Value

mutual

/-- The number of leaves of a tree, which are its values that are no mappings. -/
def leafCount : Value → Nat
  | .map es => leafCounts es
  | _ => 1

/-- The number of leaves of entries. -/
def leafCounts : List (Value × Value) → Nat
  | [] => 0
  | (_, v) :: rest => leafCount v + leafCounts rest

end

theorem leafCount_of_ne_map {v : Value} (h : ∀ es, v ≠ .map es) : v.leafCount = 1 := by
  cases v with
  | map es => exact absurd rfl (h es)
  | _ => rw [leafCount]; simp

theorem leafCounts_eq_sum (es : List (Value × Value)) :
    leafCounts es = (es.map fun e => e.2.leafCount).sum := by
  induction es with
  | nil => rw [leafCounts]; rfl
  | cons e rest ih => rw [leafCounts, ih, List.map_cons, List.sum_cons]

section Collecting

theorem leafCounts_append (es : List (Value × Value)) (e : Value × Value) :
    leafCounts (es ++ [e]) = leafCounts es + e.2.leafCount := by
  simp [leafCounts_eq_sum]

theorem leafCount_le_insertEntry (key v : Value) (es : List (Value × Value)) :
    v.leafCount ≤ leafCounts (insertEntry key v es) := by
  induction es with
  | nil => simp [insertEntry, leafCounts]
  | cons f rest ih =>
    rw [insertEntry]
    split <;> rw [leafCounts] <;> omega

theorem leafCounts_insertEntry_le (key v : Value) (es : List (Value × Value)) :
    leafCounts (insertEntry key v es) ≤ leafCounts es + v.leafCount := by
  induction es with
  | nil => simp [insertEntry, leafCounts]
  | cons f rest ih =>
    rw [insertEntry, leafCounts]
    split <;> rw [leafCounts] <;> omega

variable {es : List (Value × Value)}

/-- A value under a key that is there takes the place of another, whose leaves are lost. -/
theorem leafCounts_insertEntry_lt {k : String} (v : Value) (hk : .text k ∈ es.map (·.1))
    (hpos : ∀ e ∈ es, 0 < e.2.leafCount) :
    leafCounts (insertEntry (.text k) v es) < leafCounts es + v.leafCount := by
  induction es with
  | nil => simp at hk
  | cons f rest ih =>
    have hf : 0 < f.2.leafCount := hpos f List.mem_cons_self
    rw [insertEntry, leafCounts]
    split
    · rw [leafCounts]
      omega
    · next hne =>
      have hrest : .text k ∈ rest.map (·.1) := by
        rcases List.mem_cons.mp hk with he | hrest
        · exact absurd he.symm (by simpa using hne)
        · exact hrest
      have hlt := ih hrest fun e he => hpos e (List.mem_cons_of_mem f he)
      rw [leafCounts]
      omega

theorem leafCounts_ofEntries_pos (hne : es ≠ []) (hpos : ∀ e ∈ es, 0 < e.2.leafCount) :
    0 < leafCounts (ofEntries es) := by
  cases es using List.reverseRecOn with
  | nil => exact absurd rfl hne
  | append_singleton es e =>
    have hlast : 0 < e.2.leafCount := hpos e (by simp)
    rw [ofEntries_append]
    exact hlast.trans_le (leafCount_le_insertEntry e.1 e.2 (ofEntries es))

theorem leafCounts_ofEntries_le (es : List (Value × Value)) :
    leafCounts (ofEntries es) ≤ leafCounts es := by
  induction es using List.reverseRecOn with
  | nil => simp [ofEntries]
  | append_singleton es e ih =>
    have hinsert := leafCounts_insertEntry_le e.1 e.2 (ofEntries es)
    rw [ofEntries_append, leafCounts_append]
    omega

/-- Where two of the keys are one, leaves are lost. -/
theorem leafCounts_ofEntries_lt (htext : ∀ e ∈ es, ∃ k, e.1 = .text k)
    (hpos : ∀ e ∈ es, 0 < e.2.leafCount) (hnot : ¬ (es.map (·.1)).Nodup) :
    leafCounts (ofEntries es) < leafCounts es := by
  induction es using List.reverseRecOn with
  | nil => simp at hnot
  | append_singleton es e ih =>
    obtain ⟨l, hl⟩ := htext e (by simp)
    have htext' : ∀ f ∈ es, ∃ k, f.1 = .text k := fun f hf => htext f (List.mem_append_left _ hf)
    have hpos' : ∀ f ∈ es, 0 < f.2.leafCount := fun f hf => hpos f (List.mem_append_left _ hf)
    rw [ofEntries_append, hl, leafCounts_append]
    by_cases hl' : .text l ∈ es.map (·.1)
    · have hall := forall_mem_ofEntries (K := fun _ => True) (V := fun v => 0 < v.leafCount)
        fun f hf => ⟨trivial, hpos' f hf⟩
      have hrest := leafCounts_ofEntries_le es
      have hlost := leafCounts_insertEntry_lt e.2 ((mem_keys_ofEntries htext').mpr hl')
        fun f hf => (hall f hf).2
      omega
    · have hnot' : ¬ (es.map (·.1)).Nodup := by
        intro hnodup
        refine hnot ?_
        rw [List.map_append]
        exact hnodup.append (List.nodup_singleton _) (by simpa [hl] using hl')
      have hrest := ih htext' hpos' hnot'
      have hinsert := leafCounts_insertEntry_le (.text l) e.2 (ofEntries es)
      omega

end Collecting

end Value

/-- The first segment of a leaf's path. -/
def Leaf.head (l : Leaf) : String := l.1.headD ""

section Heads

variable {ls : List Leaf} (hpath : ∀ l ∈ ls, l.1 ≠ [])
include hpath

theorem length_beneath (k : String) : (beneath k ls).length = (ls.map Leaf.head).count k := by
  induction ls with
  | nil => rfl
  | cons leaf rest ih =>
    have hrest := ih fun l hl => hpath l (List.mem_cons_of_mem leaf hl)
    obtain ⟨path, v⟩ := leaf
    cases path with
    | nil => exact absurd rfl (hpath ([], v) List.mem_cons_self)
    | cons l tail =>
      rw [List.map_cons, List.count_cons, ← hrest]
      by_cases hl : l = k <;> simp [beneath, Leaf.head, hl]

/-- Each leaf stands below one first segment. -/
theorem sum_beneath : ((heads ls).map fun k => (beneath k ls).length).sum = ls.length := by
  have hmem : ∀ k, k ∈ heads ls ↔ k ∈ (ls.map Leaf.head).dedup := by
    intro k
    rw [mem_heads, List.mem_dedup, ← List.count_pos_iff, ← length_beneath hpath,
      List.length_pos_iff]
  have hperm := (List.perm_ext_iff_of_nodup (heads_nodup ls) (List.nodup_dedup _)).mpr hmem
  calc ((heads ls).map fun k => (beneath k ls).length).sum
      = ((heads ls).map fun k => (ls.map Leaf.head).count k).sum := by
        simp only [length_beneath hpath]
    _ = ((ls.map Leaf.head).dedup.map fun k => (ls.map Leaf.head).count k).sum :=
        (hperm.map _).sum_eq
    _ = ls.length := by rw [List.sum_map_count_dedup_eq_length, List.length_map]

end Heads

theorem camelApart_iff {paths : Set (List String)} :
    CamelApart paths ↔
      (∀ k l, (pathsBelow k paths).Nonempty → (pathsBelow l paths).Nonempty →
        toCamel k = toCamel l → k = l) ∧ ∀ k, CamelApart (pathsBelow k paths) := by
  constructor
  · intro h
    refine ⟨?_, h.below⟩
    rintro k l ⟨rest, hk⟩ ⟨rest', hl⟩
    exact h [] k l rest rest' hk hl
  · rintro ⟨hheads, hbelow⟩ start k l rest rest' hk hl
    cases start with
    | nil => exact hheads k l ⟨rest, hk⟩ ⟨rest', hl⟩
    | cons first start => exact hbelow first start k l rest rest' hk hl

theorem leafCount_camelizeKeys_of_ne_map {v : Value} (h : ∀ es, v ≠ .map es) :
    (camelizeKeys v).leafCount = 1 := by
  refine Value.leafCount_of_ne_map fun es he => ?_
  cases v with
  | map es => exact h es rfl
  | list xs =>
    rw [camelizeKeys] at he
    cases he
  | _ =>
    rw [camelizeKeys] at he
    · cases he
    · simp
    · simp

theorem text_of_mem_camelizeEntries {es : List (Value × Value)} {e : Value × Value}
    (h : e ∈ camelizeEntries es) : ∃ k, e.1 = .text k := by
  rw [camelizeEntries_eq_map] at h
  obtain ⟨f, -, rfl⟩ := List.mem_map.mp h
  exact ⟨_, rfl⟩

theorem pos_of_mem_camelizeEntries {es : List (Value × Value)}
    (hpos : ∀ e ∈ es, 0 < (camelizeKeys e.2).leafCount) :
    ∀ e ∈ camelizeEntries es, 0 < e.2.leafCount := by
  rw [camelizeEntries_eq_map]
  exact List.forall_mem_map.mpr hpos

theorem leafCounts_camelizeEntries (es : List (Value × Value)) :
    Value.leafCounts (camelizeEntries es) =
      (es.map fun e => (camelizeKeys e.2).leafCount).sum := by
  simp [Value.leafCounts_eq_sum, camelizeEntries_eq_map, Function.comp_def]

section Groups

/-! An arranged group, entry by entry. -/

variable {ls : List Leaf} {es : List (Value × Value)}
  (hkeys : es.map (·.1) = (heads ls).map .text)
include hkeys

theorem forall_entries {P : String → Value → Prop}
    (h : ∀ k ∈ heads ls, ∀ v, (.text k, v) ∈ es → P k v) : ∀ e ∈ es, P e.1.plain e.2 := by
  intro e he
  obtain ⟨key, v⟩ := e
  obtain ⟨k, hk, rfl⟩ := exists_head_of_mem hkeys he
  simpa using h k hk v he

/-- The leaves below the keys are all leaves. -/
theorem sum_beneath_keys (hpath : ∀ l ∈ ls, l.1 ≠ []) :
    (es.map fun e => (beneath e.1.plain ls).length).sum = ls.length := by
  have hmap : (es.map fun e => (beneath e.1.plain ls).length) =
      (es.map (·.1)).map fun key => (beneath key.plain ls).length := by
    rw [List.map_map]
    rfl
  rw [hmap, hkeys, List.map_map]
  simpa [Function.comp_def] using sum_beneath hpath

theorem keys_of_heads : ∀ key ∈ es.map (·.1),
    ∃ k, key = .text k ∧ (pathsBelow k {path | ∃ v, (path, v) ∈ ls}).Nonempty := by
  intro key hkey
  obtain ⟨e, he, rfl⟩ := List.mem_map.mp hkey
  obtain ⟨k, hk, htext⟩ := exists_head_of_mem hkeys he
  exact ⟨k, htext, nonempty_pathsBelow.mpr (mem_heads.mp hk)⟩

theorem eq_of_toCamel_eq (hnodup : ((camelizeEntries es).map (·.1)).Nodup) {k l : String}
    (hk : k ∈ heads ls) (hl : l ∈ heads ls) (he : toCamel k = toCamel l) : k = l := by
  have hmap : (camelizeEntries es).map (·.1) = (heads ls).map fun k => .text (toCamel k) := by
    rw [keys_camelizeEntries, hkeys, List.map_map]
    simp [Function.comp_def]
  rw [hmap] at hnodup
  exact List.inj_on_of_nodup_map hnodup hk hl (by rw [he])

/-- Where the keys of a group stay apart and siblings do not, those are below a key. -/
theorem exists_not_camelApart (hnodup : ((camelizeEntries es).map (·.1)).Nodup)
    (hnot : ¬ CamelApart {path | ∃ v, (path, v) ∈ ls}) :
    ∃ k ∈ heads ls, ¬ CamelApart {path | ∃ v, (path, v) ∈ beneath k ls} := by
  by_contra hall
  refine hnot (camelApart_iff.mpr ⟨fun k l hk hl he => ?_, fun k => ?_⟩)
  · have hhead : ∀ {k}, (pathsBelow k {path | ∃ v, (path, v) ∈ ls}).Nonempty → k ∈ heads ls :=
      fun hne => mem_heads.mpr (nonempty_pathsBelow.mp hne)
    exact eq_of_toCamel_eq hkeys hnodup (hhead hk) (hhead hl) he
  · rw [pathsBelow_leaves]
    intro start i j rest rest' hi hj he
    by_contra hij
    obtain ⟨v, hv⟩ := hi
    have hhead : k ∈ heads ls := mem_heads.mpr (List.ne_nil_of_mem hv)
    exact hall ⟨k, hhead, fun h => hij (h start i j rest rest' ⟨v, hv⟩ hj he)⟩

end Groups

section Arrangements

variable {ls : List Leaf} {x : Value}

theorem ne_map_of_mem_beneath (hmap : ∀ l ∈ ls, ∀ es, l.2 ≠ .map es) (k : String) :
    ∀ l ∈ beneath k ls, ∀ es, l.2 ≠ .map es :=
  fun l hl => hmap (k :: l.1, l.2) (mem_beneath.mp hl)

theorem Arranged.leafCount_eq (h : Arranged ls x) (hmap : ∀ l ∈ ls, ∀ es, l.2 ≠ .map es) :
    x.leafCount = ls.length := by
  induction h with
  | leaf v => exact Value.leafCount_of_ne_map (hmap _ (List.mem_singleton_self _))
  | @group ls es hpath hkeys hinner ih =>
    have hbelow : ∀ e ∈ es, e.2.leafCount = (beneath e.1.plain ls).length :=
      forall_entries (P := fun k v => v.leafCount = (beneath k ls).length) hkeys
        fun k _ v hv => ih k v hv (ne_map_of_mem_beneath hmap k)
    rw [Value.leafCount, Value.leafCounts_eq_sum, List.map_congr_left hbelow,
      sum_beneath_keys hkeys hpath]

/-- Whatever takes the place of leaves has a leaf. -/
theorem Arranged.leafCount_camelizeKeys_pos (h : Arranged ls x)
    (hmap : ∀ l ∈ ls, ∀ es, l.2 ≠ .map es) (hne : ls ≠ []) :
    0 < (camelizeKeys x).leafCount := by
  induction h with
  | leaf v =>
    rw [leafCount_camelizeKeys_of_ne_map (hmap _ (List.mem_singleton_self _))]
    exact Nat.one_pos
  | @group ls es hpath hkeys hinner ih =>
    have hbelow : ∀ e ∈ es, 0 < (camelizeKeys e.2).leafCount :=
      forall_entries (P := fun _ v => 0 < (camelizeKeys v).leafCount) hkeys
        fun k hk v hv => ih k v hv (ne_map_of_mem_beneath hmap k) (mem_heads.mp hk)
    have hnil : es ≠ [] := by
      rintro rfl
      exact hne (List.length_eq_zero_iff.mp (sum_beneath_keys hkeys hpath).symm)
    rw [camelizeKeys, Value.leafCount]
    refine Value.leafCounts_ofEntries_pos ?_ (pos_of_mem_camelizeEntries hbelow)
    simpa [camelizeEntries_eq_map] using hnil

theorem Arranged.leafCount_camelizeKeys_le (h : Arranged ls x)
    (hmap : ∀ l ∈ ls, ∀ es, l.2 ≠ .map es) : (camelizeKeys x).leafCount ≤ ls.length := by
  induction h with
  | leaf v => exact (leafCount_camelizeKeys_of_ne_map (hmap _ (List.mem_singleton_self _))).le
  | @group ls es hpath hkeys hinner ih =>
    have hbelow : ∀ e ∈ es, (camelizeKeys e.2).leafCount ≤ (beneath e.1.plain ls).length :=
      forall_entries (P := fun k v => (camelizeKeys v).leafCount ≤ (beneath k ls).length) hkeys
        fun k _ v hv => ih k v hv (ne_map_of_mem_beneath hmap k)
    rw [camelizeKeys, Value.leafCount]
    calc Value.leafCounts (Value.ofEntries (camelizeEntries es))
        ≤ Value.leafCounts (camelizeEntries es) := Value.leafCounts_ofEntries_le _
      _ = (es.map fun e => (camelizeKeys e.2).leafCount).sum := leafCounts_camelizeEntries es
      _ ≤ (es.map fun e => (beneath e.1.plain ls).length).sum := List.sum_le_sum hbelow
      _ = ls.length := sum_beneath_keys hkeys hpath

theorem Arranged.leafCount_camelizeKeys_eq (h : Arranged ls x)
    (hmap : ∀ l ∈ ls, ∀ es, l.2 ≠ .map es) (hapart : CamelApart {path | ∃ v, (path, v) ∈ ls}) :
    (camelizeKeys x).leafCount = ls.length := by
  induction h with
  | leaf v => exact leafCount_camelizeKeys_of_ne_map (hmap _ (List.mem_singleton_self _))
  | @group ls es hpath hkeys hinner ih =>
    have hbelow : ∀ e ∈ es, (camelizeKeys e.2).leafCount = (beneath e.1.plain ls).length :=
      forall_entries (P := fun k v => (camelizeKeys v).leafCount = (beneath k ls).length) hkeys
        fun k _ v hv => ih k v hv (ne_map_of_mem_beneath hmap k)
          (pathsBelow_leaves k ls ▸ hapart.below k)
    have hkept : Value.ofEntries (camelizeEntries es) = camelizeEntries es :=
      ofEntries_camelizeEntries (keys_of_heads hkeys) (keys_nodup_of_heads hkeys) hapart
    rw [camelizeKeys, hkept, Value.leafCount, leafCounts_camelizeEntries,
      List.map_congr_left hbelow, sum_beneath_keys hkeys hpath]

/-- Where two keys of a group become one, at any depth, a leaf is lost. -/
theorem Arranged.leafCount_camelizeKeys_lt (h : Arranged ls x)
    (hmap : ∀ l ∈ ls, ∀ es, l.2 ≠ .map es) (hnot : ¬ CamelApart {path | ∃ v, (path, v) ∈ ls}) :
    (camelizeKeys x).leafCount < ls.length := by
  induction h with
  | leaf v =>
    refine absurd (fun start k l rest rest' hk hl _ => ?_) hnot
    simp at hk
  | @group ls es hpath hkeys hinner ih =>
    have hmap' := ne_map_of_mem_beneath hmap
    have hbelow : ∀ e ∈ es, (camelizeKeys e.2).leafCount ≤ (beneath e.1.plain ls).length :=
      forall_entries (P := fun k v => (camelizeKeys v).leafCount ≤ (beneath k ls).length) hkeys
        fun k _ v hv => (hinner k v hv).leafCount_camelizeKeys_le (hmap' k)
    have hpos : ∀ e ∈ es, 0 < (camelizeKeys e.2).leafCount :=
      forall_entries (P := fun _ v => 0 < (camelizeKeys v).leafCount) hkeys
        fun k hk v hv => (hinner k v hv).leafCount_camelizeKeys_pos (hmap' k) (mem_heads.mp hk)
    rw [camelizeKeys, Value.leafCount, ← sum_beneath_keys hkeys hpath]
    by_cases hnodup : ((camelizeEntries es).map (·.1)).Nodup
    · obtain ⟨k, hk, hdeep⟩ := exists_not_camelApart hkeys hnodup hnot
      obtain ⟨v, hv⟩ := exists_mem_of_head hkeys hk
      have hlost : (camelizeKeys v).leafCount < (beneath k ls).length := ih k v hv (hmap' k) hdeep
      calc Value.leafCounts (Value.ofEntries (camelizeEntries es))
          ≤ Value.leafCounts (camelizeEntries es) := Value.leafCounts_ofEntries_le _
        _ = (es.map fun e => (camelizeKeys e.2).leafCount).sum := leafCounts_camelizeEntries es
        _ < (es.map fun e => (beneath e.1.plain ls).length).sum :=
          List.sum_lt_sum _ _ hbelow ⟨_, hv, by simpa using hlost⟩
    · calc Value.leafCounts (Value.ofEntries (camelizeEntries es))
          < Value.leafCounts (camelizeEntries es) :=
            Value.leafCounts_ofEntries_lt (fun _ => text_of_mem_camelizeEntries)
              (pos_of_mem_camelizeEntries hpos) hnodup
        _ = (es.map fun e => (camelizeKeys e.2).leafCount).sum := leafCounts_camelizeEntries es
        _ ≤ (es.map fun e => (beneath e.1.plain ls).length).sum := List.sum_le_sum hbelow

/-- Where keys stay apart each leaf stands at its path in camel case. -/
theorem Arranged.at?_camelizeKeys (h : Arranged ls x) {v : Value} {path : List String}
    (hapart : CamelApart {path | ∃ v, (path, v) ∈ ls}) (hmem : (path, v) ∈ ls) :
    (camelizeKeys x).at? (camelPath path) = some (camelizeKeys v) := by
  induction h generalizing path with
  | leaf w =>
    obtain ⟨rfl, rfl⟩ : path = [] ∧ v = w := by simpa using hmem
    simp [camelPath, Value.at?]
  | @group ls es hpath hkeys hinner ih =>
    cases path with
    | nil => exact absurd rfl (hpath _ hmem)
    | cons k rest =>
      have hbelow : (rest, v) ∈ beneath k ls := mem_beneath.mpr hmem
      obtain ⟨y, hy⟩ := exists_mem_of_head hkeys (mem_heads.mpr (List.ne_nil_of_mem hbelow))
      have hnodup := camelizeEntries_nodup (keys_of_heads hkeys) (keys_nodup_of_heads hkeys) hapart
      have hentry : (.text (toCamel k), camelizeKeys y) ∈ camelizeEntries es := by
        rw [camelizeEntries_eq_map]
        exact List.mem_map.mpr ⟨_, hy, by simp⟩
      have hrest := ih k y hy (pathsBelow_leaves k ls ▸ hapart.below k) hbelow
      rw [camelizeKeys, ofEntries_camelizeEntries (keys_of_heads hkeys)
        (keys_nodup_of_heads hkeys) hapart]
      simpa [camelPath, Value.at?, Value.entry?_of_mem hnodup hentry] using hrest

end Arrangements

theorem CamelApart.camelPath_inj {paths : Set (List String)} (h : CamelApart paths)
    {p q : List String} (hp : p ∈ paths) (hq : q ∈ paths) (he : camelPath p = camelPath q) :
    p = q := by
  induction p generalizing q paths with
  | nil =>
    have hnil : camelPath q = [] := he.symm
    exact (List.map_eq_nil_iff.mp hnil).symm
  | cons k rest ih =>
    cases q with
    | nil => cases he
    | cons l rest' =>
      obtain ⟨hkey, hrest⟩ := List.cons.inj he
      obtain rfl := h [] k l rest rest' hp hq hkey
      rw [ih (h.below k) hp hq hrest]

namespace VariableSet

section Rendered

variable [Platform] {s : VariableSet} {tree : Value}

/-- A mapping is rendered as a mapping, wherever it stands. -/
theorem Coherent.ne_map_of_renderTree (h : s.Coherent) (htree : s.renderTree = .ok tree)
    (hmap : ∀ v ∈ s.toList, ∀ es, tree.at? v.path ≠ some (.map es)) :
    ∀ v ∈ s.toList, ∀ es, v.value ≠ .map es := by
  intro v hv es he
  obtain ⟨entries, hentries, harr⟩ := h.tree
  rw [renderTree_eq, computeTree, hentries, ok_bind] at htree
  have hat : (Value.map entries).at? v.path = some (.map es) :=
    he ▸ harr.at?_eq (mem_leaves_of_mem hv)
  obtain ⟨w, hw, htreeAt⟩ := computeNode_at? htree hat
  obtain ⟨es', rfl, -⟩ := computeNode_map_eq_ok.mp hw
  exact hmap v hv es' htreeAt

/-- A rendered tree without mappings at the paths of variables arranges one leaf for each. -/
theorem Coherent.renderTree_arranged (h : s.Coherent) (htree : s.renderTree = .ok tree)
    (hmap : ∀ v ∈ s.toList, ∀ es, tree.at? v.path ≠ some (.map es)) :
    ∃ ls, Arranged ls tree ∧ ls.length = s.size ∧ {path | ∃ v, (path, v) ∈ ls} = s.paths ∧
      ∀ l ∈ ls, ∀ es, l.2 ≠ .map es := by
  obtain ⟨f, harr⟩ := h.computeTree_arranged (h.ne_map_of_renderTree htree hmap)
    (s.renderTree_eq ▸ htree)
  refine ⟨mapLeaves f s.leaves, harr, by simp [mapLeaves, leaves, size], ?_, ?_⟩
  · rw [← s.leaves_paths]
    ext path
    simp only [Set.mem_ofPred_eq, mem_mapLeaves]
    grind
  · intro l hl es he
    obtain ⟨x, hx, -⟩ := mem_mapLeaves.mp hl
    obtain ⟨v, hv, hpath⟩ := List.mem_map.mp hx
    have hat : tree.at? l.1 = some l.2 := harr.at?_eq hl
    rw [he, ← (Prod.mk.inj hpath).1] at hat
    exact hmap v hv es hat

/-- After any run of operations, where a mode's tree can be rendered and has no mapping at the path of
a variable, it has a leaf for each variable. The tree with keys in camel case, which JSON and script
modules hold, never has more, and it has as many exactly if different keys of one group stay different
in camel case. Then different variables have different paths in it and each value stands at its
variable's path. -/
theorem run_camel_leaves (mode typePrefix : String) (strict : Bool) (ops : List Operation)
    (tree : Value) (htree : ((empty mode typePrefix strict).run ops).renderTree = .ok tree)
    (hmap : ∀ v ∈ ((empty mode typePrefix strict).run ops).toList, ∀ es,
      tree.at? v.path ≠ some (.map es)) :
    let s := (empty mode typePrefix strict).run ops
    s.camelJson = (if hasCamelForm tree then jsonText (camelizeKeys tree)
      else .error (.value .unwritableInteger)) ∧ tree.leafCount = s.size ∧
      (camelizeKeys tree).leafCount ≤ s.size ∧
      ((camelizeKeys tree).leafCount = s.size ↔ CamelApart s.paths) ∧
      (CamelApart s.paths → ∀ v ∈ s.toList,
        (∀ w ∈ s.toList, camelPath v.path = camelPath w.path → v = w) ∧
        ∃ x, tree.at? v.path = some x ∧
          (camelizeKeys tree).at? (camelPath v.path) = some (camelizeKeys x)) := by
  intro s
  have hs : s.Coherent := (empty_coherent mode typePrefix strict).run ops
  obtain ⟨ls, harr, hlength, hpaths, hleaves⟩ := hs.renderTree_arranged htree hmap
  have hle : (camelizeKeys tree).leafCount ≤ s.size :=
    hlength ▸ harr.leafCount_camelizeKeys_le hleaves
  refine ⟨?_, hlength ▸ harr.leafCount_eq hleaves, hle, ⟨fun hcount => ?_, fun hapart => ?_⟩, ?_⟩
  · rw [camelJson, htree, ok_bind, camelText]
  · by_contra hnot
    have hlt := harr.leafCount_camelizeKeys_lt hleaves (hpaths ▸ hnot)
    omega
  · rw [← hlength]
    exact harr.leafCount_camelizeKeys_eq hleaves (hpaths ▸ hapart)
  · intro hapart v hv
    refine ⟨fun w hw he => ?_, ?_⟩
    · have hpath : v.path = w.path := hapart.camelPath_inj ⟨v, hv, rfl⟩ ⟨w, hw, rfl⟩ he
      exact hs.eq_of_name_eq hv hw (by rw [hs.name_eq v hv, hs.name_eq w hw, hpath])
    · have hmem : v.path ∈ {path | ∃ x, (path, x) ∈ ls} := hpaths ▸ ⟨v, hv, rfl⟩
      obtain ⟨x, hx⟩ := hmem
      exact ⟨x, harr.at?_eq hx, harr.at?_camelizeKeys (hpaths ▸ hapart) hx⟩

end Rendered

/-- Groups and keys of several words. -/
def spacedGroups : Value :=
  .map [(.text "on-dark", .map [(.text "fg_muted", .text "b"), (.text "fg", .text "c")]),
    (.text "on_light", .map [(.text "fg", .list [.int 1])])]

theorem run_camel_leaves_spaced :
    let s := (empty "default" "sizes" true).run [.add spacedGroups]
    s.renderTree = .ok spacedGroups ∧
      (∀ v ∈ s.toList, ∀ es, spacedGroups.at? v.path ≠ some (.map es)) ∧
      CamelApart s.paths ∧ (camelizeKeys spacedGroups).at? ["onDark", "fgMuted"] = some (.text "b") := by
  intro s
  have htree : s.renderTree = .ok spacedGroups := by rfl
  have hvalues : s.toList.map (fun v => spacedGroups.at? v.path) =
      [some (.text "b"), some (.text "c"), some (.list [.int 1])] := by rfl
  have hmap : ∀ v ∈ s.toList, ∀ es, spacedGroups.at? v.path ≠ some (.map es) := by
    intro v hv es he
    have hmem : some (.map es) ∈ s.toList.map fun v => spacedGroups.at? v.path :=
      List.mem_map.mpr ⟨v, hv, he⟩
    rw [hvalues] at hmem
    simp at hmem
  obtain ⟨-, -, -, hcount, -⟩ :=
    run_camel_leaves "default" "sizes" true [.add spacedGroups] spacedGroups htree hmap
  exact ⟨htree, hmap, hcount.mp (by rfl), by rfl⟩

/-- Groups whose keys become one in camel case. -/
def alikeGroups : Value :=
  .map [(.text "a-b", .map [(.text "x", .int 1)]), (.text "aB", .map [(.text "y", .int 2)])]

/-- Of groups whose keys become one the last remains, also where paths in camel case differ. -/
theorem run_camel_lost :
    let s := (empty "default" "sizes" true).run [.add alikeGroups]
    s.renderTree = .ok alikeGroups ∧
      (∀ v ∈ s.toList, ∀ es, alikeGroups.at? v.path ≠ some (.map es)) ∧
      s.toList.map (fun v => camelPath v.path) = [["aB", "x"], ["aB", "y"]] ∧ s.size = 2 ∧
      (camelizeKeys alikeGroups).leafCount = 1 ∧
      (camelizeKeys alikeGroups).at? ["aB", "x"] = none ∧
      s.camelJson = .ok "\x7b\n  \"aB\": \x7b\n    \"y\": 2\n  \x7d\n\x7d" := by
  intro s
  have hvalues : s.toList.map (fun v => alikeGroups.at? v.path) =
      [some (.int 1), some (.int 2)] := by rfl
  refine ⟨by rfl, fun v hv es he => ?_, by rfl, by rfl, by rfl, by rfl, by rfl⟩
  have hmem : some (.map es) ∈ s.toList.map fun v => alikeGroups.at? v.path :=
    List.mem_map.mpr ⟨v, hv, he⟩
  rw [hvalues] at hmem
  simp at hmem

end VariableSet

end DesignTokens
