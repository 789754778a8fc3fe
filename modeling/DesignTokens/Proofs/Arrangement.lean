import DesignTokens.Proofs.Entries
import DesignTokens.Proofs.Reached
import Mathlib.Data.List.Induction

/-! The tree of a set. A row of leaves with unnested paths has one arrangement as a tree, in which
each leaf stands at its path and nothing else stands anywhere; planting one more leaf turns the
arrangement of a row into that of the longer row. So the tree of every reached set can be built, and
its positions are the paths of the variables and the groups on the way to them. -/
namespace DesignTokens

/-- The value that the keys of a path lead to, mapping by mapping. -/
def Value.at? : Value → List String → Option Value
  | v, [] => some v
  | .map es, k :: rest => (Value.entry? k es).bind (at? · rest)
  | _, _ :: _ => none

/-- A row of keys that leads from a value, through mappings, to a value inside it. -/
inductive Position : Value → List Value → Value → Prop where
  | here (v : Value) : Position v [] v
  | under {k x y : Value} {es : List (Value × Value)} {ks : List Value} (hmem : (k, x) ∈ es)
      (hpos : Position x ks y) : Position (.map es) (k :: ks) y

/-- The leaves whose paths begin with a segment, seen from there. -/
def beneath (k : String) (ls : List Leaf) : List Leaf :=
  ls.filterMap fun
    | ([], _) => none
    | (l :: rest, v) => if l = k then some (rest, v) else none

/-- The first segments of the paths, each where it is first met. -/
def heads (ls : List Leaf) : List String :=
  ls.foldl (fun seen leaf =>
    match leaf.1 with
    | [] => seen
    | k :: _ => if k ∈ seen then seen else seen ++ [k]) []

/-- A value is the arrangement of a row of leaves: it is the only leaf, or it is a mapping under the
first segments of the paths, and under each of them stands the arrangement of what is beneath. -/
inductive Arranged : List Leaf → Value → Prop where
  | leaf (v : Value) : Arranged [([], v)] v
  | group {ls : List Leaf} {es : List (Value × Value)} (hpath : ∀ l ∈ ls, l.1 ≠ [])
      (hkeys : es.map (·.1) = (heads ls).map .text)
      (hinner : ∀ k x, (.text k, x) ∈ es → Arranged (beneath k ls) x) : Arranged ls (.map es)

@[simp] theorem mem_beneath {k : String} {rest : List String} {v : Value} {ls : List Leaf} :
    (rest, v) ∈ beneath k ls ↔ (k :: rest, v) ∈ ls := by
  simp only [beneath, List.mem_filterMap, Prod.exists]
  constructor
  · intro h
    obtain ⟨path, w, hmem, h⟩ := h
    cases path with
    | nil => simp at h
    | cons l tail =>
      obtain ⟨rfl, rfl, rfl⟩ : l = k ∧ tail = rest ∧ w = v := by simpa using h
      exact hmem
  · exact fun h => ⟨k :: rest, v, h, by simp⟩

theorem beneath_append (k l : String) (rest : List String) (v : Value) (ls : List Leaf) :
    beneath k (ls ++ [(l :: rest, v)]) = beneath k ls ++ if l = k then [(rest, v)] else [] := by
  simp only [beneath, List.filterMap_append]
  split <;> simp_all

theorem beneath_cons_cons (k l : String) (rest : List String) (v : Value) (ls : List Leaf) :
    beneath l ((k :: rest, v) :: ls) =
      if k = l then (rest, v) :: beneath l ls else beneath l ls := by
  by_cases h : k = l <;> simp [beneath, h]

theorem heads_append (k : String) (rest : List String) (v : Value) (ls : List Leaf) :
    heads (ls ++ [(k :: rest, v)]) = if k ∈ heads ls then heads ls else heads ls ++ [k] := by
  rw [heads, List.foldl_append]
  rfl

theorem mem_heads {k : String} {ls : List Leaf} : k ∈ heads ls ↔ beneath k ls ≠ [] := by
  induction ls using List.reverseRecOn with
  | nil => simp [heads, beneath]
  | append_singleton ls leaf ih =>
    obtain ⟨path, v⟩ := leaf
    cases path with
    | nil => simpa [heads, beneath] using ih
    | cons l rest =>
      rw [heads_append, beneath_append]
      by_cases hl : l = k
      · subst hl
        split <;> simp_all
      · split <;> simp [ih, Ne.symm hl]

theorem heads_nodup (ls : List Leaf) : (heads ls).Nodup := by
  induction ls using List.reverseRecOn with
  | nil => exact List.nodup_nil
  | append_singleton ls leaf ih =>
    obtain ⟨path, v⟩ := leaf
    cases path with
    | nil => simpa [heads] using ih
    | cons k rest =>
      rw [heads_append]
      split
      · exact ih
      · next h => exact ih.append (List.nodup_singleton k) (by simpa using h)

section Keys

variable {ls : List Leaf} {es : List (Value × Value)}
  (hkeys : es.map (·.1) = (heads ls).map .text)
include hkeys

theorem keys_nodup_of_heads : (es.map (·.1)).Nodup := by
  rw [hkeys]
  exact (heads_nodup ls).map fun a b hab => by simpa using hab

theorem exists_head_of_mem {e : Value × Value} (he : e ∈ es) : ∃ k ∈ heads ls, e.1 = .text k := by
  have hmem : e.1 ∈ (heads ls).map Value.text := hkeys ▸ List.mem_map.mpr ⟨e, he, rfl⟩
  obtain ⟨k, hk, hkey⟩ := List.mem_map.mp hmem
  exact ⟨k, hk, hkey.symm⟩

theorem exists_mem_of_head {k : String} (hk : k ∈ heads ls) : ∃ x, (.text k, x) ∈ es := by
  have hmem : Value.text k ∈ es.map (·.1) := hkeys ▸ List.mem_map.mpr ⟨k, hk, rfl⟩
  obtain ⟨⟨key, x⟩, he, hkey⟩ := List.mem_map.mp hmem
  cases hkey
  exact ⟨x, he⟩

end Keys

namespace Arranged

theorem nil : Arranged [] (.map []) := .group (by simp) rfl (by simp)

/-- Putting an arrangement under a segment adds the leaves that it arranges. -/
theorem insertEntry {ls : List Leaf} {es : List (Value × Value)} {k : String} {rest : List String}
    {v x : Value} (h : Arranged ls (.map es)) (hpath : ∀ l ∈ ls, l.1 ≠ [])
    (hx : Arranged (beneath k ls ++ [(rest, v)]) x) :
    Arranged (ls ++ [(k :: rest, v)]) (.map (Value.insertEntry (.text k) x es)) := by
  cases h with
  | leaf => simp at hpath
  | group _ hkeys hinner =>
    have hnodup := keys_nodup_of_heads hkeys
    have hmem : .text k ∈ es.map (·.1) ↔ k ∈ heads ls := by simp [hkeys]
    refine .group ?_ ?_ fun l y hy => ?_
    · intro l hl
      rcases List.mem_append.mp hl with hl | hl
      · exact hpath l hl
      · simp_all
    · rw [heads_append]
      split
      · next hk => rw [Value.keys_insertEntry_of_mem (hmem.mpr hk), hkeys]
      · next hk =>
        rw [Value.insertEntry_of_not_mem (mt hmem.mp hk), List.map_append, List.map_append, hkeys]
        rfl
    · rw [beneath_append]
      rcases (Value.mem_insertEntry hnodup).mp hy with he | ⟨hes, hne⟩
      · obtain ⟨rfl, rfl⟩ : l = k ∧ y = x := by simpa using he
        simpa using hx
      · have hkl : k ≠ l := fun he => hne (by rw [he])
        simpa [hkl] using hinner l y hes

/-- The value under a segment, where there is one, arranges the leaves beneath. -/
theorem entry?_cases {ls : List Leaf} {es : List (Value × Value)} (h : Arranged ls (.map es))
    (hpath : ∀ l ∈ ls, l.1 ≠ []) (k : String) :
    (Value.entry? k es = none ∧ beneath k ls = []) ∨
      ∃ x, Value.entry? k es = some x ∧ beneath k ls ≠ [] ∧ Arranged (beneath k ls) x := by
  cases h with
  | leaf => simp at hpath
  | group _ hkeys hinner =>
    have hmem : .text k ∈ es.map (·.1) ↔ beneath k ls ≠ [] := by simp [hkeys, mem_heads]
    cases hx : Value.entry? k es with
    | none => exact Or.inl ⟨rfl, by simpa using mt hmem.mpr (Value.entry?_eq_none.mp hx)⟩
    | some x =>
      have hes := Value.mem_of_entry?_eq_some hx
      exact Or.inr ⟨x, rfl, hmem.mp (List.mem_map.mpr ⟨_, hes, rfl⟩), hinner k x hes⟩

/-- An arrangement in which no leaf stands at the root is a mapping. -/
theorem eq_map {ls : List Leaf} {x : Value} (h : Arranged ls x) (hpath : ∀ l ∈ ls, l.1 ≠ []) :
    ∃ es, x = .map es := by
  cases h with
  | leaf => simp at hpath
  | group => exact ⟨_, rfl⟩

/-- Without leaves there are no entries. -/
theorem eq_nil {es : List (Value × Value)} (h : Arranged [] (.map es)) : es = [] := by
  cases h with
  | group _ hkeys _ => simpa [heads] using hkeys

/-- Planting a leaf whose path is apart from all others succeeds, and the tree then arranges it with
them. -/
theorem plant {ls : List Leaf} {es : List (Value × Value)} (v : Variable) {path : List String}
    (h : Arranged ls (.map es)) (hpath : ∀ l ∈ ls, l.1 ≠ []) (hp : path ≠ [])
    (hapart : ∀ l ∈ ls, ¬ l.1 <+: path ∧ ¬ path <+: l.1) :
    ∃ es', VariableSet.plant v path es = .ok es' ∧
      Arranged (ls ++ [(path, v.value)]) (.map es') := by
  induction path generalizing ls es with
  | nil => exact absurd rfl hp
  | cons k rest ih =>
    have hbeneath : ∀ l ∈ beneath k ls, ¬ l.1 <+: rest ∧ ¬ rest <+: l.1 := by
      intro l hl
      obtain ⟨q, x⟩ := l
      simpa using hapart _ (mem_beneath.mp hl)
    cases rest with
    | nil =>
      have hnil : beneath k ls = [] :=
        List.eq_nil_iff_forall_not_mem.mpr fun l hl => (hbeneath l hl).2 List.nil_prefix
      rcases h.entry?_cases hpath k with ⟨hx, -⟩ | ⟨x, -, hne, -⟩
      · refine ⟨Value.insertEntry (.text k) v.value es, by simp [VariableSet.plant, hx],
          h.insertEntry hpath ?_⟩
        rw [hnil]
        exact .leaf v.value
      · exact absurd hnil hne
    | cons l tail =>
      rcases h.entry?_cases hpath k with ⟨hx, hnil⟩ | ⟨x, hx, -, harr⟩
      · obtain ⟨es', hes, harr⟩ := ih Arranged.nil (by simp) (by simp) (by simp)
        refine ⟨Value.insertEntry (.text k) (.map es') es,
          by simp [VariableSet.plant, hx, hes, Except.map], h.insertEntry hpath ?_⟩
        rwa [hnil]
      · have hpath' : ∀ l ∈ beneath k ls, l.1 ≠ [] := fun l hl hn =>
          (hbeneath l hl).1 (hn ▸ List.nil_prefix)
        obtain ⟨inner, rfl⟩ := harr.eq_map hpath'
        obtain ⟨es', hes, harr⟩ := ih harr hpath' (by simp) hbeneath
        exact ⟨Value.insertEntry (.text k) (.map es') es,
          by simp [VariableSet.plant, hx, hes, Except.map], h.insertEntry hpath harr⟩

/-- Walking along the path of a leaf finds its value. -/
theorem at?_eq {ls : List Leaf} {x v : Value} {path : List String} (h : Arranged ls x)
    (hmem : (path, v) ∈ ls) : x.at? path = some v := by
  induction path generalizing ls x with
  | nil =>
    cases h with
    | leaf w => simp_all [Value.at?]
    | group hpath => exact absurd rfl (hpath _ hmem)
  | cons k rest ih =>
    have hpath : ∀ l ∈ ls, l.1 ≠ [] := by
      cases h with
      | leaf => simp at hmem
      | group hpath => exact hpath
    obtain ⟨es, rfl⟩ := h.eq_map hpath
    rcases h.entry?_cases hpath k with ⟨-, hnil⟩ | ⟨y, hy, -, harr⟩
    · simpa [hnil] using mem_beneath.mpr hmem
    · simpa [Value.at?, hy] using ih harr (mem_beneath.mpr hmem)

/-- A position that does not lie inside a leaf is the path of a leaf or of a group on the way to
one. -/
theorem of_position {ls : List Leaf} {x y : Value} {ks : List Value} (h : Arranged ls x)
    (hne : ls ≠ []) (hpos : Position x ks y)
    (hout : ∀ l ∈ ls, l.1.map Value.text <+: ks → l.1.map .text = ks) :
    ∃ path, ks = path.map .text ∧ x.at? path = some y ∧
      ((path, y) ∈ ls ∨ (∃ l ∈ ls, Inside l.1 path) ∧ ∃ es, y = .map es) := by
  induction hpos generalizing ls with
  | here x =>
    refine ⟨[], rfl, rfl, ?_⟩
    cases h with
    | leaf => exact Or.inl List.mem_cons_self
    | group hpath =>
      obtain ⟨l, hl⟩ := List.exists_mem_of_ne_nil ls hne
      exact Or.inr ⟨⟨l, hl, by simpa using hpath l hl⟩, _, rfl⟩
  | @under k x y es ks hmem hpos ih =>
    cases h with
    | leaf => simpa using hout _ List.mem_cons_self
    | group hpath hkeys hinner =>
      obtain ⟨k, hk, rfl⟩ := exists_head_of_mem hkeys hmem
      obtain ⟨path, rfl, hat, hleaf⟩ := ih (hinner k x hmem) (mem_heads.mp hk) (by
        intro l hl hq
        obtain ⟨q, w⟩ := l
        simpa using hout _ (mem_beneath.mp hl) (by simpa using hq))
      have hnodup := keys_nodup_of_heads hkeys
      refine ⟨k :: path, rfl, ?_, ?_⟩
      · simpa [Value.at?, Value.entry?_of_mem hnodup hmem] using hat
      · rcases hleaf with hl | ⟨⟨⟨q, w⟩, hl, hin⟩, hmap⟩
        · exact Or.inl (mem_beneath.mp hl)
        · exact Or.inr ⟨⟨_, mem_beneath.mp hl, by simpa using hin⟩, hmap⟩

end Arranged

namespace VariableSet

/-- The leaves that the variables are. -/
def leaves (s : VariableSet) : List Leaf := s.toList.map fun v => (v.path, v.value)

/-- Variables with paths apart can be planted one after the other. -/
theorem plantAll_arranged (vs : List Variable) {ls : List Leaf} {es : List (Value × Value)}
    (h : Arranged ls (.map es)) (hpath : ∀ l ∈ ls, l.1 ≠ []) (hne : ∀ v ∈ vs, v.path ≠ [])
    (hold : ∀ l ∈ ls, ∀ v ∈ vs, ¬ l.1 <+: v.path ∧ ¬ v.path <+: l.1)
    (hnew : vs.Pairwise fun v w => ¬ v.path <+: w.path ∧ ¬ w.path <+: v.path) :
    ∃ es', vs.foldlM (fun es v => plant v v.path es) es = .ok es' ∧
      Arranged (ls ++ vs.map fun v => (v.path, v.value)) (.map es') := by
  induction vs generalizing ls es with
  | nil => exact ⟨es, rfl, by simpa using h⟩
  | cons v rest ih =>
    obtain ⟨hfirst, hrest⟩ := List.pairwise_cons.mp hnew
    obtain ⟨es₁, hplant, harr⟩ := h.plant v hpath (hne v List.mem_cons_self)
      fun l hl => hold l hl v List.mem_cons_self
    obtain ⟨es', hfold, harr'⟩ := ih harr
      (by
        intro l hl
        rcases List.mem_append.mp hl with hl | hl
        · exact hpath l hl
        · obtain rfl := List.mem_singleton.mp hl
          exact hne v List.mem_cons_self)
      (fun w hw => hne w (List.mem_cons_of_mem _ hw))
      (by
        intro l hl w hw
        rcases List.mem_append.mp hl with hl | hl
        · exact hold l hl w (List.mem_cons_of_mem _ hw)
        · obtain rfl := List.mem_singleton.mp hl
          exact hfirst w hw)
      hrest
    refine ⟨es', ?_, by simpa using harr'⟩
    rw [List.foldlM_cons, hplant]
    exact hfold

/-- Different variables of a coherent set have paths apart. -/
theorem Coherent.paths_apart {s : VariableSet} (h : s.Coherent) :
    s.toList.Pairwise fun v w => ¬ v.path <+: w.path ∧ ¬ w.path <+: v.path := by
  have hnames : s.toList.Pairwise fun v w => v.name ≠ w.name :=
    List.pairwise_map.mp h.names_nodup
  refine hnames.imp_of_mem fun {v w} hv hw hn => ?_
  have hpath : v.path ≠ w.path := fun he => hn (by rw [h.name_eq v hv, h.name_eq w hw, he])
  exact ⟨fun hp => h.not_inside w hw v hv ⟨hp, hpath⟩,
    fun hp => h.not_inside v hv w hw ⟨hp, Ne.symm hpath⟩⟩

/-- The tree of a coherent set can be built and arranges its variables. -/
theorem Coherent.tree {s : VariableSet} (h : s.Coherent) :
    ∃ es, s.tree = .ok (.map es) ∧ Arranged s.leaves (.map es) := by
  obtain ⟨es, hfold, harr⟩ := plantAll_arranged s.toList Arranged.nil (by simp) h.path_ne_nil
    (by simp) h.paths_apart
  exact ⟨es, by rw [VariableSet.tree, treeEntries, hfold]; rfl, by simpa [leaves] using harr⟩

/-- After any run of operations on a fresh set its tree can be built. Walking along the path of a
variable finds its value, and every position of the tree down to the variables' paths is the path of
a variable, with its value, or that of a group on the way to one, and is found by walking. -/
theorem run_tree (mode typePrefix : String) (strict : Bool) (ops : List Operation) :
    let s := (empty mode typePrefix strict).run ops
    ∃ es, s.tree = .ok (.map es) ∧
      (∀ v ∈ s.toList, (Value.map es).at? v.path = some v.value) ∧
      ∀ ks y, ks ≠ [] → Position (.map es) ks y →
        (∀ v ∈ s.toList, v.path.map Value.text <+: ks → v.path.map .text = ks) →
        ∃ path, ks = path.map .text ∧ (Value.map es).at? path = some y ∧
          ((∃ v ∈ s.toList, v.path = path ∧ v.value = y) ∨
            (∃ v ∈ s.toList, Inside v.path path) ∧ ∃ inner, y = .map inner) := by
  intro s
  have hs : s.Coherent := (empty_coherent mode typePrefix strict).run ops
  obtain ⟨es, htree, harr⟩ := hs.tree
  refine ⟨es, htree, fun v hv => harr.at?_eq (List.mem_map.mpr ⟨v, hv, rfl⟩), ?_⟩
  intro ks y hks hpos hout
  have hleaves : s.leaves ≠ [] := by
    intro hnil
    obtain rfl := (hnil ▸ harr).eq_nil
    cases hpos with
    | here => exact hks rfl
    | under hmem => simp at hmem
  obtain ⟨path, rfl, hat, hleaf⟩ := harr.of_position hleaves hpos (by simpa [leaves] using hout)
  refine ⟨path, rfl, hat, ?_⟩
  simpa [leaves] using hleaf

end VariableSet

end DesignTokens
