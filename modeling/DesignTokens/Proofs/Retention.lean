import DesignTokens.Proofs.Rebuilding

/-! Which leaves of an overlay a strict set retains. Strictness tells names apart, and nested paths
have different names, so a leaf can still give way to a later one of its own overlay: that needs two
keys of one group with the same text. All leaves are retained exactly if no two of their paths are
nested. -/
namespace DesignTokens.VariableSet

open Value

theorem run_strict (s : VariableSet) (ops : List Operation) : (s.run ops).strict = s.strict :=
  run_preserves (P := fun t => t.strict = s.strict) (fun _ _ _ ht _ => ht) (fun _ ht => ht) s ops rfl

section Row

/-! Stores under different names. A later one replaces an earlier one only if their paths clash. -/

variable {s : VariableSet} {w : List Leaf}

theorem replaces_iff_clash (hnames : (w.map fun l => s.nameAt l.1).Nodup) {i j : Nat} {l m : Leaf}
    (hij : i < j) (hl : w[i]? = some l) (hm : w[j]? = some m) :
    Replaces s.typePrefix m l ↔ Clash m.1 l.1 := by
  obtain ⟨hi, rfl⟩ := List.getElem?_eq_some_iff.mp hl
  obtain ⟨hj, rfl⟩ := List.getElem?_eq_some_iff.mp hm
  have hne := List.pairwise_iff_getElem.mp hnames i j (by simpa using hi) (by simpa using hj) hij
  simp only [List.getElem_map] at hne
  exact or_iff_right (Ne.symm hne)

/-- After a row of stores under different names, what stands at the path of one of them is what that
one has stored, and it stands there if no later path clashes with it. -/
theorem Coherent.mem_storeAll_at (h : s.Coherent) (hw : ∀ l ∈ w, l.1 ≠ [])
    (hnames : (w.map fun l => s.nameAt l.1).Nodup) {i : Nat} {l : Leaf} (hl : w[i]? = some l)
    {v : Variable} (hv : v.path = l.1) :
    v ∈ (s.storeAll w).toList ↔ v = ⟨s.nameAt l.1, l.2, l.1, s.mode⟩ ∧
      ∀ j m, i < j → w[j]? = some m → ¬ Clash m.1 l.1 := by
  have hlater : (∀ j m, i < j → w[j]? = some m → ¬ Clash m.1 l.1) ↔ Survives s.typePrefix w i l := by
    refine ⟨fun h => ⟨hl, fun j m hj hm => ?_⟩, fun h j m hj hm => ?_⟩
    · exact mt (replaces_iff_clash hnames hj hl hm).mp (h j m hj hm)
    · exact mt (replaces_iff_clash hnames hj hl hm).mpr (h.2 j m hj hm)
  rw [h.mem_storeAll_iff hw, hlater]
  constructor
  · rintro (⟨-, hkept⟩ | ⟨j, m, hm, rfl⟩)
    · -- A variable that was there at this path has the name of the new one.
      exact absurd (Or.inl (by rw [hv])) (hkept l (List.mem_of_getElem? hl))
    · have hname : (w.map fun l => s.nameAt l.1)[j]? = (w.map fun l => s.nameAt l.1)[i]? := by
        rw [List.getElem?_map, List.getElem?_map, hm.1, hl]
        exact congrArg (some <| s.nameAt ·) hv
      obtain ⟨hj, -⟩ := List.getElem?_eq_some_iff.mp hm.1
      obtain rfl : j = i := (List.getElem?_inj (by simpa using hj) hnames).mp hname
      obtain rfl : m = l := Option.some.inj (hm.1.symm.trans hl)
      exact ⟨rfl, hm⟩
  · rintro ⟨rfl, hsurvives⟩
    exact Or.inr ⟨i, l, hsurvives, rfl⟩

/-- All stored paths are there in the end exactly if no two of them clash. -/
theorem Coherent.storeAll_retains (h : s.Coherent) (hw : ∀ l ∈ w, l.1 ≠ [])
    (hnames : (w.map fun l => s.nameAt l.1).Nodup) :
    (∀ path ∈ w.map (·.1), ∃ v ∈ (s.storeAll w).toList, v.path = path) ↔
      (w.map (·.1)).Pairwise fun p q => ¬ Clash p q := by
  rw [List.forall_mem_map, List.pairwise_map, List.pairwise_iff_getElem]
  constructor
  · intro hall i j hi hj hij hclash
    obtain ⟨v, hv, hpath⟩ := hall w[i] (List.getElem_mem hi)
    have hlater := ((h.mem_storeAll_at hw hnames (List.getElem?_eq_getElem hi) hpath).mp hv).2
    exact hlater j w[j] hij (List.getElem?_eq_getElem hj) (clash_symm hclash)
  · intro hpairs l hl
    obtain ⟨i, hi, rfl⟩ := List.getElem_of_mem hl
    refine ⟨⟨s.nameAt w[i].1, w[i].2, w[i].1, s.mode⟩, ?_, rfl⟩
    refine (h.mem_storeAll_at hw hnames (List.getElem?_eq_getElem hi) rfl).mpr
      ⟨rfl, fun j m hij hm hclash => ?_⟩
    obtain ⟨hj, rfl⟩ := List.getElem?_eq_some_iff.mp hm
    exact hpairs i j hi hj hij (clash_symm hclash)

end Row

/-- What a strict set retains of an overlay that it takes. No two leaves have one name, so none is
overwritten by another. At the path of each leaf stands what it resolved to when its turn came, or
nothing: nothing exactly if a later leaf has a path that is nested with its own. So all leaves are
there exactly if no two of their paths are nested, as where the keys of each group differ as texts. -/
theorem add_retains (mode typePrefix : String) (ops : List Operation) (es : List (Value × Value))
    (hopen : ((empty mode typePrefix true).run ops).finalized = false)
    (hok : (((empty mode typePrefix true).run ops).add (.map es)).failure = none) :
    let s := (empty mode typePrefix true).run ops
    let t := (s.add (.map es)).set
    ((leavesOf [] es).map fun l => fullName typePrefix l.1).Nodup ∧
    (∃ w, Inserted s (leavesOf [] es) w ∧ ∀ (i : Nat) (l : Leaf), w[i]? = some l → ∀ v, v.path = l.1 →
      (v ∈ t.toList ↔ v = ⟨fullName typePrefix l.1, l.2, l.1, mode⟩ ∧
        ∀ (j : Nat) (m : Leaf), i < j → w[j]? = some m → ¬ Clash m.1 l.1)) ∧
    ((∀ l ∈ leavesOf [] es, ∃ v ∈ t.toList, v.path = l.1) ↔
      (leavesOf [] es).Pairwise fun l m => ¬ Clash l.1 m.1) ∧
    ((Value.map es).EveryGroup HasDistinctTexts →
      (leavesOf [] es).Pairwise fun l m => ¬ Clash l.1 m.1) := by
  intro s t
  have hs : s.Coherent := (empty_coherent mode typePrefix true).run ops
  have hstrict : s.strict = true := run_strict (empty mode typePrefix true) ops
  obtain ⟨hmode, htype⟩ : s.mode = mode ∧ s.typePrefix = typePrefix :=
    run_mode_typePrefix (empty mode typePrefix true) ops
  have hname : ∀ path, s.nameAt path = fullName typePrefix path := fun path => by rw [nameAt, htype]
  obtain ⟨w, hw, hset⟩ := add_inserted hok
  have ht : t = s.storeAll w := hset
  have hnames : ((leavesOf [] es).map fun l => s.nameAt l.1).Nodup :=
    names_nodup_of_add hopen hstrict hok
  have hpaths : w.map (·.1) = (leavesOf [] es).map (·.1) := hw.paths
  have hwnames : (w.map fun l => s.nameAt l.1).Nodup := by
    have hmap := congrArg (List.map s.nameAt) hpaths
    rw [List.map_map, List.map_map] at hmap
    exact hmap ▸ hnames
  have hne : ∀ l ∈ w, l.1 ≠ [] := by
    intro l hl
    obtain ⟨leaf, hleaf, he⟩ := List.mem_map.mp (hpaths ▸ List.mem_map.mpr ⟨l, hl, rfl⟩)
    exact he ▸ leaf_path_ne_nil hleaf
  simp only [hname] at hnames
  refine ⟨hnames, ⟨w, hw, fun i l hl v hv => ?_⟩, ?_, fun hkeys => ?_⟩
  · rw [ht, hs.mem_storeAll_at hne hwnames hl hv, hname, hmode]
  · have hall := hs.storeAll_retains hne hwnames
    rw [hpaths, List.forall_mem_map, List.pairwise_map, ← ht] at hall
    exact hall
  · have hapart := hkeys.leaves_apart []
    rw [leavesAt] at hapart
    exact hapart.imp fun h => (apart_iff.mp h).1

/-- An overlay that turns a leaf into a group and a group into a leaf, with a number among its keys. -/
def reshapingOverlay : List (Value × Value) :=
  [(.text "a", .map [(.text "x", .ref "b.c")]), (.text "b", .int 3),
    (.int 7, .map [(.text "y.z", .ref "a.x")])]

/-- The overlay that it meets. -/
def reshapedColors : List Operation :=
  [.add (.map [(.text "a", .int 1), (.text "b", .map [(.text "c", .int 2)])])]

/-- What the earlier overlay has left makes way, and all leaves of the later one are there. -/
theorem add_retains_reshaping :
    let s := (empty "light" "colors" true).run reshapedColors
    s.finalized = false ∧ (s.add (.map reshapingOverlay)).failure = none ∧
      s.names = ["colors-a", "colors-b.c"] ∧
      (s.add (.map reshapingOverlay)).set.names = ["colors-a.x", "colors-b", "colors-7.y.z"] ∧
      ∀ l ∈ leavesOf [] reshapingOverlay,
        ∃ v ∈ (s.add (.map reshapingOverlay)).set.toList, v.path = l.1 := by
  dsimp only
  have hopen : ((empty "light" "colors" true).run reshapedColors).finalized = false := by
    decide +kernel
  have hok : (((empty "light" "colors" true).run reshapedColors).add
      (.map reshapingOverlay)).failure = none := by rfl
  have hleaves : leavesOf [] reshapingOverlay =
      [(["a", "x"], .ref "b.c"), (["b"], .int 3), (["7", "y.z"], .ref "a.x")] := by rfl
  have hapart : (leavesOf [] reshapingOverlay).Pairwise fun l m => ¬ Clash l.1 m.1 := by
    rw [hleaves]
    decide
  obtain ⟨-, -, hall, -⟩ := add_retains "light" "colors" reshapedColors reshapingOverlay hopen hok
  exact ⟨hopen, hok, by decide +kernel, by decide +kernel, hall.mpr hapart⟩

/-- A number and the text of this number as keys of one group. -/
def twinKeys : List (Value × Value) :=
  [(.int 1, .text "#000"), (.text "1", .map [(.text "b", .text "#fff")])]

/-- A strict set takes the overlay without a word, and its first leaf is gone. -/
theorem add_loses_twin :
    let s := empty "light" "colors" true
    s.finalized = false ∧ (s.add (.map twinKeys)).failure = none ∧
      (s.add (.map twinKeys)).warnings = [] ∧
      (["1"], .text "#000") ∈ leavesOf [] twinKeys ∧
      ∀ v ∈ (s.add (.map twinKeys)).set.toList, v.path ≠ ["1"] := by
  intro s
  have hleaves : leavesOf [] twinKeys =
      [(["1"], .text "#000"), (["1", "b"], .text "#fff")] := by rfl
  have hleft : (s.add (.map twinKeys)).set.toList.map (·.path) = [["1", "b"]] := by rfl
  refine ⟨rfl, by rfl, by rfl, by simp [hleaves], fun v hv he => ?_⟩
  have hpath : v.path ∈ [["1", "b"]] := hleft ▸ List.mem_map.mpr ⟨v, hv, rfl⟩
  simp [he] at hpath

end DesignTokens.VariableSet
