import DesignTokens.Proofs.Reached
import Mathlib.Data.List.Induction

/-! Which insertions of a run last. Seen from outside, a run of additions is a row of insertions,
and what is left of it can be told from the row alone: an insertion lasts if no later one has its
name or a path nested with its own, and the names stand in the order in which they began to be
present without interruption. -/
namespace DesignTokens.VariableSet

/-- The leaves of a tree. -/
def treeLeaves : Value → List Leaf
  | .map es => leavesOf [] es
  | _ => []

/-- The set after a row of stores. -/
def storeAll (s : VariableSet) (w : List Leaf) : VariableSet :=
  w.foldl (fun s l => s.store l.1 l.2) s

/-- The insertions that a row of leaves gives rise to: each leaf is stored with the value that it
resolves to when its turn comes. -/
inductive Inserted : VariableSet → List Leaf → List Leaf → Prop where
  | nil (s : VariableSet) : Inserted s [] []
  | cons {s : VariableSet} {leaf : Leaf} {value : Value} {leaves w : List Leaf}
      (hvalue : s.resolve leaf.2 (s.nameAt leaf.1) = .ok value)
      (hrest : Inserted (s.store leaf.1 value) leaves w) :
      Inserted s (leaf :: leaves) ((leaf.1, value) :: w)

/-- A later insertion replaces an earlier one of its name, and one whose path is nested with its
own. -/
def Replaces (typePrefix : String) (later earlier : Leaf) : Prop :=
  fullName typePrefix later.1 = fullName typePrefix earlier.1 ∨ Clash later.1 earlier.1

/-- An insertion stands at a place of a row, and no later one replaces it. -/
def Survives (typePrefix : String) (w : List Leaf) (i : Nat) (l : Leaf) : Prop :=
  w[i]? = some l ∧ ∀ j m, i < j → w[j]? = some m → ¬ Replaces typePrefix m l

/-- After a row of insertions one with the name is left. -/
def Present (typePrefix : String) (w : List Leaf) (name : String) : Prop :=
  ∃ i l, Survives typePrefix w i l ∧ fullName typePrefix l.1 = name

/-- The insertion at a place made the name present, and it has been present from then on. -/
def PresentSince (typePrefix : String) (w : List Leaf) (name : String) (i : Nat) : Prop :=
  (∃ l, w[i]? = some l ∧ fullName typePrefix l.1 = name) ∧
    ¬ Present typePrefix (w.take i) name ∧
    ∀ n, i < n → n ≤ w.length → Present typePrefix (w.take n) name

theorem survives_append {typePrefix : String} {w : List Leaf} {m l : Leaf} {i : Nat} :
    Survives typePrefix (w ++ [m]) i l ↔
      (i = w.length ∧ l = m) ∨ (Survives typePrefix w i l ∧ ¬ Replaces typePrefix m l) := by
  constructor
  · intro h
    obtain ⟨hi, hlater⟩ := h
    rcases Nat.lt_trichotomy i w.length with hlt | rfl | hgt
    · rw [List.getElem?_append_left hlt] at hi
      refine Or.inr ⟨⟨hi, fun j m' hj hm => hlater j m' hj ?_⟩, hlater w.length m hlt (by simp)⟩
      rw [List.getElem?_append_left (List.getElem?_eq_some_iff.mp hm).1, hm]
    · exact Or.inl ⟨rfl, by simpa using hi.symm⟩
    · have := (List.getElem?_eq_some_iff.mp hi).1
      simp only [List.length_append, List.length_singleton] at this
      omega
  · intro h
    rcases h with ⟨rfl, rfl⟩ | ⟨⟨hi, hlater⟩, hm⟩
    · refine ⟨by simp, fun j m' hj hm => ?_⟩
      have := (List.getElem?_eq_some_iff.mp hm).1
      simp only [List.length_append, List.length_singleton] at this
      omega
    · have hlt := (List.getElem?_eq_some_iff.mp hi).1
      refine ⟨by rw [List.getElem?_append_left hlt, hi], fun j m' hj hm' => ?_⟩
      rcases Nat.lt_or_ge j w.length with hjlt | hjge
      · exact hlater j m' hj (by rwa [List.getElem?_append_left hjlt] at hm')
      · have hlen := (List.getElem?_eq_some_iff.mp hm').1
        simp only [List.length_append, List.length_singleton] at hlen
        obtain rfl : j = w.length := by omega
        obtain rfl : m = m' := by simpa using hm'
        exact hm

theorem PresentSince.lt_length {typePrefix : String} {w : List Leaf} {name : String} {i : Nat}
    (h : PresentSince typePrefix w name i) : i < w.length := by
  obtain ⟨⟨l, hl, -⟩, -⟩ := h
  exact (List.getElem?_eq_some_iff.mp hl).1

/-- A name that stays present has been so since the same insertion. -/
theorem PresentSince.append {typePrefix : String} {w : List Leaf} {m : Leaf} {name : String}
    {i : Nat} (h : PresentSince typePrefix w name i) (hm : Present typePrefix (w ++ [m]) name) :
    PresentSince typePrefix (w ++ [m]) name i := by
  have hi := h.lt_length
  obtain ⟨⟨l, hl, hname⟩, hbefore, hafter⟩ := h
  refine ⟨⟨l, by rwa [List.getElem?_append_left hi], hname⟩, ?_, fun n hin hn => ?_⟩
  · rwa [List.take_append_of_le_length (Nat.le_of_lt hi)]
  · rcases Nat.lt_or_ge w.length n with hlt | hle
    · rwa [List.take_of_length_le (by simpa using Nat.succ_le_of_lt hlt)]
    · rw [List.take_append_of_le_length hle]
      exact hafter n hin hle

theorem present_append_self (typePrefix : String) (w : List Leaf) (m : Leaf) :
    Present typePrefix (w ++ [m]) (fullName typePrefix m.1) :=
  ⟨w.length, m, survives_append.mpr (Or.inl ⟨rfl, rfl⟩), rfl⟩

/-- A name that was not present is so since the last insertion. -/
theorem presentSince_last {typePrefix : String} {w : List Leaf} {m : Leaf}
    (h : ¬ Present typePrefix w (fullName typePrefix m.1)) :
    PresentSince typePrefix (w ++ [m]) (fullName typePrefix m.1) w.length := by
  refine ⟨⟨m, by simp, rfl⟩, by rwa [List.take_left], fun n hn hle => ?_⟩
  rw [List.take_of_length_le (by simpa using Nat.succ_le_of_lt hn)]
  exact present_append_self typePrefix w m

theorem storeAll_append (s : VariableSet) (w w' : List Leaf) :
    s.storeAll (w ++ w') = (s.storeAll w).storeAll w' := List.foldl_append

theorem storeAll_append_singleton (s : VariableSet) (w : List Leaf) (m : Leaf) :
    s.storeAll (w ++ [m]) = (s.storeAll w).store m.1 m.2 := storeAll_append s w [m]

theorem Coherent.storeAll {s : VariableSet} (h : s.Coherent) {w : List Leaf}
    (hw : ∀ l ∈ w, l.1 ≠ []) : (s.storeAll w).Coherent := by
  induction w generalizing s with
  | nil => exact h
  | cons l rest ih =>
    exact ih (h.store (hw l List.mem_cons_self) l.2) fun m hm => hw m (List.mem_cons_of_mem _ hm)

theorem storeAll_frame (s : VariableSet) (w : List Leaf) :
    (s.storeAll w).mode = s.mode ∧ (s.storeAll w).typePrefix = s.typePrefix := by
  induction w generalizing s with
  | nil => exact ⟨rfl, rfl⟩
  | cons l rest ih => exact ih (s.store l.1 l.2)

/-- After a row of stores into a coherent set are left: what none of them replaces, and the stores
that no later one replaces. -/
theorem Coherent.mem_storeAll_iff {s : VariableSet} (h : s.Coherent) {w : List Leaf}
    (hw : ∀ l ∈ w, l.1 ≠ []) (v : Variable) :
    v ∈ (s.storeAll w).toList ↔
      (v ∈ s.toList ∧ ∀ l ∈ w, ¬ Replaces s.typePrefix l (v.path, v.value)) ∨
      ∃ i l, Survives s.typePrefix w i l ∧ v = ⟨s.nameAt l.1, l.2, l.1, s.mode⟩ := by
  induction w using List.reverseRecOn with
  | nil => simp [VariableSet.storeAll, Survives]
  | append_singleton w m ih =>
    have hw' : ∀ l ∈ w, l.1 ≠ [] := fun l hl => hw l (List.mem_append_left _ hl)
    have hm : m.1 ≠ [] := hw m (by simp)
    obtain ⟨hmode, htype⟩ := storeAll_frame s w
    have hname : ∀ path, (s.storeAll w).nameAt path = fullName s.typePrefix path := fun path => by
      rw [nameAt, htype]
    rw [storeAll_append_singleton, (h.storeAll hw').mem_store hm, ih hw', hname, hmode]
    simp only [survives_append, Replaces, not_or, nameAt]
    constructor
    · rintro (rfl | ⟨⟨hv, hkept⟩ | ⟨i, l, hl, rfl⟩, hclash, hother⟩)
      · exact Or.inr ⟨w.length, m, Or.inl ⟨rfl, rfl⟩, rfl⟩
      · rw [h.name_eq v hv] at hother
        refine Or.inl ⟨hv, fun l hl => ?_⟩
        rcases List.mem_append.mp hl with hl | hl
        · exact hkept l hl
        · obtain rfl := List.mem_singleton.mp hl
          exact ⟨Ne.symm hother, fun hc => hclash (clash_symm hc)⟩
      · exact Or.inr ⟨i, l, Or.inr ⟨hl, Ne.symm hother, fun hc => hclash (clash_symm hc)⟩, rfl⟩
    · rintro (⟨hv, hkept⟩ | ⟨i, l, ⟨rfl, rfl⟩ | ⟨hl, hother, hclash⟩, rfl⟩)
      · obtain ⟨hother, hclash⟩ := hkept m (by simp)
        refine Or.inr ⟨Or.inl ⟨hv, fun l hl => hkept l (List.mem_append_left _ hl)⟩,
          fun hc => hclash (clash_symm hc), ?_⟩
        rw [h.name_eq v hv]
        exact Ne.symm hother
      · exact Or.inl rfl
      · exact Or.inr ⟨Or.inr ⟨i, l, hl, rfl⟩, fun hc => hclash (clash_symm hc), Ne.symm hother⟩

section Row

/-! What is left after a row of stores into a fresh set. -/

variable {mode typePrefix : String} {strict : Bool} {w : List Leaf}

theorem nameAt_storeAll {path : List String} :
    ((empty mode typePrefix strict).storeAll w).nameAt path = fullName typePrefix path := by
  rw [nameAt, (storeAll_frame _ w).2, empty]

theorem mem_storeAll (hw : ∀ l ∈ w, l.1 ≠ []) (v : Variable) :
    v ∈ ((empty mode typePrefix strict).storeAll w).toList ↔
      ∃ i l, Survives typePrefix w i l ∧ v = ⟨fullName typePrefix l.1, l.2, l.1, mode⟩ := by
  rw [(empty_coherent mode typePrefix strict).mem_storeAll_iff hw]
  simp [empty, nameAt]

theorem mem_storeAll_names (hw : ∀ l ∈ w, l.1 ≠ []) (name : String) :
    name ∈ ((empty mode typePrefix strict).storeAll w).names ↔ Present typePrefix w name := by
  simp only [names, List.mem_map, mem_storeAll hw]
  constructor
  · intro h
    obtain ⟨_, ⟨i, l, hl, rfl⟩, rfl⟩ := h
    exact ⟨i, l, hl, rfl⟩
  · intro h
    obtain ⟨i, l, hl, rfl⟩ := h
    exact ⟨_, ⟨i, l, hl, rfl⟩, rfl⟩

/-- One more store keeps the names in the order of the insertions since which they are present: a
name that is there keeps its place, a new one is the last. -/
theorem store_names_ordered {s : VariableSet} (hs : s.Coherent) {m : Leaf} (hm : m.1 ≠ [])
    (hname : s.nameAt m.1 = fullName typePrefix m.1)
    (hold : ∀ name, name ∈ s.names ↔ Present typePrefix w name)
    (hnew : ∀ name ∈ (s.store m.1 m.2).names, Present typePrefix (w ++ [m]) name)
    {since : String → Nat} (hsince : ∀ name ∈ s.names, PresentSince typePrefix w name (since name))
    (hsorted : s.names.Pairwise fun a b => since a < since b) :
    ∃ since' : String → Nat,
      (∀ name ∈ (s.store m.1 m.2).names, PresentSince typePrefix (w ++ [m]) name (since' name)) ∧
      (s.store m.1 m.2).names.Pairwise fun a b => since' a < since' b := by
  have hkept : ((s.keptAt m.1).map (·.name)).Sublist s.names := List.filter_sublist.map _
  have hsorted' := hsorted.sublist hkept
  rw [hs.store_names hm, hname] at hnew ⊢
  by_cases hin : fullName typePrefix m.1 ∈ s.names
  · simp only [if_pos hin] at hnew ⊢
    exact ⟨since, fun name hn => (hsince name (hkept.subset hn)).append (hnew name hn), hsorted'⟩
  · simp only [if_neg hin] at hnew ⊢
    refine ⟨fun name => if name ∈ s.names then since name else w.length, fun name hn => ?_, ?_⟩
    · by_cases hmem : name ∈ s.names
      · simpa only [if_pos hmem] using (hsince name hmem).append (hnew name hn)
      · obtain rfl : name = fullName typePrefix m.1 := by
          rcases List.mem_append.mp hn with hn | hn
          · exact absurd (hkept.subset hn) hmem
          · exact List.mem_singleton.mp hn
        simpa only [if_neg hmem] using presentSince_last (mt (hold _).mpr hmem)
    · refine List.pairwise_append.mpr ⟨?_, List.pairwise_singleton _ _, fun a ha b hb => ?_⟩
      · refine hsorted'.imp_of_mem fun {a b} ha hb hab => ?_
        simpa only [if_pos (hkept.subset ha), if_pos (hkept.subset hb)] using hab
      · obtain rfl := List.mem_singleton.mp hb
        simpa only [if_pos (hkept.subset ha), if_neg hin] using
          (hsince a (hkept.subset ha)).lt_length

/-- The names stand in the order of the insertions since which they are present. -/
theorem storeAll_names_ordered (hw : ∀ l ∈ w, l.1 ≠ []) :
    ∃ since : String → Nat,
      (∀ name ∈ ((empty mode typePrefix strict).storeAll w).names,
        PresentSince typePrefix w name (since name)) ∧
      ((empty mode typePrefix strict).storeAll w).names.Pairwise fun a b => since a < since b := by
  induction w using List.reverseRecOn with
  | nil => exact ⟨fun _ => 0, by simp [storeAll, empty, names], by simp [storeAll, empty, names]⟩
  | append_singleton w m ih =>
    have hw' : ∀ l ∈ w, l.1 ≠ [] := fun l hl => hw l (List.mem_append_left _ hl)
    obtain ⟨since, hsince, hsorted⟩ := ih hw'
    have hnew : ∀ name ∈ ((empty mode typePrefix strict).storeAll (w ++ [m])).names,
        Present typePrefix (w ++ [m]) name := fun name => (mem_storeAll_names hw name).mp
    rw [storeAll_append_singleton] at hnew ⊢
    exact store_names_ordered ((empty_coherent mode typePrefix strict).storeAll hw')
      (hw m (by simp)) nameAt_storeAll (mem_storeAll_names hw') hnew hsince hsorted

end Row

theorem Inserted.append {s : VariableSet} {leaves more w w' : List Leaf} (h : Inserted s leaves w)
    (h' : Inserted (s.storeAll w) more w') : Inserted s (leaves ++ more) (w ++ w') := by
  induction h with
  | nil s => exact h'
  | cons hvalue _ ih => exact .cons hvalue (ih h')

theorem Inserted.paths {s : VariableSet} {leaves w : List Leaf} (h : Inserted s leaves w) :
    w.map (·.1) = leaves.map (·.1) := by
  induction h with
  | nil s => rfl
  | cons hvalue hrest ih => simp [ih]

/-- An addition of leaves that succeeds stores all of them. -/
theorem Flattening.insertAll_inserted {f : Flattening} {leaves : List Leaf}
    (h : (f.insertAll leaves).2 = none) :
    ∃ w, Inserted f.set leaves w ∧ (f.insertAll leaves).1.set = f.set.storeAll w := by
  induction leaves generalizing f with
  | nil => exact ⟨[], .nil f.set, rfl⟩
  | cons leaf rest ih =>
    obtain ⟨-, -, he⟩ | ⟨-, ⟨failure, -, he⟩ | ⟨value, hvalue, he⟩⟩ := f.insert_cases leaf
    · simp [insertAll, he] at h
    · simp [insertAll, he] at h
    · simp only [insertAll, he] at h ⊢
      obtain ⟨w, hw, hset⟩ := ih h
      exact ⟨(leaf.1, value) :: w, .cons hvalue hw, hset⟩

theorem add_inserted {s : VariableSet} {tree : Value} (h : (s.add tree).failure = none) :
    ∃ w, Inserted s (treeLeaves tree) w ∧ (s.add tree).set = s.storeAll w := by
  unfold add at h ⊢
  split at h
  · simp at h
  · next hf =>
    rw [if_neg hf]
    cases tree with
    | map es =>
      obtain ⟨htexts, hall⟩ := (Flattening.insertTree_eq_none _ es).mp h
      simp only [Flattening.insertTree_fst, readableLeaves_eq htexts]
      exact Flattening.insertAll_inserted hall
    | _ => simp at h

theorem addAll_inserted {s : VariableSet} {trees : List Value}
    (h : (s.addAll trees).failure = none) :
    ∃ w, Inserted s (trees.flatMap treeLeaves) w ∧ (s.addAll trees).set = s.storeAll w := by
  induction trees generalizing s with
  | nil => exact ⟨[], .nil s, rfl⟩
  | cons tree rest ih =>
    cases hfirst : (s.add tree).failure with
    | some failure => simp [addAll, hfirst] at h
    | none =>
      obtain ⟨w, hw, hset⟩ := add_inserted hfirst
      simp only [addAll, hfirst] at h ⊢
      obtain ⟨w', hw', hset'⟩ := ih h
      rw [hset] at hw' hset'
      exact ⟨w ++ w', hw.append hw', by rw [hset, hset', storeAll_append]⟩

theorem treeLeaves_path_ne_nil {trees : List Value} {leaf : Leaf}
    (h : leaf ∈ trees.flatMap treeLeaves) : leaf.1 ≠ [] := by
  obtain ⟨tree, -, hleaf⟩ := List.mem_flatMap.mp h
  cases tree with
  | map es => exact leaf_path_ne_nil hleaf
  | _ => simp [treeLeaves] at hleaf

/-- The last writer wins. A run of additions to a fresh set that succeeds inserts the leaves of its
trees, each with the value that it resolves to when its turn comes. What is left are exactly the
insertions that no later one replaces, each under its own path with its own value, and their names
stand in the order of the insertions since which they have been present without interruption. -/
theorem addAll_lastWriter (mode typePrefix : String) (strict : Bool) (trees : List Value)
    (hok : ((empty mode typePrefix strict).addAll trees).failure = none) :
    let s := ((empty mode typePrefix strict).addAll trees).set
    ∃ w, Inserted (empty mode typePrefix strict) (trees.flatMap treeLeaves) w ∧
      (∀ v, v ∈ s.toList ↔
        ∃ i l, Survives typePrefix w i l ∧ v = ⟨fullName typePrefix l.1, l.2, l.1, mode⟩) ∧
      ∃ since : String → Nat,
        (∀ name ∈ s.names, PresentSince typePrefix w name (since name)) ∧
        s.names.Pairwise fun a b => since a < since b := by
  intro s
  obtain ⟨w, hw, hset⟩ := addAll_inserted hok
  have hpath : ∀ l ∈ w, l.1 ≠ [] := by
    intro l hl
    have hmem : l.1 ∈ (trees.flatMap treeLeaves).map (·.1) :=
      hw.paths ▸ List.mem_map.mpr ⟨l, hl, rfl⟩
    obtain ⟨leaf, hleaf, he⟩ := List.mem_map.mp hmem
    exact he ▸ treeLeaves_path_ne_nil hleaf
  have hs : s = (empty mode typePrefix strict).storeAll w := hset
  rw [hs]
  exact ⟨w, hw, mem_storeAll hpath, storeAll_names_ordered hpath⟩

/-- Overlays in which a group becomes a leaf and a group again, and a dotted key takes the name of
a nested path. -/
def reshaped : List Value :=
  [.map [(.text "a", .int 1), (.text "b", .map [(.text "c", .int 2)]),
      (.text "d", .list [.map [(.text "x", .int 3)]])],
    .map [(.text "b", .ref "a")],
    .map [(.text "b", .map [(.text "c", .ref "d.0")]), (.text "a", .int 4)],
    .map [(.text "b.c", .ref "b.c"), (.text "d", .map [(.int 5, .ref "a")])]]

/-- Dropped names are declared again at the end, an overwritten one keeps its place. -/
theorem addAll_lastWriter_reshaped :
    let s := ((empty "light" "colors" true).addAll reshaped).set
    ((empty "light" "colors" true).addAll reshaped).failure = none ∧
      s.names = ["colors-a", "colors-b.c", "colors-d.5"] ∧
      ∃ w, Inserted (empty "light" "colors" true) (reshaped.flatMap treeLeaves) w ∧
        (∀ v, v ∈ s.toList ↔
          ∃ i l, Survives "colors" w i l ∧ v = ⟨fullName "colors" l.1, l.2, l.1, "light"⟩) ∧
        ∃ since : String → Nat,
          (∀ name ∈ s.names, PresentSince "colors" w name (since name)) ∧
          s.names.Pairwise fun a b => since a < since b :=
  ⟨by rfl, by rfl, addAll_lastWriter "light" "colors" true reshaped (by rfl)⟩

end DesignTokens.VariableSet
