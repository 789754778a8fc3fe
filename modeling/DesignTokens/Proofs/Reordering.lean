import DesignTokens.Proofs.Origins
import DesignTokens.Proofs.Rebuilding
import Mathlib.Data.List.Pairwise

/-! Trees whose keys stand in another order. A reference takes what its one target among the leaves
has, or something inside it, and the target is inserted before it in either order. So the order decides
whether references resolve, and never what to. -/
namespace DesignTokens

open Value

namespace Value

/-- Two values that differ in the order of the keys of their groups only. -/
inductive Reordered : Value → Value → Prop where
  | refl (v : Value) : Reordered v v
  | map {es es' : List (Value × Value)} (hkeys : (es.map (·.1)).Perm (es'.map (·.1)))
      (hinner : ∀ k x y, (k, x) ∈ es → (k, y) ∈ es' → Reordered x y) : Reordered (.map es) (.map es')
  | group {cs cs' : List (Value × Value)} (hkeys : (cs.map (·.1)).Perm (cs'.map (·.1)))
      (hinner : ∀ k x y, (k, x) ∈ cs → (k, y) ∈ cs' → Reordered x y) :
      Reordered (.group cs) (.group cs')

theorem HasPlainKeys.perm {es es' : List (Value × Value)} (h : HasPlainKeys es)
    (hkeys : (es.map (·.1)).Perm (es'.map (·.1))) : HasPlainKeys es' := by
  refine ⟨hkeys.nodup_iff.mp h.1, fun e he => ?_⟩
  obtain ⟨d, hd, hkey⟩ := List.mem_map.mp (hkeys.mem_iff.mpr (List.mem_map.mpr ⟨e, he, rfl⟩))
  exact hkey ▸ h.2 d hd

namespace Reordered

variable {v v' : Value}

theorem exists_partner {es es' : List (Value × Value)}
    (hkeys : (es.map (·.1)).Perm (es'.map (·.1))) {e : Value × Value} (he : e ∈ es) :
    ∃ y, (e.1, y) ∈ es' := by
  obtain ⟨⟨k, y⟩, hmem, hkey⟩ := List.mem_map.mp (hkeys.mem_iff.mp (List.mem_map.mpr ⟨e, he, rfl⟩))
  exact ⟨y, hkey ▸ hmem⟩

theorem everyGroup (h : Reordered v v') (hv : v.EveryGroup HasPlainKeys) :
    v'.EveryGroup HasPlainKeys := by
  induction h with
  | refl v => exact hv
  | map hkeys _ ih =>
    obtain ⟨hplain, hinner⟩ := hv.of_map
    refine .map (hplain.perm hkeys) fun e he => ?_
    obtain ⟨x, hx⟩ := exists_partner hkeys.symm he
    exact ih e.1 x e.2 hx he (hinner _ hx)
  | group hkeys _ ih =>
    obtain ⟨hplain, hinner⟩ := hv.of_group
    refine .group (hplain.perm hkeys) fun e he => ?_
    obtain ⟨x, hx⟩ := exists_partner hkeys.symm he
    exact ih e.1 x e.2 hx he (hinner _ hx)

/-- The leaves are the same, in whatever order. -/
theorem mem_leavesAt (h : Reordered v v') (path : List String) (l : Leaf) :
    l ∈ leavesAt path v ↔ l ∈ leavesAt path v' := by
  have hgroup : ∀ {es es' : List (Value × Value)} (path : List String),
      (es.map (·.1)).Perm (es'.map (·.1)) →
      (∀ k x y, (k, x) ∈ es → (k, y) ∈ es' → ∀ path, l ∈ leavesAt path x ↔ l ∈ leavesAt path y) →
      (l ∈ leavesOf path es ↔ l ∈ leavesOf path es') := by
    intro es es' path hkeys ih
    simp only [leavesOf_eq_flatMap, List.mem_flatMap]
    constructor
    · rintro ⟨e, he, hl⟩
      obtain ⟨y, hy⟩ := exists_partner hkeys he
      exact ⟨_, hy, (ih e.1 e.2 y he hy _).mp hl⟩
    · rintro ⟨e, he, hl⟩
      obtain ⟨x, hx⟩ := exists_partner hkeys.symm he
      exact ⟨_, hx, (ih e.1 x e.2 hx he _).mpr hl⟩
  induction h generalizing path with
  | refl v => rfl
  | map hkeys _ ih =>
    rw [leavesAt, leavesAt]
    exact hgroup path hkeys fun k x y hx hy path => ih k x y hx hy path
  | group hkeys _ ih =>
    rw [leavesAt, leavesAt]
    exact hgroup path hkeys fun k x y hx hy path => ih k x y hx hy path

end Reordered

end Value

namespace VariableSet

/-- Each insertion stores what its leaf resolves to after the ones before it. -/
theorem Inserted.resolve_eq {s : VariableSet} {ls w : List Leaf} (h : Inserted s ls w) {i : Nat}
    {l : Leaf} (hl : w[i]? = some l) :
    ∃ v, (l.1, v) ∈ ls ∧ ∃ referrer, (s.storeAll (w.take i)).resolve v referrer = .ok l.2 := by
  induction h generalizing i with
  | nil s => simp at hl
  | @cons s leaf value leaves w hvalue _ ih =>
    cases i with
    | zero =>
      obtain rfl : (leaf.1, value) = l := by simpa using hl
      exact ⟨leaf.2, List.mem_cons_self, _, hvalue⟩
    | succ i =>
      obtain ⟨v, hv, referrer, hresolve⟩ := ih (by simpa using hl)
      exact ⟨v, List.mem_cons_of_mem _ hv, referrer, hresolve⟩

/-- What an insertion stores: what its leaf stands for, or what the reference that the leaf is finds
inside what an earlier insertion has stored. -/
theorem Inserted.value_cases {mode typePrefix : String} {strict : Bool} {ls w : List Leaf}
    (h : Inserted (empty mode typePrefix strict) ls w) (hpath : ∀ l ∈ w, l.1 ≠ [])
    (hdots : ∀ l ∈ w, DotFree l.1) {i : Nat} {l : Leaf} (hl : w[i]? = some l) :
    ∃ v, (l.1, v) ∈ ls ∧ (v.own? = some l.2 ∨
      ∃ dotted, v = .ref dotted ∧ ∃ m ∈ w.take i, ∃ rest, splitPath dotted = m.1 ++ rest ∧
        indexInto? m.2 rest = some l.2) := by
  obtain ⟨v, hv, referrer, hresolve⟩ := h.resolve_eq hl
  refine ⟨v, hv, ?_⟩
  have hpath' : ∀ m ∈ w.take i, m.1 ≠ [] := fun m hm => hpath m (List.mem_of_mem_take hm)
  have hstored : ∀ u ∈ ((empty mode typePrefix strict).storeAll (w.take i)).toList,
      (u.path, u.value) ∈ w.take i := by
    intro u hu
    obtain ⟨j, m, ⟨hm, -⟩, rfl⟩ := (mem_storeAll hpath' u).mp hu
    exact List.mem_of_getElem? hm
  unfold resolve at hresolve
  unfold Value.own?
  split at hresolve
  · next x hx =>
    rw [hx, ← Except.ok.inj hresolve]
    exact Or.inl rfl
  · next d hd =>
    rw [hd, ← Except.ok.inj hresolve]
    exact Or.inl rfl
  · next dotted href =>
    have hs := (empty_coherent mode typePrefix strict).storeAll hpath'
    obtain ⟨u, hu, rest, hsplit, hindex⟩ := (hs.resolveReference_eq_ok fun u hu =>
      hdots _ (List.mem_of_mem_take (hstored u hu))).mp hresolve
    refine Or.inr ⟨dotted, ?_, (u.path, u.value), hstored u hu, rest, hsplit, hindex⟩
    cases v <;> simp_all [Token.of]
  · cases hresolve

theorem eq_of_prefix {w : List Leaf} (hapart : w.Pairwise fun l m => Apart l.1 m.1) {l m : Leaf}
    (hl : l ∈ w) (hm : m ∈ w) {path : List String} (hpl : l.1 <+: path) (hpm : m.1 <+: path) :
    l = m := by
  by_contra hne
  have : Std.Symm fun l m : Leaf => Apart l.1 m.1 := ⟨fun _ _ => And.symm⟩
  have hapart : Apart l.1 m.1 := hapart.forall hl hm hne
  rcases List.prefix_or_prefix_of_prefix hpl hpm with h | h
  · exact hapart.1 h
  · exact hapart.2 h

theorem Inserted.forall_path {s : VariableSet} {ls w : List Leaf} (h : Inserted s ls w)
    {P : List String → Prop} (hP : ∀ l ∈ ls, P l.1) : ∀ l ∈ w, P l.1 := by
  intro l hl
  obtain ⟨m, hm, he⟩ := List.mem_map.mp (h.paths ▸ List.mem_map.mpr ⟨l, hl, rfl⟩)
  exact he ▸ hP m hm

theorem Inserted.paths_apart {s : VariableSet} {ls w : List Leaf} (h : Inserted s ls w)
    (hapart : ls.Pairwise fun l m => Apart l.1 m.1) : w.Pairwise fun l m => Apart l.1 m.1 := by
  rw [← List.pairwise_map (f := Prod.fst) (R := Apart), h.paths]
  exact List.pairwise_map.mpr hapart

/-- Leaves that can be inserted one after the other without meeting each other: no path leads to
another, and none holds a dot. -/
structure Distinct (ls : List Leaf) : Prop where
  path_ne_nil : ∀ l ∈ ls, l.1 ≠ []
  dotFree : ∀ l ∈ ls, DotFree l.1
  apart : ls.Pairwise fun l m => Apart l.1 m.1

theorem Inserted.distinct {s : VariableSet} {ls w : List Leaf} (h : Inserted s ls w)
    (hls : Distinct ls) : Distinct w :=
  ⟨h.forall_path (P := (· ≠ [])) hls.path_ne_nil, h.forall_path hls.dotFree,
    h.paths_apart hls.apart⟩

/-- Two rows of insertions of the same leaves, in whatever orders, store the same values. -/
theorem Inserted.mem_of_same {mode typePrefix : String} {strict strict' : Bool}
    {ls ls' w w' : List Leaf} (h : Inserted (empty mode typePrefix strict) ls w)
    (h' : Inserted (empty mode typePrefix strict') ls' w') (hsame : ∀ l, l ∈ ls ↔ l ∈ ls')
    (hls : Distinct ls) (hls' : Distinct ls') {l : Leaf} (hl : l ∈ w) : l ∈ w' := by
  have hw := h.distinct hls
  have hw' := h'.distinct hls'
  -- The induction is on the place in the first order: what a reference finds was inserted before it.
  obtain ⟨i, hi⟩ := List.getElem?_of_mem hl
  induction i using Nat.strongRecOn generalizing l with
  | _ i ih =>
    obtain ⟨v, hv, hvalue⟩ := h.value_cases hw.path_ne_nil hw.dotFree hi
    have hpartner : l.1 ∈ w'.map (·.1) := by
      rw [h'.paths]
      exact List.mem_map.mpr ⟨_, (hsame _).mp hv, rfl⟩
    obtain ⟨l', hl', he⟩ := List.mem_map.mp hpartner
    obtain ⟨j, hj⟩ := List.getElem?_of_mem hl'
    obtain ⟨v', hv', hvalue'⟩ := h'.value_cases hw'.path_ne_nil hw'.dotFree hj
    obtain rfl : v = v' := by
      have hleaf := eq_of_prefix hls.apart hv ((hsame _).mpr hv') (List.prefix_refl l.1)
        (he ▸ List.prefix_rfl)
      exact (Prod.mk.inj hleaf).2
    suffices hsecond : l'.2 = l.2 by
      rwa [← Prod.ext he hsecond]
    rcases hvalue with hown | ⟨dotted, rfl, m, hm, rest, hsplit, hindex⟩
    · rcases hvalue' with hown' | ⟨dotted, rfl, -⟩
      · exact Option.some.inj (hown'.symm.trans hown)
      · cases hown
    · rcases hvalue' with hown' | ⟨dotted', href, m', hm', rest', hsplit', hindex'⟩
      · cases hown'
      · obtain rfl : dotted = dotted' := by simpa using href
        obtain ⟨k, hk, hkm⟩ := List.mem_take_iff_getElem.mp hm
        have hmem : m ∈ w' := ih k (by omega) (List.mem_of_mem_take hm)
          (hkm ▸ List.getElem?_eq_getElem (by omega))
        obtain rfl : m = m' := eq_of_prefix hw'.apart hmem (List.mem_of_mem_take hm')
          ⟨rest, hsplit.symm⟩ ⟨rest', hsplit'.symm⟩
        obtain rfl : rest = rest' := List.append_cancel_left (hsplit.symm.trans hsplit')
        exact Option.some.inj (hindex'.symm.trans hindex)

/-- In a fresh set the variables are the insertions. -/
theorem Inserted.mem_toList {mode typePrefix : String} {strict : Bool} {ls w : List Leaf}
    (h : Inserted (empty mode typePrefix strict) ls w) (hls : Distinct ls) (v : Variable) :
    v ∈ ((empty mode typePrefix strict).storeAll w).toList ↔
      ∃ l ∈ w, v = ⟨fullName typePrefix l.1, l.2, l.1, mode⟩ := by
  have hw := h.distinct hls
  have hnames : (w.map fun l => fullName typePrefix l.1).Nodup := by
    refine List.pairwise_map.mpr (hw.apart.imp_of_mem fun {l m} hl hm hapart he => ?_)
    exact (apart_iff.mp hapart).2 (fullName_inj (hw.path_ne_nil l hl) (hw.path_ne_nil m hm)
      (hw.dotFree l hl) (hw.dotFree m hm) he)
  rw [storeAll_toList mode typePrefix strict hw.path_ne_nil hw.apart hnames, List.mem_map]
  exact exists_congr fun l => and_congr_right fun _ => eq_comm

theorem Coherent.get?_congr {s t : VariableSet} (hs : s.Coherent) (ht : t.Coherent)
    (h : ∀ v, v ∈ s.toList ↔ v ∈ t.toList) (name : String) : s.get? name = t.get? name := by
  have hmem : ∀ {u : VariableSet}, u.Coherent → ∀ v,
      u.get? name = some v ↔ v ∈ u.toList ∧ v.name = name := by
    intro u hu v
    constructor
    · exact mem_of_get?
    · rintro ⟨hv, rfl⟩
      exact hu.get?_of_mem hv
  ext v
  rw [hmem hs, hmem ht, h]

theorem distinct_leavesOf {es : List (Value × Value)}
    (hkeys : (Value.map es).EveryGroup HasPlainKeys) : Distinct (leavesOf [] es) := by
  have hapart := (hkeys.mono fun _ => HasPlainKeys.hasDistinctTexts).leaves_apart []
  have hdots := hkeys.leaves_dotFree [] (by simp [DotFree])
  rw [leavesAt] at hapart hdots
  exact ⟨fun l => leaf_path_ne_nil, hdots, hapart⟩

/-- Two trees that differ in the order of the keys of their groups only, with keys without dots, map
each name to the same variable, if both can be added to a fresh set. -/
theorem add_reordered (mode typePrefix : String) (strict strict' : Bool)
    {es es' : List (Value × Value)} (hkeys : (Value.map es).EveryGroup HasPlainKeys)
    (horder : Reordered (.map es) (.map es'))
    (hok : ((empty mode typePrefix strict).add (.map es)).failure = none)
    (hok' : ((empty mode typePrefix strict').add (.map es')).failure = none) (name : String) :
    ((empty mode typePrefix strict).add (.map es)).set.get? name =
      ((empty mode typePrefix strict').add (.map es')).set.get? name := by
  have hls := distinct_leavesOf hkeys
  have hls' := distinct_leavesOf (horder.everyGroup hkeys)
  have hsame : ∀ l, l ∈ leavesOf [] es ↔ l ∈ leavesOf [] es' := by
    intro l
    have hmem := horder.mem_leavesAt [] l
    rwa [leavesAt, leavesAt] at hmem
  obtain ⟨w, hw, hset⟩ := add_inserted hok
  obtain ⟨w', hw', hset'⟩ := add_inserted hok'
  rw [treeLeaves] at hw hw'
  rw [hset, hset']
  refine Coherent.get?_congr
    ((empty_coherent mode typePrefix strict).storeAll (hw.distinct hls).path_ne_nil)
    ((empty_coherent mode typePrefix strict').storeAll (hw'.distinct hls').path_ne_nil)
    (fun v => ?_) name
  rw [hw.mem_toList hls, hw'.mem_toList hls']
  have hstored : ∀ l, l ∈ w ↔ l ∈ w' := fun l =>
    ⟨hw.mem_of_same hw' hsame hls hls', hw'.mem_of_same hw (fun m => (hsame m).symm) hls' hls⟩
  simp only [hstored]

/-- A row, a reference into it, and a reference to that reference. -/
def chained : List (Value × Value) :=
  [(.text "gray", .list [.text "a", .text "b"]), (.text "size", .int 1),
    (.text "muted", .ref "gray.1"),
    (.text "text", .map [(.text "soft", .ref "muted"), (.text "late", .ref "size")])]

/-- The same tree with the keys of two groups in another order. -/
def rechained : List (Value × Value) :=
  [(.text "size", .int 1), (.text "gray", .list [.text "a", .text "b"]),
    (.text "muted", .ref "gray.1"),
    (.text "text", .map [(.text "late", .ref "size"), (.text "soft", .ref "muted")])]

theorem add_reordered_chained :
    (Value.map chained).EveryGroup HasPlainKeys ∧ Reordered (.map chained) (.map rechained) ∧
      ((empty "light" "colors" true).add (.map chained)).failure = none ∧
      ((empty "light" "colors" false).add (.map rechained)).failure = none ∧
      ∀ name, ((empty "light" "colors" true).add (.map chained)).set.get? name =
        ((empty "light" "colors" false).add (.map rechained)).set.get? name := by
  have hkeys : (Value.map chained).EveryGroup HasPlainKeys := by
    have hleaf : ∀ dotted, (Value.ref dotted).EveryGroup HasPlainKeys := fun dotted =>
      .leaf ⟨nofun, nofun⟩
    refine .map ⟨by simp [chained], by simp [chained]⟩ ?_
    simp only [chained, List.forall_mem_cons, List.not_mem_nil, false_implies, implies_true, and_true]
    exact ⟨.leaf ⟨nofun, nofun⟩, .leaf ⟨nofun, nofun⟩, hleaf _,
      .map ⟨by simp, by simp⟩ (by simpa using ⟨hleaf _, hleaf _⟩)⟩
  have horder : Reordered (.map chained) (.map rechained) := by
    have hinner : Reordered (.map [(.text "soft", .ref "muted"), (.text "late", .ref "size")])
        (.map [(.text "late", .ref "size"), (.text "soft", .ref "muted")]) := by
      refine .map (.swap _ _ _) fun k x y hx hy => ?_
      simp only [List.mem_cons, Prod.mk.injEq, List.not_mem_nil, or_false] at hx hy
      rcases hx with ⟨rfl, rfl⟩ | ⟨rfl, rfl⟩ <;> simp at hy <;> exact hy ▸ .refl _
    refine .map (.swap _ _ _) fun k x y hx hy => ?_
    simp only [chained, rechained, List.mem_cons, Prod.mk.injEq, List.not_mem_nil, or_false] at hx hy
    rcases hx with ⟨rfl, rfl⟩ | ⟨rfl, rfl⟩ | ⟨rfl, rfl⟩ | ⟨rfl, rfl⟩ <;> simp at hy <;> subst hy
    · exact .refl _
    · exact .refl _
    · exact .refl _
    · exact hinner
  exact ⟨hkeys, horder, by rfl, by rfl,
    add_reordered "light" "colors" true false hkeys horder (by rfl) (by rfl)⟩

end VariableSet

end DesignTokens
