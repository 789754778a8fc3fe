import DesignTokens.Proofs.LastWriter
import DesignTokens.Proofs.Merging
import DesignTokens.Proofs.Resolution

/-! Where stored values come from. A variable holds what a leaf of an added tree stands for, or what
a reference has taken from inside a row. The first is settled; the second is whatever the row holds,
so references give settled values exactly where no stored row holds anything else. -/
namespace DesignTokens

open Value

namespace Text

theorem mem_strip {s : List Char} {c : Char} (hc : c ∈ s) (h : isBlank c = false) :
    c ∈ strip s := by
  have hdrop : ∀ s : List Char, c ∈ s → c ∈ s.dropWhile isBlank := by
    intro s hs
    induction s with
    | nil => cases hs
    | cons d rest ih =>
      rw [List.dropWhile_cons]
      split
      · next hd =>
        rcases List.mem_cons.mp hs with rfl | hs
        · rw [h] at hd
          cases hd
        · exact ih hs
      · exact hs
  have hstart := hdrop s hc
  have hend := hdrop _ (List.mem_reverse.mpr hstart)
  exact List.mem_reverse.mpr hend

end Text

namespace Number

theorem mem_withoutUnderscores? {cs ds : List Char} {afterDigit : Bool} {c : Char}
    (h : withoutUnderscores? afterDigit cs = some ds) (hc : c ∈ cs) (hline : c ≠ '_') :
    c ∈ ds := by
  fun_induction withoutUnderscores? afterDigit cs generalizing ds with
  | case1 => cases hc
  | case2 afterDigit d rest hdigit ih =>
    obtain ⟨tail, htail, rfl⟩ := Option.map_eq_some_iff.mp h
    have hrest : c = d ∨ c ∈ rest := by simpa [hline] using hc
    rcases hrest with rfl | hrest
    · exact List.mem_cons_self
    · exact List.mem_cons_of_mem _ (ih htail hrest)
  | case3 => cases h
  | case4 => cases h
  | case5 afterDigit d rest _ _ ih =>
    obtain ⟨tail, htail, rfl⟩ := Option.map_eq_some_iff.mp h
    rcases List.mem_cons.mp hc with rfl | hrest
    · exact List.mem_cons_self
    · exact List.mem_cons_of_mem _ (ih htail hrest)

theorem mem_leadingSign {cs : List Char} {c : Char} (hc : c ∈ cs) (hminus : c ≠ '-')
    (hplus : c ≠ '+') : c ∈ (leadingSign cs).2 := by
  unfold leadingSign
  split
  · simpa [hminus] using hc
  · simpa [hplus] using hc
  · exact hc

/-- A text that spells an integer holds no dot. -/
theorem dot_not_mem_of_readInt? {s : String} {i : Int} (h : readInt? s = some i) :
    '.' ∉ s.toList := by
  intro hdot
  rw [readInt?] at h
  obtain ⟨cs, hcs, h⟩ := Option.bind_eq_some_iff.mp h
  have hstrip : '.' ∈ Text.strip s.toList := Text.mem_strip hdot (by decide)
  have hmem : '.' ∈ cs := mem_withoutUnderscores? hcs hstrip (by decide)
  have hunsigned : '.' ∈ (leadingSign cs).2 := mem_leadingSign hmem (by decide) (by decide)
  dsimp only at h
  split at h
  · cases h
  · next ds _ hds =>
    have hdigits := (digits_of_leadingDigits hds).2 '.' hunsigned
    revert hdigits
    decide
  · cases h

end Number

/-- What a leaf stands for by itself; a reference stands for nothing by itself. -/
def Value.own? (v : Value) : Option Value :=
  match Token.of v with
  | .literal w => some w
  | .deferred d => some (.deferred d)
  | _ => none

namespace VariableSet

/-- The trees that an operation adds. -/
def Operation.trees : Operation → List Value
  | .add tree => [tree]
  | .addAll trees => trees
  | .finalize => []

theorem indexInto?_append {v x y : Value} {first rest : List String}
    (hx : indexInto? v first = some x) (hy : indexInto? x rest = some y) :
    indexInto? v (first ++ rest) = some y := by
  induction first generalizing v with
  | nil =>
    obtain rfl : v = x := by simpa using hx
    exact hy
  | cons segment tail ih =>
    obtain ⟨xs, i, w, hv, hi, hw, htail⟩ := indexInto?_cons_eq_some.mp hx
    exact indexInto?_cons_eq_some.mpr ⟨xs, i, w, hv, hi, hw, ih htail⟩

/-- What holds of the items of rows of which it holds, holds of what is found inside such a row. -/
theorem indexInto?_preserves {P : Value → Prop}
    (hitem : ∀ v xs x, P v → v = .list xs ∨ v = .tuple xs → x ∈ xs → P x) {v x : Value}
    {places : List String} (hv : P v) (h : indexInto? v places = some x) : P x := by
  induction places generalizing v with
  | nil =>
    obtain rfl : v = x := by simpa using h
    exact hv
  | cons segment rest ih =>
    obtain ⟨xs, i, y, hrow, -, hy, hrest⟩ := indexInto?_cons_eq_some.mp h
    exact ih (hitem v xs y hv hrow (mem_of_itemAt? hy)) hrest

theorem dotFree_of_indexInto? {v x : Value} {places : List String}
    (h : indexInto? v places = some x) : DotFree places := by
  induction places generalizing v with
  | nil => simp [DotFree]
  | cons segment rest ih =>
    obtain ⟨xs, i, y, -, hi, -, hrest⟩ := indexInto?_cons_eq_some.mp h
    have hsegment := Number.dot_not_mem_of_readInt? hi
    exact List.forall_mem_cons.mpr ⟨hsegment, ih hrest⟩

theorem resolveReference_origin {s : VariableSet} {dotted referrer : String} {x : Value}
    (h : s.resolveReference dotted referrer = .ok x) :
    ∃ v ∈ s.toList, ∃ places, indexInto? v.value places = some x := by
  unfold resolveReference at h
  dsimp only at h
  split at h
  · next v hget =>
    cases h
    exact ⟨v, (mem_of_get? hget).1, [], rfl⟩
  · split at h
    · cases h
    · next v rest hbase =>
      split at h
      · next found hindex =>
        cases h
        obtain ⟨start, -, hstart⟩ := List.exists_of_findSome?_eq_some hbase
        obtain ⟨w, hw, he⟩ := Option.map_eq_some_iff.mp hstart
        cases he
        exact ⟨v, (mem_of_get? hw).1, _, hindex⟩
      · cases h

/-- A leaf is stored with what it stands for, or with something inside the value of a variable. -/
theorem resolve_origin {s : VariableSet} {v x : Value} {referrer : String}
    (h : s.resolve v referrer = .ok x) :
    v.own? = some x ∨ ∃ w ∈ s.toList, ∃ places, indexInto? w.value places = some x := by
  unfold resolve at h
  unfold Value.own?
  split at h
  · next w hw =>
    cases h
    exact Or.inl (by rw [hw])
  · next d hd =>
    cases h
    exact Or.inl (by rw [hd])
  · exact Or.inr (resolveReference_origin h)
  · cases h

theorem value_of_mem_store {s : VariableSet} {path : List String} {value : Value} {v : Variable}
    (h : v ∈ (s.store path value).toList) : v.value = value ∨ v ∈ s.toList := by
  have hput : ∀ (w : Variable) (vs : List Variable), v ∈ putVariable w vs → v = w ∨ v ∈ vs := by
    intro w vs
    induction vs with
    | nil => simp [putVariable]
    | cons u rest ih =>
      rw [putVariable]
      split <;> grind
  rcases hput _ _ h with rfl | hkept
  · exact Or.inl rfl
  · exact Or.inr (List.mem_of_mem_filter hkept)

section Values

/-! What holds of all that leaves stand for, and of what is inside a value of which it holds, holds
of every stored value. -/

variable {P : Value → Prop}
  (hinside : ∀ v places x, P v → indexInto? v places = some x → P x)
include hinside

theorem Flattening.insertAll_values (f : Flattening) {leaves : List Leaf}
    (hown : ∀ leaf ∈ leaves, ∀ x, leaf.2.own? = some x → P x)
    (h : ∀ v ∈ f.set.toList, P v.value) : ∀ v ∈ (f.insertAll leaves).1.set.toList, P v.value := by
  induction leaves generalizing f with
  | nil => exact h
  | cons leaf rest ih =>
    have hrest := fun l hl => hown l (List.mem_cons_of_mem leaf hl)
    obtain ⟨-, -, he⟩ | ⟨-, ⟨failure, -, he⟩ | ⟨value, hvalue, he⟩⟩ := f.insert_cases leaf
    · simpa [insertAll, he] using h
    · simpa [insertAll, he] using h
    · have hstored : P value := by
        rcases resolve_origin hvalue with hval | ⟨w, hw, places, hplaces⟩
        · exact hown leaf List.mem_cons_self value hval
        · exact hinside w.value places value (h w hw) hplaces
      have hset : ∀ v ∈ (f.set.store leaf.1 value).toList, P v.value := by
        intro v hv
        rcases value_of_mem_store hv with rfl | hv
        · exact hstored
        · exact h v hv
      simpa [insertAll, he] using ih ⟨f.set.store leaf.1 value, _, _⟩ hrest hset

theorem add_values (s : VariableSet) {tree : Value}
    (hown : ∀ leaf ∈ treeLeaves tree, ∀ x, leaf.2.own? = some x → P x)
    (h : ∀ v ∈ s.toList, P v.value) : ∀ v ∈ (s.add tree).set.toList, P v.value := by
  unfold add
  split
  · exact h
  · split
    · simp only [Flattening.insertTree_fst]
      exact Flattening.insertAll_values hinside _
        (fun leaf hleaf => hown leaf (mem_leavesOf_of_readable hleaf)) h
    · exact h

theorem addAll_values (s : VariableSet) {trees : List Value}
    (hown : ∀ tree ∈ trees, ∀ leaf ∈ treeLeaves tree, ∀ x, leaf.2.own? = some x → P x)
    (h : ∀ v ∈ s.toList, P v.value) : ∀ v ∈ (s.addAll trees).set.toList, P v.value := by
  induction trees generalizing s with
  | nil => exact h
  | cons tree rest ih =>
    have hfirst := add_values hinside s (hown tree List.mem_cons_self) h
    simp only [addAll]
    split
    · exact hfirst
    · exact ih _ (fun t ht => hown t (List.mem_cons_of_mem tree ht)) hfirst

theorem run_values (s : VariableSet) {ops : List Operation}
    (hown : ∀ tree ∈ ops.flatMap Operation.trees, ∀ leaf ∈ treeLeaves tree, ∀ x,
      leaf.2.own? = some x → P x)
    (h : ∀ v ∈ s.toList, P v.value) : ∀ v ∈ (s.run ops).toList, P v.value := by
  induction ops generalizing s with
  | nil => exact h
  | cons op rest ih =>
    have hop : ∀ tree ∈ op.trees, tree ∈ (op :: rest).flatMap Operation.trees := by
      intro tree htree
      simp [htree]
    have hrest : ∀ tree ∈ rest.flatMap Operation.trees,
        tree ∈ (op :: rest).flatMap Operation.trees := by
      intro tree htree
      rw [List.flatMap_cons]
      exact List.mem_append_right _ htree
    refine ih _ (fun tree htree => hown tree (hrest tree htree)) ?_
    cases op with
    | add tree => exact add_values hinside s (hown tree (hop tree (List.mem_singleton_self _))) h
    | addAll trees => exact addAll_values hinside s (fun t ht => hown t (hop t ht)) h
    | finalize => exact h

end Values

theorem own?_isSettled {v x : Value} (hv : v.IsLeaf) (hwrapped : ∀ w, v ≠ .literal w)
    (h : v.own? = some x) : x.IsSettled ∧ ((∃ d, x = .deferred d) ∨ x = v) := by
  obtain ⟨hmap, hgroup⟩ := hv
  cases v <;> simp_all [Value.own?, Token.of, IsSettled] <;> subst h <;> simp

theorem isLeaf_of_mem_treeLeaves {tree : Value} {leaf : Leaf} (h : leaf ∈ treeLeaves tree) :
    leaf.2.IsLeaf := by
  cases tree with
  | map es => exact leavesOf_isLeaf [] es leaf h
  | _ => simp [treeLeaves] at h

/-- References give settled values exactly if no stored row holds anything else. -/
theorem Coherent.references_settled_iff {s : VariableSet} (h : s.Coherent)
    (hdots : ∀ v ∈ s.toList, DotFree v.path) :
    (∀ dotted referrer x, s.resolveReference dotted referrer = .ok x → x.IsSettled) ↔
      ∀ v ∈ s.toList, ∀ places x, indexInto? v.value places = some x → x.IsSettled := by
  constructor
  · intro hrefs v hv places x hx
    have hne : v.path ++ places ≠ [] := by simp [h.path_ne_nil v hv]
    have hfree : DotFree (v.path ++ places) := by
      intro segment hsegment
      rcases List.mem_append.mp hsegment with hs | hs
      · exact hdots v hv segment hs
      · exact dotFree_of_indexInto? hx segment hs
    have hsplit := splitPath_dottedPath hne hfree
    exact hrefs (dottedPath (v.path ++ places)) "" x
      ((h.resolveReference_eq_ok hdots).mpr ⟨v, hv, places, hsplit, hx⟩)
  · intro hrows dotted referrer x hx
    obtain ⟨v, hv, places, hplaces⟩ := resolveReference_origin hx
    exact hrows v hv places x hplaces

/-- After any run of operations whose trees hold no wrapped leaf, each stored value is settled, unless
it is something inside a row that is a leaf of one of the trees; so all are settled if these rows hold
settled values only. Where paths hold no dots, references give settled values only exactly if the rows
that are stored hold nothing else. -/
theorem run_settled (mode typePrefix : String) (strict : Bool) (ops : List Operation)
    (hwrapped : ∀ tree ∈ ops.flatMap Operation.trees, ∀ leaf ∈ treeLeaves tree, ∀ w,
      leaf.2 ≠ .literal w) :
    let s := (empty mode typePrefix strict).run ops
    (∀ v ∈ s.toList, v.value.IsSettled ∨
      ∃ tree ∈ ops.flatMap Operation.trees, ∃ leaf ∈ treeLeaves tree, ∃ places, places ≠ [] ∧
        indexInto? leaf.2 places = some v.value) ∧
    ((∀ tree ∈ ops.flatMap Operation.trees, ∀ leaf ∈ treeLeaves tree, ∀ places x, places ≠ [] →
      indexInto? leaf.2 places = some x → x.IsSettled) → ∀ v ∈ s.toList, v.value.IsSettled) ∧
    ((∀ v ∈ s.toList, DotFree v.path) →
      ((∀ dotted referrer x, s.resolveReference dotted referrer = .ok x → x.IsSettled) ↔
        ∀ v ∈ s.toList, ∀ places x, indexInto? v.value places = some x → x.IsSettled)) := by
  intro s
  have hs : s.Coherent := (empty_coherent mode typePrefix strict).run ops
  -- Every stored value is found inside what some leaf stands for.
  have horigin : ∀ v ∈ s.toList, ∃ tree ∈ ops.flatMap Operation.trees, ∃ leaf ∈ treeLeaves tree,
      ∃ own, leaf.2.own? = some own ∧ ∃ places, indexInto? own places = some v.value := by
    refine run_values
      (P := fun x => ∃ tree ∈ ops.flatMap Operation.trees, ∃ leaf ∈ treeLeaves tree,
        ∃ own, leaf.2.own? = some own ∧ ∃ places, indexInto? own places = some x)
      ?_ _ ?_ (by simp [empty])
    · rintro v places x ⟨tree, htree, leaf, hleaf, own, hown, start, hstart⟩ hx
      exact ⟨tree, htree, leaf, hleaf, own, hown, start ++ places, indexInto?_append hstart hx⟩
    · intro tree htree leaf hleaf x hx
      exact ⟨tree, htree, leaf, hleaf, x, hx, [], rfl⟩
  have hvalues : ∀ v ∈ s.toList, v.value.IsSettled ∨
      ∃ tree ∈ ops.flatMap Operation.trees, ∃ leaf ∈ treeLeaves tree, ∃ places, places ≠ [] ∧
        indexInto? leaf.2 places = some v.value := by
    intro v hv
    obtain ⟨tree, htree, leaf, hleaf, own, hown, places, hplaces⟩ := horigin v hv
    obtain ⟨hsettled, hcases⟩ := own?_isSettled (isLeaf_of_mem_treeLeaves hleaf)
      (hwrapped tree htree leaf hleaf) hown
    cases places with
    | nil =>
      obtain rfl : own = v.value := by simpa [indexInto?] using hplaces
      exact Or.inl hsettled
    | cons segment rest =>
      have hrow : own = leaf.2 := by
        rcases hcases with ⟨d, rfl⟩ | he
        · simp [indexInto?] at hplaces
        · exact he
      exact Or.inr ⟨tree, htree, leaf, hleaf, segment :: rest, by simp, hrow ▸ hplaces⟩
  refine ⟨hvalues, fun hrows v hv => ?_, hs.references_settled_iff⟩
  rcases hvalues v hv with hsettled | ⟨tree, htree, leaf, hleaf, places, hne, hplaces⟩
  · exact hsettled
  · exact hrows tree htree leaf hleaf places v.value hne hplaces

/-- A row inside a row, and an overlay that refers to it and to a caller's function. -/
def nestedShades : List Value :=
  [.map [(.text "gray", .list [.text "a", .list [.text "b"]])],
    .map [(.text "muted", .ref "gray.1"), (.text "late", .function "late" .again)]]

theorem run_settled_nested :
    let ops : List Operation := [.addAll nestedShades, .finalize]
    let s := (empty "light" "colors" true).run ops
    (∀ tree ∈ ops.flatMap Operation.trees, ∀ leaf ∈ treeLeaves tree, ∀ w, leaf.2 ≠ .literal w) ∧
      s.names = ["colors-gray", "colors-muted", "colors-late"] ∧
      ∀ v ∈ s.toList, v.value.IsSettled := by
  intro ops s
  have hleaves : ∀ tree ∈ ops.flatMap Operation.trees, ∀ leaf ∈ treeLeaves tree,
      leaf.2 = .list [.text "a", .list [.text "b"]] ∨ leaf.2 = .ref "gray.1" ∨
        leaf.2 = .function "late" .again := by
    have hall : (ops.flatMap Operation.trees).flatMap treeLeaves =
        [(["gray"], .list [.text "a", .list [.text "b"]]), (["muted"], .ref "gray.1"),
          (["late"], .function "late" .again)] := by rfl
    intro tree htree leaf hleaf
    have hmem := List.mem_flatMap.mpr ⟨tree, htree, hleaf⟩
    rw [hall] at hmem
    simp only [List.mem_cons, List.not_mem_nil, or_false] at hmem
    rcases hmem with rfl | rfl | rfl <;> simp
  have hwrapped : ∀ tree ∈ ops.flatMap Operation.trees, ∀ leaf ∈ treeLeaves tree, ∀ w,
      leaf.2 ≠ .literal w := by
    intro tree htree leaf hleaf w
    rcases hleaves tree htree leaf hleaf with h | h | h <;> simp [h]
  have hrow : ∀ places x, indexInto? (.list [.text "a", .list [.text "b"]]) places = some x →
      x.IsSettled := by
    intro places x hx
    have hfound : x = .list [.text "a", .list [.text "b"]] ∨ x = .text "a" ∨
        x = .list [.text "b"] ∨ x = .text "b" := by
      refine indexInto?_preserves (P := fun v => v = .list [.text "a", .list [.text "b"]] ∨
        v = .text "a" ∨ v = .list [.text "b"] ∨ v = .text "b") ?_ (Or.inl rfl) hx
      rintro v xs y (rfl | rfl | rfl | rfl) (he | he) hy <;> cases he <;> simp at hy <;> tauto
    rcases hfound with rfl | rfl | rfl | rfl <;> trivial
  obtain ⟨-, hvalues, -⟩ := run_settled "light" "colors" true ops hwrapped
  refine ⟨hwrapped, by rfl, hvalues fun tree htree leaf hleaf places x hne hx => ?_⟩
  rcases hleaves tree htree leaf hleaf with h | h | h
  · rw [h] at hx
    exact hrow places x hx
  · cases places with
    | nil => exact absurd rfl hne
    | cons segment rest => simp [h, indexInto?] at hx
  · cases places with
    | nil => exact absurd rfl hne
    | cons segment rest => simp [h, indexInto?] at hx

/-- A row that holds a reference, a mapping and a caller's function, and references to each. -/
def mixedRow : Value :=
  .map [(.text "base", .text "#fff"),
    (.text "row", .list [.ref "base", .map [(.text "x", .int 1)], .function "late" .again]),
    (.text "first", .ref "row.0"), (.text "second", .ref "row.1"), (.text "third", .ref "row.2")]

/-- What a reference takes from a row is stored as the row holds it: not resolved, not refused and not
deferred. -/
theorem run_stores_unsettled :
    let s := (empty "light" "colors" true).run [.add mixedRow]
    (∀ leaf ∈ treeLeaves mixedRow, ∀ w, leaf.2 ≠ .literal w) ∧
      s.get? "colors-first" =
        some ⟨"colors-first", .ref "base", ["first"], "light"⟩ ∧
      s.get? "colors-second" =
        some ⟨"colors-second", .map [(.text "x", .int 1)], ["second"], "light"⟩ ∧
      s.get? "colors-third" =
        some ⟨"colors-third", .function "late" .again, ["third"], "light"⟩ ∧
      ¬ ∀ v ∈ s.toList, v.value.IsSettled := by
  intro s
  have hfirst : s.get? "colors-first" =
      some ⟨"colors-first", .ref "base", ["first"], "light"⟩ := by rfl
  refine ⟨?_, hfirst, by rfl, by rfl, fun hall => hall _ (mem_of_get? hfirst).1⟩
  simp [mixedRow, treeLeaves, leavesOf, leavesAt]

end VariableSet

end DesignTokens
