import DesignTokens.Proofs.Arrangement
import DesignTokens.Proofs.Splitting
import DesignTokens.Proofs.Walking

/-! References that are resolved at once against looking them up in the tree later. Where segments
hold no dots, a reference leads to the variable whose path its own path begins with, and from there
into rows; a walk over the tree passes the same variable and takes the same places. -/
namespace DesignTokens

/-- A segment that spells an integer with digits and a sign only if the sign is a minus, without
underscores and white space. -/
def IsPlainPlace (segment : String) : Prop :=
  (Number.readInt? segment).isSome = true →
    ∀ c ∈ segment.toList, c ≠ '+' ∧ c ≠ '_' ∧ Text.isBlank c = false

instance (segment : String) : Decidable (IsPlainPlace segment) :=
  @instDecidableForall _ _ _ (List.decidableBAll _ _)

namespace Number

theorem leadingSign_of_not_mem {cs : List Char} (h : '+' ∉ cs) :
    cs = '-' :: (leadingSign cs).2 ∨ cs = (leadingSign cs).2 := by
  unfold leadingSign
  split
  · exact Or.inl rfl
  · simp at h
  · exact Or.inr rfl

end Number

/-- What is read as an integer in plain spelling looks like a place in a row. -/
theorem looksLikePlace_of_readInt? {segment : String} {i : Int} (hplain : IsPlainPlace segment)
    (h : Number.readInt? segment = some i) : looksLikePlace segment = true := by
  have hclean := hplain (by simp [h])
  have hsign : '+' ∉ segment.toList := fun hc => (hclean _ hc).1 rfl
  have hline : '_' ∉ segment.toList := fun hc => (hclean _ hc).2.1 rfl
  obtain ⟨negative, cs, ds, hlead, hne, hds, -, -⟩ :=
    (Number.readInt?_eq_some_of_clean (fun c hc => (hclean c hc).2.2) hline).mp h
  have hdigits := (Number.digits_of_leadingDigits (Number.leadingDigits_eq_iff.mpr hds)).2
  have hlike : ∀ c ∈ cs, Text.isDigitLike c = true := fun c hc => by
    simp [Text.isDigitLike, hdigits c hc]
  rw [looksLikePlace_iff]
  rcases Number.leadingSign_of_not_mem hsign with hminus | hnone
  · exact ⟨1, cs, by simpa [hlead] using hminus, hne, hlike⟩
  · exact ⟨0, cs, by simpa [hlead] using hnone, hne, hlike⟩

/-- A value that is a mapping, or a row that holds one at any depth. -/
inductive HoldsMapping : Value → Prop where
  | map (es : List (Value × Value)) : HoldsMapping (.map es)
  | list {xs : List Value} {x : Value} (hmem : x ∈ xs) (h : HoldsMapping x) :
      HoldsMapping (.list xs)
  | tuple {xs : List Value} {x : Value} (hmem : x ∈ xs) (h : HoldsMapping x) :
      HoldsMapping (.tuple xs)

@[simp] theorem not_holdsMapping_text (s : String) : ¬ HoldsMapping (.text s) := nofun

@[simp] theorem holdsMapping_list {xs : List Value} :
    HoldsMapping (.list xs) ↔ ∃ x ∈ xs, HoldsMapping x := by
  constructor
  · rintro (_ | ⟨hmem, h⟩)
    exact ⟨_, hmem, h⟩
  · rintro ⟨x, hmem, h⟩
    exact .list hmem h

theorem mem_of_itemAt? {xs : List Value} {i : Int} {x : Value} (h : itemAt? xs i = some x) :
    x ∈ xs := by
  obtain ⟨n, hn, -⟩ := itemAt?_eq_some.mp h
  exact List.mem_of_getElem? hn

@[simp] theorem indexInto?_nil (v : Value) : VariableSet.indexInto? v [] = some v := rfl

theorem indexInto?_cons_eq_some {v x : Value} {segment : String} {rest : List String} :
    VariableSet.indexInto? v (segment :: rest) = some x ↔
      ∃ xs i y, (v = .list xs ∨ v = .tuple xs) ∧ Number.readInt? segment = some i ∧
        itemAt? xs i = some y ∧ VariableSet.indexInto? y rest = some x := by
  constructor
  · intro h
    unfold VariableSet.indexInto? at h
    split at h
    · next xs i hi =>
      obtain ⟨y, hy, h⟩ := Option.bind_eq_some_iff.mp h
      exact ⟨xs, i, y, Or.inl rfl, hi, hy, h⟩
    · next xs i hi =>
      obtain ⟨y, hy, h⟩ := Option.bind_eq_some_iff.mp h
      exact ⟨xs, i, y, Or.inr rfl, hi, hy, h⟩
    · cases h
  · rintro ⟨xs, i, y, rfl | rfl, hi, hy, h⟩ <;> unfold VariableSet.indexInto? <;> simp [hi, hy, h]

section Rows

variable {dotted : String}

/-- Places that lead into rows are steps of a walk. -/
theorem steps_of_indexInto? {v x : Value} {segments : List String}
    (hplain : ∀ segment ∈ segments, IsPlainPlace segment)
    (h : VariableSet.indexInto? v segments = some x) :
    segments.foldlM (step dotted) v = .ok x := by
  induction segments generalizing v with
  | nil => simpa [pure, Except.pure] using h
  | cons segment rest ih =>
    have hrest := fun s hs => hplain s (List.mem_cons_of_mem segment hs)
    rw [List.foldlM_cons, bind_eq_ok]
    obtain ⟨xs, i, y, hv, hi, hy, h⟩ := indexInto?_cons_eq_some.mp h
    have hplace := looksLikePlace_of_readInt? (hplain segment List.mem_cons_self) hi
    refine ⟨y, ?_, ih hrest h⟩
    rcases hv with rfl | rfl <;> simp [step, hplace, hi, hy]

/-- A step from a row takes the item at the place that the segment spells. -/
theorem step_eq_ok {v y : Value} {segment : String} (h : step dotted v segment = .ok y) :
    (∃ es, v = .map es ∧ Value.entry? segment es = some y) ∨
      ∃ xs i, (v = .list xs ∨ v = .tuple xs) ∧ Number.readInt? segment = some i ∧
        itemAt? xs i = some y := by
  cases step_eq_ok_iff.mp h with
  | entry hentry => exact Or.inl ⟨_, rfl, hentry⟩
  | item hrow hspells hitem =>
    exact Or.inr ⟨_, _, hrow, (spells_iff.mp hspells).2, itemAt?_eq_some.mpr hitem⟩

/-- A walk that meets no mapping goes from row to row, by places. -/
theorem indexInto?_of_steps {v x : Value} {segments : List String} (hv : ¬ HoldsMapping v)
    (h : segments.foldlM (step dotted) v = .ok x) :
    VariableSet.indexInto? v segments = some x := by
  induction segments generalizing v with
  | nil => simpa [pure, Except.pure] using h
  | cons segment rest ih =>
    rw [List.foldlM_cons, bind_eq_ok] at h
    obtain ⟨y, hy, h⟩ := h
    rcases step_eq_ok hy with ⟨es, rfl, -⟩ | ⟨xs, i, rfl | rfl, hi, hitem⟩
    · exact absurd (.map es) hv
    · have hrest := ih (fun hy => hv (.list (mem_of_itemAt? hitem) hy)) h
      exact indexInto?_cons_eq_some.mpr ⟨xs, i, y, Or.inl rfl, hi, hitem, hrest⟩
    · have hrest := ih (fun hy => hv (.tuple (mem_of_itemAt? hitem) hy)) h
      exact indexInto?_cons_eq_some.mpr ⟨xs, i, y, Or.inr rfl, hi, hitem, hrest⟩

/-- A walk along keys of mappings takes the steps that the keys spell. -/
theorem steps_of_at? {v x : Value} {path : List String} (h : v.at? path = some x) :
    path.foldlM (step dotted) v = .ok x := by
  induction path generalizing v with
  | nil => simpa [Value.at?, pure, Except.pure] using h
  | cons k rest ih =>
    rw [List.foldlM_cons, bind_eq_ok]
    unfold Value.at? at h
    split at h
    · simp_all
    · next es k' rest' he =>
      obtain ⟨rfl, rfl⟩ := List.cons.inj he
      obtain ⟨y, hy, h⟩ := Option.bind_eq_some_iff.mp h
      exact ⟨y, by simp [step, hy], ih h⟩
    · cases h

/-- A walk through an arrangement that ends outside its groups passes a leaf. -/
theorem Arranged.leaf_of_steps {ls : List Leaf} {tree x : Value} {segments : List String}
    (h : Arranged ls tree) (hx : ∀ es, x ≠ .map es)
    (hsteps : segments.foldlM (step dotted) tree = .ok x) :
    ∃ leaf ∈ ls, ∃ rest, segments = leaf.1 ++ rest ∧
      rest.foldlM (step dotted) leaf.2 = .ok x := by
  induction segments generalizing ls tree with
  | nil =>
    cases h with
    | leaf => exact ⟨_, List.mem_singleton_self _, [], rfl, hsteps⟩
    | group =>
      cases hsteps
      exact absurd rfl (hx _)
  | cons k rest ih =>
    cases h with
    | leaf => exact ⟨_, List.mem_singleton_self _, k :: rest, rfl, hsteps⟩
    | group hpath hkeys hinner =>
      -- A group is left by a key only, and the walk goes on among the leaves beneath it.
      rw [List.foldlM_cons, bind_eq_ok] at hsteps
      obtain ⟨y, hy, hsteps⟩ := hsteps
      rcases step_eq_ok hy with ⟨es, he, hentry⟩ | ⟨xs, i, he | he, -⟩
      · cases he
        have hmem := Value.mem_of_entry?_eq_some hentry
        obtain ⟨⟨path, v⟩, hleaf, tail, rfl, htail⟩ := ih (hinner k y hmem) hsteps
        exact ⟨(k :: path, v), mem_beneath.mp hleaf, tail, by simp, htail⟩
      · cases he
      · cases he

end Rows

namespace VariableSet

variable {s : VariableSet} {v : Variable} {x : Value} {dotted referrer : String}

/-- Variables are told apart by names as well as by paths, if paths hold no dots. -/
theorem Coherent.path_of_get? (h : s.Coherent) (hdots : ∀ v ∈ s.toList, DotFree v.path)
    {path : List String} (hp : path ≠ []) (hpath : DotFree path)
    (hget : s.get? (s.nameAt path) = some v) : v ∈ s.toList ∧ v.path = path := by
  obtain ⟨hv, hname⟩ := mem_of_get? hget
  rw [h.name_eq v hv] at hname
  exact ⟨hv, fullName_inj (h.path_ne_nil v hv) hp (hdots v hv) hpath hname⟩

/-- The variable on the way to a path, if there is one, and what is left of the path. -/
theorem Coherent.base?_eq_some (h : s.Coherent) (hdots : ∀ v ∈ s.toList, DotFree v.path)
    {segments rest : List String} (hsegments : DotFree segments)
    (hbase : s.base? segments = some (v, rest)) :
    v ∈ s.toList ∧ segments = v.path ++ rest := by
  obtain ⟨start, hstart, hget⟩ := List.exists_of_findSome?_eq_some hbase
  obtain ⟨hne, hinside⟩ := mem_properPrefixes.mp (List.mem_reverse.mp hstart)
  obtain ⟨w, hw, he⟩ := Option.map_eq_some_iff.mp hget
  cases he
  have hfree : DotFree start := fun seg hseg => hsegments seg (hinside.1.subset hseg)
  obtain ⟨hmem, rfl⟩ := h.path_of_get? hdots hne hfree hw
  exact ⟨hmem, (List.prefix_iff_eq_append.mp hinside.1).symm⟩

theorem Coherent.eq_of_prefix (h : s.Coherent) {w : Variable} {path : List String}
    (hv : v ∈ s.toList) (hw : w ∈ s.toList) (hpv : v.path <+: path) (hpw : w.path <+: path) :
    v = w := by
  have hpath : v.path = w.path := by
    by_contra hne
    rcases List.prefix_or_prefix_of_prefix hpv hpw with hp | hp
    · exact h.not_inside w hw v hv ⟨hp, hne⟩
    · exact h.not_inside v hv w hw ⟨hp, Ne.symm hne⟩
  exact h.eq_of_name_eq hv hw (by rw [h.name_eq v hv, h.name_eq w hw, hpath])

/-- A reference has a value exactly if its path begins with that of a variable whose value the rest
of it leads into. -/
theorem Coherent.resolveReference_eq_ok (h : s.Coherent)
    (hdots : ∀ v ∈ s.toList, DotFree v.path) :
    s.resolveReference dotted referrer = .ok x ↔
      ∃ v ∈ s.toList, ∃ rest, splitPath dotted = v.path ++ rest ∧
        indexInto? v.value rest = some x := by
  have hne := splitPath_ne_nil dotted
  have hfree := splitPath_dotFree dotted
  unfold resolveReference
  dsimp only
  constructor
  · intro hok
    split at hok
    · next v hget =>
      cases hok
      obtain ⟨hv, hpath⟩ := h.path_of_get? hdots hne hfree hget
      exact ⟨v, hv, [], by simp [hpath], rfl⟩
    · split at hok
      · cases hok
      · next v rest hbase =>
        obtain ⟨hv, hsplit⟩ := h.base?_eq_some hdots hfree hbase
        split at hok
        · next hindex =>
          cases hok
          exact ⟨v, hv, rest, hsplit, hindex⟩
        · cases hok
  · intro hok
    obtain ⟨v, hv, rest, hsplit, hindex⟩ := hok
    -- No path of a variable lies inside another, so whatever the search finds on the way is `v`.
    have hprefix : v.path <+: splitPath dotted := ⟨rest, hsplit.symm⟩
    split
    · next w hget =>
      obtain ⟨hw, hpath⟩ := h.path_of_get? hdots hne hfree hget
      obtain rfl := h.eq_of_prefix hv hw hprefix (hpath ▸ List.prefix_rfl)
      obtain rfl : rest = [] := by simpa [hpath] using hsplit
      simpa using hindex
    · next hget =>
      have hrest : rest ≠ [] := by
        rintro rfl
        rw [hsplit, List.append_nil, h.get?_nameAt hv] at hget
        cases hget
      have hbase : (s.base? (splitPath dotted)).isSome = true := by
        rw [base?, List.findSome?_isSome_iff]
        refine ⟨v.path, List.mem_reverse.mpr (mem_properPrefixes.mpr ⟨h.path_ne_nil v hv,
          inside_iff_append.mpr ⟨rest, hrest, hsplit⟩⟩), ?_⟩
        simp [h.get?_nameAt hv]
      obtain ⟨⟨w, rest'⟩, hsome⟩ := Option.isSome_iff_exists.mp hbase
      obtain ⟨hw, hsplit'⟩ := h.base?_eq_some hdots hfree hsome
      obtain rfl := h.eq_of_prefix hv hw hprefix ⟨rest', hsplit'.symm⟩
      obtain rfl : rest = rest' := List.append_cancel_left (hsplit.symm.trans hsplit')
      simp [hsome, hindex]

/-- Resolving a reference at once agrees with looking it up in the tree, in every set that a run of
operations on a fresh set reaches and whose paths hold no dots. What a reference resolves to is found
in the tree, if the segments that spell integers do so plainly; and if no variable holds a mapping,
what is found in the tree and is no group is what the reference resolves to. -/
theorem run_resolve_lookup (mode typePrefix : String) (strict : Bool) (ops : List Operation)
    (dotted : String)
    (hdots : ∀ v ∈ ((empty mode typePrefix strict).run ops).toList, DotFree v.path)
    (hplain : ∀ segment ∈ splitPath dotted, IsPlainPlace segment) :
    let s := (empty mode typePrefix strict).run ops
    ∃ theme, s.tree = .ok theme ∧
      (∀ referrer x, s.resolveReference dotted referrer = .ok x → lookup theme dotted = .ok x) ∧
      ((∀ v ∈ s.toList, ¬ HoldsMapping v.value) → ∀ referrer x, lookup theme dotted = .ok x →
        (∀ es, x ≠ .map es) → s.resolveReference dotted referrer = .ok x) := by
  intro s
  have hs : s.Coherent := (empty_coherent mode typePrefix strict).run ops
  obtain ⟨es, htree, harr⟩ := hs.tree
  refine ⟨.map es, htree, fun referrer x hok => ?_, fun hvalues referrer x hlookup hx => ?_⟩
  · obtain ⟨v, hv, rest, hsplit, hindex⟩ := (hs.resolveReference_eq_ok hdots).mp hok
    have hat : (Value.map es).at? v.path = some v.value :=
      harr.at?_eq (List.mem_map.mpr ⟨v, hv, rfl⟩)
    rw [lookup, hsplit, List.foldlM_append, steps_of_at? hat]
    exact steps_of_indexInto? (fun seg hseg => hplain seg (by simp [hsplit, hseg])) hindex
  · obtain ⟨leaf, hleaf, rest, hsplit, hsteps⟩ := harr.leaf_of_steps hx hlookup
    obtain ⟨v, hv, rfl⟩ := List.mem_map.mp hleaf
    exact (hs.resolveReference_eq_ok hdots).mpr
      ⟨v, hv, rest, hsplit, indexInto?_of_steps (hvalues v hv) hsteps⟩

/-- A scale whose last step is a row of its own. -/
def nestedScale : Value :=
  .map [(.text "scale", .map [(.text "gray", .list [.text "a", .list [.text "b", .text "c"]])])]

/-- A place counted from the end, and one inside the row that it leads to. -/
theorem run_resolve_lookup_nested :
    let s := (empty "light" "colors" true).run [.add nestedScale, .finalize]
    (∀ v ∈ s.toList, DotFree v.path) ∧
      (∀ segment ∈ splitPath "scale.gray.-1.0", IsPlainPlace segment) ∧
      (∀ v ∈ s.toList, ¬ HoldsMapping v.value) ∧
      ∃ theme, s.tree = .ok theme ∧ lookup theme "scale.gray.-1.0" = .ok (.text "b") ∧
        ∀ referrer, s.resolveReference "scale.gray.-1.0" referrer = .ok (.text "b") := by
  intro s
  have hresolved : s.resolveReference "scale.gray.-1.0" "colors-x" = .ok (.text "b") := by rfl
  have hdots : ∀ v ∈ s.toList, DotFree v.path := by decide
  have hplain : ∀ segment ∈ splitPath "scale.gray.-1.0", IsPlainPlace segment := by decide
  have hvalues : ∀ v ∈ s.toList, ¬ HoldsMapping v.value := by
    have hlist : s.toList.map (·.value) =
        [.list [.text "a", .list [.text "b", .text "c"]]] := by rfl
    intro v hv
    have hvalue : v.value ∈ s.toList.map (·.value) := List.mem_map.mpr ⟨v, hv, rfl⟩
    rw [hlist, List.mem_singleton] at hvalue
    simp [hvalue]
  obtain ⟨theme, htree, hfound, hresolves⟩ := run_resolve_lookup "light" "colors" true
    [.add nestedScale, .finalize] "scale.gray.-1.0" hdots hplain
  have hlookup := hfound _ _ hresolved
  exact ⟨hdots, hplain, hvalues, theme, htree, hlookup,
    fun referrer => hresolves hvalues referrer _ hlookup nofun⟩

end VariableSet

end DesignTokens
