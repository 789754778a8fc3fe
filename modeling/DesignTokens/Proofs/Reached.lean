import DesignTokens.Proofs.Shadowing

/-! The sets that building operations reach. A single insertion either stores one value or changes
nothing, so whatever stores and finalization keep holds after every run of operations, also after
runs in which some of them failed. In particular every reached set is coherent. -/
namespace DesignTokens

mutual

theorem leavesAt_prefix (path : List String) (v : Value) :
    ∀ leaf ∈ leavesAt path v, path <+: leaf.1 := by
  intro leaf h
  cases v with
  | map es =>
    rw [leavesAt] at h
    exact (leavesOf_inside path es leaf h).1
  | group cs =>
    rw [leavesAt] at h
    exact (leavesOf_inside path cs leaf h).1
  | _ => simp_all [leavesAt]

/-- The leaves of a group lie inside its path. -/
theorem leavesOf_inside (path : List String) (es : List (Value × Value)) :
    ∀ leaf ∈ leavesOf path es, Inside leaf.1 path := by
  intro leaf h
  match es with
  | [] => simp [leavesOf] at h
  | (k, v) :: rest =>
    rw [leavesOf, List.mem_append] at h
    rcases h with h | h
    · have hp := leavesAt_prefix (path ++ [k.plain]) v leaf h
      have hl := hp.length_le
      refine inside_iff_length.mpr ⟨?_, (List.prefix_append _ _).trans hp⟩
      simp only [List.length_append, List.length_singleton] at hl
      omega
    · exact leavesOf_inside path rest leaf h

end

/-- Whether a value is no group, in either form. -/
def Value.IsLeaf (v : Value) : Prop := (∀ es, v ≠ .map es) ∧ ∀ cs, v ≠ .group cs

mutual

theorem leavesAt_isLeaf (path : List String) (v : Value) :
    ∀ leaf ∈ leavesAt path v, leaf.2.IsLeaf := by
  intro leaf h
  cases v with
  | map es =>
    rw [leavesAt] at h
    exact leavesOf_isLeaf path es leaf h
  | group cs =>
    rw [leavesAt] at h
    exact leavesOf_isLeaf path cs leaf h
  | _ => simp_all [leavesAt, Value.IsLeaf]

/-- The values of leaves are no groups. -/
theorem leavesOf_isLeaf (path : List String) (es : List (Value × Value)) :
    ∀ leaf ∈ leavesOf path es, leaf.2.IsLeaf := by
  intro leaf h
  match es with
  | [] => simp [leavesOf] at h
  | (k, v) :: rest =>
    rw [leavesOf, List.mem_append] at h
    rcases h with h | h
    · exact leavesAt_isLeaf (path ++ [k.plain]) v leaf h
    · exact leavesOf_isLeaf path rest leaf h

end

theorem leaf_path_ne_nil {es : List (Value × Value)} {leaf : Leaf} (h : leaf ∈ leavesOf [] es) :
    leaf.1 ≠ [] := inside_ne_nil (leavesOf_inside [] es leaf h)

namespace VariableSet

/-- A building operation. -/
inductive Operation where
  | add (tree : Value)
  | addAll (trees : List Value)
  | finalize

/-- The set after an operation, whether it failed or not. -/
def perform (s : VariableSet) : Operation → VariableSet
  | .add tree => (s.add tree).set
  | .addAll trees => (s.addAll trees).set
  | .finalize => s.finalize

/-- The set after a row of operations. -/
def run (s : VariableSet) (ops : List Operation) : VariableSet := ops.foldl perform s

/-- The warnings after a leaf has been met. -/
def Flattening.warned (f : Flattening) (leaf : Leaf) : List Warning :=
  if f.seen.contains (f.set.nameAt leaf.1) then
    f.warnings ++ [.declaredTwice (f.set.nameAt leaf.1) f.set.mode]
  else f.warnings

theorem mem_leavesOf_of_readable {es : List (Value × Value)} {leaf : Leaf}
    (h : leaf ∈ readableLeaves es) : leaf ∈ leavesOf [] es := by
  unfold readableLeaves at h
  split at h
  · exact h
  · exact List.mem_of_mem_take h

theorem readableLeaves_eq {es : List (Value × Value)} (h : textlessAmong? es = none) :
    readableLeaves es = leavesOf [] es := by
  rw [readableLeaves, h]

namespace Flattening

variable (f : Flattening) (es : List (Value × Value))

@[simp] theorem insertTree_fst : (f.insertTree es).1 = (f.insertAll (readableLeaves es)).1 := by
  unfold insertTree
  split
  · next he => rw [he]
  · rfl

theorem insertTree_of_accepted {f : Flattening} {es : List (Value × Value)}
    (h : (f.insertAll (readableLeaves es)).2 = none) :
    (f.insertTree es).2 = (textlessAmong? es).map fun _ => .value .unwritableInteger := by
  have hpair : f.insertAll (readableLeaves es) = ((f.insertAll (readableLeaves es)).1, none) :=
    Prod.ext rfl h
  rw [insertTree, hpair]
  cases textlessAmong? es <;> rfl

theorem insertTree_of_refused {f : Flattening} {es : List (Value × Value)} {failure : Failure}
    (h : (f.insertAll (readableLeaves es)).2 = some failure) :
    (f.insertTree es).2 = some failure := by
  have hpair : f.insertAll (readableLeaves es) =
      ((f.insertAll (readableLeaves es)).1, some failure) := Prod.ext rfl h
  rw [insertTree, hpair]

/-- A tree is inserted as a whole exactly if its keys have texts and its leaves are. -/
theorem insertTree_eq_none :
    (f.insertTree es).2 = none ↔
      textlessAmong? es = none ∧ (f.insertAll (leavesOf [] es)).2 = none := by
  cases h : (f.insertAll (readableLeaves es)).2 with
  | none =>
    rw [insertTree_of_accepted h, Option.map_eq_none_iff]
    exact ⟨fun hkeys => ⟨hkeys, readableLeaves_eq hkeys ▸ h⟩, And.left⟩
  | some failure =>
    rw [insertTree_of_refused h]
    refine ⟨nofun, fun ⟨hkeys, hnone⟩ => ?_⟩
    rw [readableLeaves_eq hkeys, hnone] at h
    cases h

end Flattening

/-- What the insertion of a leaf can do: refuse a repeated name, fail to resolve the value, or
store it. -/
theorem Flattening.insert_cases (f : Flattening) (leaf : Leaf) :
    (f.set.nameAt leaf.1 ∈ f.seen ∧ f.set.strict = true ∧
      f.insert leaf =
        (f, some (.of (.duplicateVariable (f.set.nameAt leaf.1) f.set.mode)))) ∨
    (¬ (f.set.nameAt leaf.1 ∈ f.seen ∧ f.set.strict = true) ∧
      ((∃ failure, f.set.resolve leaf.2 (f.set.nameAt leaf.1) = .error failure ∧
        f.insert leaf =
          (⟨f.set, f.set.nameAt leaf.1 :: f.seen, f.warned leaf⟩, some failure)) ∨
      (∃ value, f.set.resolve leaf.2 (f.set.nameAt leaf.1) = .ok value ∧
        f.insert leaf =
          (⟨f.set.store leaf.1 value, f.set.nameAt leaf.1 :: f.seen, f.warned leaf⟩, none)))) := by
  by_cases ha : f.set.nameAt leaf.1 ∈ f.seen ∧ f.set.strict = true
  · left
    simp [insert, ha]
  · right
    have hb : (f.seen.contains (f.set.nameAt leaf.1) && f.set.strict) = false := by
      simpa using ha
    refine ⟨ha, ?_⟩
    cases hr : f.set.resolve leaf.2 (f.set.nameAt leaf.1) with
    | error failure => exact Or.inl ⟨failure, rfl, by simp [insert, warned, ha, hr]⟩
    | ok value => exact Or.inr ⟨value, rfl, by simp [insert, warned, ha, hr]⟩

section Preservation

/-! A property that each store at a path keeps is kept by insertions, additions and runs. -/

variable {P : VariableSet → Prop}
  (hstore : ∀ s path value, P s → path ≠ [] → P (s.store path value))
include hstore

theorem Flattening.insert_preserves (f : Flattening) (leaf : Leaf) (hne : leaf.1 ≠ [])
    (h : P f.set) : P (f.insert leaf).1.set := by
  obtain ⟨-, -, he⟩ | ⟨-, ⟨failure, -, he⟩ | ⟨value, -, he⟩⟩ := f.insert_cases leaf
  · rwa [he]
  · rwa [he]
  · rw [he]
    exact hstore f.set leaf.1 value h hne

theorem Flattening.insertAll_preserves (f : Flattening) (leaves : List Leaf)
    (hne : ∀ leaf ∈ leaves, leaf.1 ≠ []) (h : P f.set) : P (f.insertAll leaves).1.set := by
  induction leaves generalizing f with
  | nil => exact h
  | cons leaf rest ih =>
    have hi := f.insert_preserves hstore leaf (hne leaf List.mem_cons_self) h
    rw [insertAll]
    split
    · next g he =>
      rw [he] at hi
      exact ih g (fun l hl => hne l (List.mem_cons_of_mem _ hl)) hi
    · exact hi

theorem add_preserves (s : VariableSet) (tree : Value) (h : P s) : P (s.add tree).set := by
  unfold add
  split
  · exact h
  · split
    · next es =>
      simp only [Flattening.insertTree_fst]
      exact Flattening.insertAll_preserves hstore _ _
        (fun _ hl => leaf_path_ne_nil (mem_leavesOf_of_readable hl)) h
    · exact h

theorem addAll_preserves (s : VariableSet) (trees : List Value) (h : P s) :
    P (s.addAll trees).set := by
  induction trees generalizing s with
  | nil => exact h
  | cons tree rest ih =>
    have ha := add_preserves hstore s tree h
    simp only [addAll]
    split
    · exact ha
    · exact ih _ ha

theorem run_preserves (hfinal : ∀ s, P s → P s.finalize) (s : VariableSet) (ops : List Operation)
    (h : P s) : P (s.run ops) := by
  induction ops generalizing s with
  | nil => exact h
  | cons op rest ih =>
    apply ih
    cases op with
    | add tree => exact add_preserves hstore s tree h
    | addAll trees => exact addAll_preserves hstore s trees h
    | finalize => exact hfinal s h

end Preservation

theorem Coherent.finalize {s : VariableSet} (h : s.Coherent) : s.finalize.Coherent :=
  ⟨h.names_nodup, h.name_eq, h.path_ne_nil, h.mode_eq, h.not_inside, h.groups_mem⟩

theorem Coherent.insertAll {f : Flattening} (h : f.set.Coherent) {leaves : List Leaf}
    (hne : ∀ leaf ∈ leaves, leaf.1 ≠ []) : (f.insertAll leaves).1.set.Coherent :=
  f.insertAll_preserves (fun _ _ value hs hp => hs.store hp value) leaves hne h

theorem Coherent.run {s : VariableSet} (h : s.Coherent) (ops : List Operation) :
    (s.run ops).Coherent :=
  run_preserves (fun _ _ value hs hp => hs.store hp value) (fun _ hs => hs.finalize) s ops h

theorem run_mode_typePrefix (s : VariableSet) (ops : List Operation) :
    (s.run ops).mode = s.mode ∧ (s.run ops).typePrefix = s.typePrefix :=
  run_preserves (P := fun t => t.mode = s.mode ∧ t.typePrefix = s.typePrefix)
    (fun _ _ _ ht _ => ht) (fun _ ht => ht) s ops ⟨rfl, rfl⟩

/-- The representation invariant. After any run of operations on a fresh set each variable stands
under the name of its own non-empty path and paths are not nested; a path that was never a group
has nothing inside it; and each store of an addition finds every name that it deletes, one after
the other. An addition of several trees passes through the sets after its first trees, which are
sets of such runs themselves. -/
theorem run_representation (mode typePrefix : String) (strict : Bool) (ops : List Operation) :
    let s := (empty mode typePrefix strict).run ops
    s.Coherent ∧
    (∀ v ∈ s.toList, v.mode = mode ∧ s.get? (fullName typePrefix v.path) = some v) ∧
    (∀ path, path ≠ [] → path ∉ s.groups →
      s.toList.filter (fun v => path.length < v.path.length && path.isPrefixOf v.path) = []) ∧
    ∀ es n leaf, (leavesOf [] es)[n]? = some leaf →
      let t := (Flattening.insertAll ⟨s, [], []⟩ ((leavesOf [] es).take n)).1.set
      t.Coherent ∧ ∃ kept, deleteAll? (t.shadowedBy leaf.1) t.toList = some kept ∧
        ∀ value, (t.store leaf.1 value).toList =
          putVariable ⟨t.nameAt leaf.1, value, leaf.1, t.mode⟩ kept := by
  intro s
  have hs : s.Coherent := (empty_coherent mode typePrefix strict).run ops
  obtain ⟨hmode, htype⟩ := run_mode_typePrefix (empty mode typePrefix strict) ops
  refine ⟨hs, fun v hv => ⟨(hs.mode_eq v hv).trans hmode, ?_⟩, fun path hp hg =>
    hs.scan_eq_nil hp hg, fun es n leaf hleaf => ?_⟩
  · have hg := hs.get?_nameAt hv
    rwa [nameAt, htype] at hg
  · have hpaths : ∀ l ∈ (leavesOf [] es).take n, l.1 ≠ [] := fun l hl =>
      leaf_path_ne_nil (List.mem_of_mem_take hl)
    have ht := Coherent.insertAll (f := ⟨s, [], []⟩) hs hpaths
    have hne : leaf.1 ≠ [] := leaf_path_ne_nil (List.mem_of_getElem? hleaf)
    exact ⟨ht, _, ht.deleteAll?_shadowedBy hne, fun value => ht.store_toList hne⟩

end VariableSet

end DesignTokens
