import DesignTokens.Proofs.Arrangement
import DesignTokens.Proofs.LastWriter
import DesignTokens.Proofs.Splitting

/-! Overlays as a merge of trees. Where keys are texts without dots and leaves stand for themselves,
storing the leaves of an overlay one by one, with all that each of them drops, comes to the same as
merging the overlay into the tree of the ones before it, group by group. Both are followed leaf by
leaf: the merge puts each leaf at its path, and the variables and the merged tree always hold the
same leaves. -/
namespace DesignTokens

namespace Value

/-- A value that stands for itself: a scalar, a row or a deferred value. -/
def IsSettled : Value → Prop
  | .map _ => False
  | .group _ => False
  | .ref _ => False
  | .function _ _ => False
  | .literal _ => False
  | _ => True

/-- Keys that are texts without dots, none of them twice. -/
def HasPlainKeys (es : List (Value × Value)) : Prop :=
  (es.map (·.1)).Nodup ∧ ∀ e ∈ es, ∃ k, e.1 = .text k ∧ '.' ∉ k.toList

/-- A tree with plain keys at every level, whose leaves stand for themselves. -/
inductive IsPlainTree : Value → Prop where
  | leaf {v : Value} (h : v.IsSettled) : IsPlainTree v
  | map {es : List (Value × Value)} (hkeys : HasPlainKeys es) (h : ∀ e ∈ es, IsPlainTree e.2) :
      IsPlainTree (.map es)
  | group {cs : List (Value × Value)} (hkeys : HasPlainKeys cs) (h : ∀ e ∈ cs, IsPlainTree e.2) :
      IsPlainTree (.group cs)

/-- Equality as nested mappings: the same keys in any order, and under each key the same. -/
inductive Alike : Value → Value → Prop where
  | refl (v : Value) : Alike v v
  | map {es es' : List (Value × Value)} (hkeys : (es.map (·.1)).Perm (es'.map (·.1)))
      (hinner : ∀ k x y, (k, x) ∈ es → (k, y) ∈ es' → Alike x y) : Alike (.map es) (.map es')

mutual

/-- Whether a value is a leaf or a group that contains one. -/
def hasLeaf : Value → Bool
  | .map es => anyHasLeaf es
  | .group cs => anyHasLeaf cs
  | _ => true

/-- Whether any entry is a leaf or contains one. -/
def anyHasLeaf : List (Value × Value) → Bool
  | [] => false
  | (_, v) :: rest => hasLeaf v || anyHasLeaf rest

end

/-- The entries of the group under a key. There are none if a leaf or nothing stands there. -/
def groupUnder (k : String) (es : List (Value × Value)) : List (Value × Value) :=
  match entry? k es with
  | some (.map inner) => inner
  | _ => []

mutual

/-- Merges a later value into what stands under a key. A leaf replaces it; a group with leaves takes
the place of a leaf and is merged into a group; a group without leaves changes nothing. -/
def mergeUnder (k : String) (es : List (Value × Value)) : Value → List (Value × Value)
  | .map later =>
    if anyHasLeaf later then
      insertEntry (.text k) (.map (mergeEntries (groupUnder k es) later)) es
    else es
  | .group later =>
    if anyHasLeaf later then
      insertEntry (.text k) (.map (mergeEntries (groupUnder k es) later)) es
    else es
  | v => insertEntry (.text k) v es

/-- Merges later entries into a mapping. -/
def mergeEntries (es : List (Value × Value)) : List (Value × Value) → List (Value × Value)
  | [] => es
  | (k, v) :: rest => mergeEntries (mergeUnder k.plain es v) rest

end

/-- Puts a leaf at a path. What stands above it becomes a group, what stands inside it is lost. -/
def setAt (v : Value) : List String → List (Value × Value) → List (Value × Value)
  | [], es => es
  | [k], es => insertEntry (.text k) v es
  | k :: rest, es => insertEntry (.text k) (.map (setAt v rest (groupUnder k es))) es

/-- Puts leaves at their paths, one after the other. -/
def setAll (es : List (Value × Value)) (ls : List Leaf) : List (Value × Value) :=
  ls.foldl (fun es l => setAt l.2 l.1 es) es

theorem IsSettled.ne_map {v : Value} (h : v.IsSettled) (es : List (Value × Value)) :
    v ≠ .map es := by
  rintro rfl
  exact h

theorem entry?_insertEntry_self (k : String) (x : Value) (es : List (Value × Value)) :
    entry? k (insertEntry (.text k) x es) = some x := by
  induction es with
  | nil => simp [insertEntry, entry?]
  | cons e rest ih =>
    rw [insertEntry]
    split
    · next hk => rw [Value.entry?, if_pos hk]
    · next hk => rw [Value.entry?, if_neg hk, ih]

theorem insertEntry_insertEntry (k : String) (x y : Value) (es : List (Value × Value)) :
    insertEntry (.text k) y (insertEntry (.text k) x es) = insertEntry (.text k) y es := by
  induction es with
  | nil => simp [insertEntry]
  | cons e rest ih =>
    obtain ⟨key, v⟩ := e
    by_cases hk : sameKey key (.text k) = true
    · simp [insertEntry, hk]
    · simp [insertEntry, hk, ih]

@[simp] theorem groupUnder_insertEntry (k : String) (inner es : List (Value × Value)) :
    groupUnder k (insertEntry (.text k) (.map inner) es) = inner := by
  simp [groupUnder, entry?_insertEntry_self]

theorem setAt_cons {rest : List String} (hrest : rest ≠ []) (v : Value) (k : String)
    (es : List (Value × Value)) :
    setAt v (k :: rest) es =
      insertEntry (.text k) (.map (setAt v rest (groupUnder k es))) es := by
  cases rest with
  | nil => exact absurd rfl hrest
  | cons l tail => rfl

end Value

open Value

/-- A leaf seen from one level above. -/
def under (k : String) (l : Leaf) : Leaf := (k :: l.1, l.2)

mutual

theorem leavesAt_cons (k : String) (path : List String) (v : Value) :
    leavesAt (k :: path) v = (leavesAt path v).map (under k) := by
  cases v with
  | map es => rw [leavesAt, leavesAt, leavesOf_cons k path es]
  | group cs => rw [leavesAt, leavesAt, leavesOf_cons k path cs]
  | _ => simp [leavesAt, under]

/-- The leaves of a group further down are the same leaves with longer paths. -/
theorem leavesOf_cons (k : String) (path : List String) (es : List (Value × Value)) :
    leavesOf (k :: path) es = (leavesOf path es).map (under k) := by
  match es with
  | [] => simp [leavesOf]
  | (key, v) :: rest =>
    rw [leavesOf, leavesOf, List.cons_append, leavesAt_cons k (path ++ [key.plain]) v,
      leavesOf_cons k path rest, List.map_append]

end

mutual

theorem hasLeaf_iff (path : List String) (v : Value) :
    hasLeaf v = true ↔ leavesAt path v ≠ [] := by
  cases v with
  | map es => rw [hasLeaf, leavesAt, anyHasLeaf_iff path es]
  | group cs => rw [hasLeaf, leavesAt, anyHasLeaf_iff path cs]
  | _ => simp [hasLeaf, leavesAt]

theorem anyHasLeaf_iff (path : List String) (es : List (Value × Value)) :
    anyHasLeaf es = true ↔ leavesOf path es ≠ [] := by
  match es with
  | [] => simp [anyHasLeaf, leavesOf]
  | (key, v) :: rest =>
    rw [anyHasLeaf, leavesOf, Bool.or_eq_true, hasLeaf_iff (path ++ [key.plain]) v,
      anyHasLeaf_iff path rest, ne_eq, ne_eq, ne_eq, List.append_eq_nil_iff, not_and_or]

end

/-- Leaves under one key are put into the group under it. -/
theorem setAll_under (k : String) {ls : List Leaf} (hne : ls ≠ []) (hpath : ∀ l ∈ ls, l.1 ≠ [])
    (es : List (Value × Value)) :
    setAll es (ls.map (under k)) =
      insertEntry (.text k) (.map (setAll (groupUnder k es) ls)) es := by
  induction ls generalizing es with
  | nil => exact absurd rfl hne
  | cons l rest ih =>
    have hset : setAll es ((l :: rest).map (under k)) =
        setAll (insertEntry (.text k) (.map (setAt l.2 l.1 (groupUnder k es))) es)
          (rest.map (under k)) :=
      congrArg (setAll · (rest.map (under k))) (setAt_cons (hpath l List.mem_cons_self) l.2 k es)
    rw [hset]
    cases rest with
    | nil => rfl
    | cons l' rest =>
      rw [ih (by simp) fun m hm => hpath m (List.mem_cons_of_mem _ hm), groupUnder_insertEntry,
        insertEntry_insertEntry]
      rfl

theorem setAll_append (es : List (Value × Value)) (ls ls' : List Leaf) :
    setAll es (ls ++ ls') = setAll (setAll es ls) ls' := List.foldl_append

mutual

theorem mergeUnder_eq (k : String) (es : List (Value × Value)) (v : Value) :
    mergeUnder k es v = setAll es (leavesAt [k] v) := by
  cases v with
  | map later => rw [mergeUnder, leavesAt, mergeGroup_eq k es later]
  | group later => rw [mergeUnder, leavesAt, mergeGroup_eq k es later]
  | _ => simp [mergeUnder, leavesAt, setAll, setAt]

theorem mergeGroup_eq (k : String) (es later : List (Value × Value)) :
    (if anyHasLeaf later then
        insertEntry (.text k) (.map (mergeEntries (groupUnder k es) later)) es
      else es) = setAll es (leavesOf [k] later) := by
  rw [leavesOf_cons k [] later, mergeEntries_eq (groupUnder k es) later]
  by_cases h : anyHasLeaf later = true
  · rw [if_pos h, setAll_under k ((anyHasLeaf_iff [] later).mp h) fun l => leaf_path_ne_nil]
  · have hnil : leavesOf [] later = [] := not_not.mp (mt (anyHasLeaf_iff [] later).mpr h)
    rw [if_neg h, hnil]
    rfl

/-- Merging an overlay puts its leaves at their paths, in their order. -/
theorem mergeEntries_eq (es later : List (Value × Value)) :
    mergeEntries es later = setAll es (leavesOf [] later) := by
  match later with
  | [] => simp [mergeEntries, leavesOf, setAll]
  | (key, v) :: rest =>
    rw [mergeEntries, leavesOf, setAll_append, List.nil_append, mergeUnder_eq key.plain es v,
      mergeEntries_eq _ rest]

end

end DesignTokens
