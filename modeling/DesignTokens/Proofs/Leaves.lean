import DesignTokens.Proofs.Merging

/-! The leaves of a tree and their paths. Where the keys of each group differ as texts, the path of no
leaf leads to that of another; where keys hold no dots, paths do not either. -/
namespace DesignTokens

open Value

/-- Neither path leads to the other. -/
def Apart (p q : List String) : Prop := ¬ p <+: q ∧ ¬ q <+: p

instance (p q : List String) : Decidable (Apart p q) := inferInstanceAs (Decidable (_ ∧ _))

@[simp] theorem apart_cons {k l : String} {p q : List String} :
    Apart (k :: p) (l :: q) ↔ k ≠ l ∨ Apart p q := by
  simp only [Apart, List.cons_prefix_cons]
  grind

@[simp] theorem not_apart_nil (q : List String) : ¬ Apart [] q := fun h => h.1 List.nil_prefix

@[simp] theorem not_nil_apart (p : List String) : ¬ Apart p [] := fun h => h.2 List.nil_prefix

theorem apart_iff {p q : List String} : Apart p q ↔ ¬ Clash p q ∧ p ≠ q := by
  simp only [Apart, Clash, Inside]
  grind

theorem apart_append (path : List String) {p q : List String} :
    Apart (path ++ p) (path ++ q) ↔ Apart p q := by
  simp only [Apart, List.prefix_append_right_inj]

/-- Paths that go through different keys of one group are apart. -/
theorem apart_of_prefix {path p q : List String} {k l : String} (hp : path ++ [k] <+: p)
    (hq : path ++ [l] <+: q) (hne : k ≠ l) : Apart p q := by
  obtain ⟨p', rfl⟩ := hp
  obtain ⟨q', rfl⟩ := hq
  rw [List.append_assoc, List.append_assoc, apart_append]
  exact apart_cons.mpr (Or.inl hne)

@[simp] theorem Value.plain_text (k : String) : (Value.text k).plain = k := by
  simp [Value.plain, textIn]

@[simp] theorem Value.hasText_text (k : String) : (Value.text k).hasText = true := rfl

theorem Value.IsLeaf.leavesAt_eq {v : Value} (h : v.IsLeaf) (path : List String) :
    leavesAt path v = [(path, v)] := by
  cases v with
  | map es => exact absurd rfl (h.1 es)
  | group cs => exact absurd rfl (h.2 cs)
  | _ => simp [leavesAt]

theorem textlessAmong?_eq_none {es : List (Value × Value)} :
    textlessAmong? es = none ↔ ∀ e ∈ es, e.1.hasText = true ∧ textlessIn? e.2 = none := by
  induction es with
  | nil => simp [textlessAmong?]
  | cons e rest ih =>
    obtain ⟨k, v⟩ := e
    rw [textlessAmong?, List.forall_mem_cons, ← ih]
    cases k.hasText <;> cases textlessIn? v <;> simp

theorem leavesOf_eq_flatMap (path : List String) (es : List (Value × Value)) :
    leavesOf path es = es.flatMap fun e => leavesAt (path ++ [e.1.plain]) e.2 := by
  induction es with
  | nil => simp [leavesOf]
  | cons e rest ih =>
    obtain ⟨k, v⟩ := e
    rw [leavesOf, ih, List.flatMap_cons]

namespace Value

/-- A condition on the entries of each group of a value. -/
inductive EveryGroup (P : List (Value × Value) → Prop) : Value → Prop where
  | leaf {v : Value} (h : v.IsLeaf) : EveryGroup P v
  | map {es : List (Value × Value)} (hP : P es) (h : ∀ e ∈ es, EveryGroup P e.2) :
      EveryGroup P (.map es)
  | group {cs : List (Value × Value)} (hP : P cs) (h : ∀ e ∈ cs, EveryGroup P e.2) :
      EveryGroup P (.group cs)

/-- Keys whose texts all differ. -/
def HasDistinctTexts (es : List (Value × Value)) : Prop := (es.map (·.1.plain)).Nodup

instance (es : List (Value × Value)) : Decidable (HasDistinctTexts es) :=
  inferInstanceAs (Decidable (List.Nodup _))

theorem HasPlainKeys.hasDistinctTexts {es : List (Value × Value)} (h : HasPlainKeys es) :
    HasDistinctTexts es := by
  have hpairs : es.Pairwise fun d e => d.1 ≠ e.1 := List.pairwise_map.mp h.1
  refine List.pairwise_map.mpr (hpairs.imp_of_mem fun {d e} hd he hne htext => hne ?_)
  obtain ⟨k, hk, -⟩ := h.2 d hd
  obtain ⟨l, hl, -⟩ := h.2 e he
  rw [hk, hl] at htext ⊢
  simpa using htext

namespace EveryGroup

variable {P Q : List (Value × Value) → Prop} {v : Value}

theorem mono (hPQ : ∀ es, P es → Q es) (h : v.EveryGroup P) : v.EveryGroup Q := by
  induction h with
  | leaf h => exact .leaf h
  | map hP _ ih => exact .map (hPQ _ hP) ih
  | group hP _ ih => exact .group (hPQ _ hP) ih

theorem of_map {es : List (Value × Value)} (h : (Value.map es).EveryGroup P) :
    P es ∧ ∀ e ∈ es, EveryGroup P e.2 := by
  cases h with
  | leaf h => exact absurd rfl (h.1 es)
  | map hP h => exact ⟨hP, h⟩

theorem of_group {cs : List (Value × Value)} (h : (Value.group cs).EveryGroup P) :
    P cs ∧ ∀ e ∈ cs, EveryGroup P e.2 := by
  cases h with
  | leaf h => exact absurd rfl (h.2 cs)
  | group hP h => exact ⟨hP, h⟩

theorem textlessIn?_eq_none (htexts : ∀ es, P es → ∀ e ∈ es, e.1.hasText = true)
    (h : v.EveryGroup P) : textlessIn? v = none := by
  induction h with
  | @leaf v h =>
    cases v with
    | map es => exact absurd rfl (h.1 es)
    | group cs => exact absurd rfl (h.2 cs)
    | _ => rfl
  | map hP _ ih =>
    rw [textlessIn?, textlessAmong?_eq_none]
    exact fun e he => ⟨htexts _ hP e he, ih e he⟩
  | group hP _ ih =>
    rw [textlessIn?, textlessAmong?_eq_none]
    exact fun e he => ⟨htexts _ hP e he, ih e he⟩

/-- What holds of the rows of a single leaf, and of the leaves of a group if it holds beneath each of
its keys, holds of all leaves of a value. -/
theorem leaves_induction {motive : List String → List Leaf → Prop}
    (hleaf : ∀ path v, IsLeaf v → motive path [(path, v)])
    (hgroup : ∀ path es, P es → (∀ e ∈ es, ∀ path, motive path (leavesAt path e.2)) →
      motive path (leavesOf path es))
    (h : v.EveryGroup P) (path : List String) : motive path (leavesAt path v) := by
  induction h generalizing path with
  | leaf h =>
    rw [h.leavesAt_eq]
    exact hleaf path _ h
  | map hP _ ih =>
    rw [leavesAt]
    exact hgroup path _ hP ih
  | group hP _ ih =>
    rw [leavesAt]
    exact hgroup path _ hP ih

/-- No leaf stands at or on the way to another. -/
theorem leaves_apart (h : v.EveryGroup HasDistinctTexts) (path : List String) :
    (leavesAt path v).Pairwise fun l m => Apart l.1 m.1 := by
  refine h.leaves_induction (motive := fun _ ls => ls.Pairwise fun l m => Apart l.1 m.1)
    (fun _ _ _ => List.pairwise_singleton _ _) (fun path es hkeys ih => ?_) path
  rw [leavesOf_eq_flatMap, List.pairwise_flatMap]
  have hpairs : es.Pairwise fun d e => d.1.plain ≠ e.1.plain := List.pairwise_map.mp hkeys
  refine ⟨fun e he => ih e he _, hpairs.imp fun {d e} hne l hl m hm => ?_⟩
  have hpl := leavesAt_prefix _ _ l hl
  have hpm := leavesAt_prefix _ _ m hm
  exact apart_of_prefix hpl hpm hne

theorem leaves_dotFree (h : v.EveryGroup HasPlainKeys) (path : List String) (hpath : DotFree path) :
    ∀ l ∈ leavesAt path v, DotFree l.1 := by
  refine h.leaves_induction (motive := fun path ls => DotFree path → ∀ l ∈ ls, DotFree l.1)
    (fun path v _ hpath => by simpa using hpath) (fun path es hplain ih hpath l hl => ?_) path hpath
  rw [leavesOf_eq_flatMap, List.mem_flatMap] at hl
  obtain ⟨e, he, hl⟩ := hl
  refine ih e he _ (fun segment hsegment => ?_) l hl
  obtain ⟨k, hk, hdot⟩ := hplain.2 e he
  rcases List.mem_append.mp hsegment with hsegment | hsegment
  · exact hpath segment hsegment
  · obtain rfl : segment = k := by simpa [hk] using hsegment
    exact hdot

end EveryGroup

end Value

end DesignTokens
