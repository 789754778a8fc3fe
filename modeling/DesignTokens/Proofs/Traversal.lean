import DesignTokens.Proofs.Arrangement
import DesignTokens.Proofs.Outcomes
import DesignTokens.Rendering

/-! Trees whose leaves are computed, in whichever way. A traversal of an arrangement succeeds exactly
if each leaf can be computed, and the result arranges what was computed along the same paths. Rendering
a tree is the traversal that evaluates its leaves. -/
namespace DesignTokens

mutual

/-- A tree with what is computed for its leaves. -/
def computeNode (compute : Value → Except Failure Value) : Value → Except Failure Value
  | .map es => (computeEntries compute es).map .map
  | v => compute v

/-- Entries with what is computed for their leaves, from the first on. -/
def computeEntries (compute : Value → Except Failure Value) :
    List (Value × Value) → Except Failure (List (Value × Value))
  | [] => .ok []
  | (k, v) :: rest => do
    let v ← computeNode compute v
    return (k, v) :: (← computeEntries compute rest)

end

mutual

theorem renderNode_eq_computeNode [Platform] (theme : Value) (v : Value) :
    renderNode theme v = computeNode (evaluate theme) v := by
  cases v with
  | map es => rw [renderNode, computeNode, renderEntries_eq_computeEntries]
  | _ => rw [renderNode, computeNode] <;> simp

theorem renderEntries_eq_computeEntries [Platform] (theme : Value) (es : List (Value × Value)) :
    renderEntries theme es = computeEntries (evaluate theme) es := by
  match es with
  | [] => rw [renderEntries, computeEntries]
  | (k, v) :: rest =>
    rw [renderEntries, computeEntries, renderNode_eq_computeNode, renderEntries_eq_computeEntries]

end

section Traversal

variable {compute : Value → Except Failure Value} {x y v : Value} {es es' : List (Value × Value)}

theorem computeNode_of_ne_map (h : ∀ es, v ≠ .map es) : computeNode compute v = compute v := by
  cases v with
  | map es => exact absurd rfl (h es)
  | _ => rw [computeNode]; simp

/-- Entries are computed one by one, each under its key. -/
theorem computeEntries_eq_ok : computeEntries compute es = .ok es' ↔
    List.Forall₂ (fun e e' => e'.1 = e.1 ∧ computeNode compute e.2 = .ok e'.2) es es' := by
  induction es generalizing es' with
  | nil => cases es' <;> simp [computeEntries]
  | cons e rest ih =>
    obtain ⟨k, v⟩ := e
    rw [computeEntries]
    constructor
    · intro h
      obtain ⟨w, hw, h⟩ := bind_eq_ok.mp h
      obtain ⟨tail, htail, h⟩ := bind_eq_ok.mp h
      cases h
      exact .cons ⟨rfl, hw⟩ (ih.mp htail)
    · intro h
      rcases h with _ | @⟨_, ⟨key, w⟩, _, tail, ⟨rfl, hw⟩, htail⟩
      have htail := ih.mpr htail
      simp [hw, htail, pure, Except.pure]

/-- A mapping is computed entry by entry. -/
theorem computeNode_map_eq_ok : computeNode compute (.map es) = .ok y ↔
    ∃ es', y = .map es' ∧
      List.Forall₂ (fun e e' => e'.1 = e.1 ∧ computeNode compute e.2 = .ok e'.2) es es' := by
  rw [computeNode, map_eq_ok]
  refine exists_congr fun es' => ?_
  rw [computeEntries_eq_ok, and_comm, eq_comm]

theorem keys_of_forall₂ {R : Value → Value → Prop}
    (h : List.Forall₂ (fun e e' : Value × Value => e'.1 = e.1 ∧ R e.2 e'.2) es es') :
    es'.map (·.1) = es.map (·.1) := by
  induction h with
  | nil => rfl
  | cons he _ ih => simp [he.1, ih]

theorem entry?_of_forall₂ {R : Value → Value → Prop} {k : String}
    (h : List.Forall₂ (fun e e' : Value × Value => e'.1 = e.1 ∧ R e.2 e'.2) es es')
    (hx : Value.entry? k es = some x) : ∃ y, Value.entry? k es' = some y ∧ R x y := by
  induction h with
  | nil => simp [Value.entry?] at hx
  | @cons e e' rest rest' he _ ih =>
    rw [Value.entry?] at hx ⊢
    rw [he.1]
    split at hx
    · next hk =>
      obtain rfl : e.2 = x := by simpa using hx
      exact ⟨e'.2, by simp [hk], he.2⟩
    · next hk =>
      obtain ⟨y, hy, hr⟩ := ih hx
      exact ⟨y, by simp [hk, hy], hr⟩

/-- What stands at a path of a tree is computed with it, and the result stands at that path. -/
theorem computeNode_at? {path : List String} (h : computeNode compute x = .ok y)
    (hat : x.at? path = some v) : ∃ w, computeNode compute v = .ok w ∧ y.at? path = some w := by
  induction path generalizing x y with
  | nil =>
    obtain rfl : x = v := by simpa [Value.at?] using hat
    exact ⟨y, h, by simp [Value.at?]⟩
  | cons k rest ih =>
    cases x with
    | map es =>
      rw [Value.at?] at hat
      obtain ⟨inner, hinner, hat⟩ := Option.bind_eq_some_iff.mp hat
      obtain ⟨es', rfl, heach⟩ := computeNode_map_eq_ok.mp h
      obtain ⟨outer, houter, hcompute⟩ := entry?_of_forall₂
        (R := fun a b => computeNode compute a = .ok b) heach hinner
      obtain ⟨w, hw, hrest⟩ := ih hcompute hat
      exact ⟨w, hw, by simp [Value.at?, houter, hrest]⟩
    | _ => simp [Value.at?] at hat

end Traversal

/-- Leaves with their values changed. -/
def mapLeaves (f : Value → Value) (ls : List Leaf) : List Leaf := ls.map fun l => (l.1, f l.2)

theorem mem_mapLeaves {f : Value → Value} {ls : List Leaf} {l : Leaf} :
    l ∈ mapLeaves f ls ↔ ∃ v, (l.1, v) ∈ ls ∧ l.2 = f v := by
  obtain ⟨path, w⟩ := l
  simp only [mapLeaves, List.mem_map, Prod.mk.injEq, Prod.exists]
  constructor
  · rintro ⟨p, v, hmem, rfl, rfl⟩
    exact ⟨v, hmem, rfl⟩
  · rintro ⟨v, hmem, rfl⟩
    exact ⟨path, v, hmem, rfl, rfl⟩

theorem heads_mapLeaves (f : Value → Value) (ls : List Leaf) :
    heads (mapLeaves f ls) = heads ls := by
  simp [heads, mapLeaves, List.foldl_map]

theorem beneath_mapLeaves (f : Value → Value) (k : String) (ls : List Leaf) :
    beneath k (mapLeaves f ls) = mapLeaves f (beneath k ls) := by
  induction ls with
  | nil => rfl
  | cons leaf rest ih =>
    obtain ⟨path, v⟩ := leaf
    cases path with
    | nil => simpa [beneath, mapLeaves] using ih
    | cons l tail =>
      by_cases hl : l = k <;> simp_all [beneath, mapLeaves]

/-- Where each leaf can be computed the traversal succeeds, and its result arranges what is computed. -/
theorem Arranged.compute {compute : Value → Except Failure Value} {f : Value → Value}
    {ls : List Leaf} {x : Value} (h : Arranged ls x) (hmap : ∀ l ∈ ls, ∀ es, l.2 ≠ .map es)
    (hf : ∀ l ∈ ls, compute l.2 = .ok (f l.2)) :
    ∃ y, computeNode compute x = .ok y ∧ Arranged (mapLeaves f ls) y := by
  induction h with
  | leaf v =>
    have hv : ∀ es, v ≠ .map es := hmap _ (List.mem_singleton_self _)
    have hcompute : compute v = .ok (f v) := hf _ (List.mem_singleton_self _)
    exact ⟨f v, by rw [computeNode_of_ne_map hv, hcompute], .leaf (f v)⟩
  | @group ls es hpath hkeys hinner ih =>
    have hbelow : ∀ k w, (.text k, w) ∈ es →
        ∃ y, computeNode compute w = .ok y ∧ Arranged (mapLeaves f (beneath k ls)) y := by
      intro k w hw
      refine ih k w hw (fun l hl => ?_) fun l hl => ?_
      · exact hmap (k :: l.1, l.2) (mem_beneath.mp hl)
      · exact hf (k :: l.1, l.2) (mem_beneath.mp hl)
    have hentries : ∃ es' : List (Value × Value), List.Forall₂
        (fun e e' => e'.1 = e.1 ∧ computeNode compute e.2 = .ok e'.2) es es' := by
      have heach : ∀ e ∈ es, ∃ e' : Value × Value,
          e'.1 = e.1 ∧ computeNode compute e.2 = .ok e'.2 := by
        intro e he
        obtain ⟨k, -, hk⟩ := exists_head_of_mem hkeys he
        obtain ⟨y, hy, -⟩ := hbelow k e.2 (by rwa [← hk])
        exact ⟨(e.1, y), rfl, hy⟩
      choose! g hg using heach
      refine ⟨es.map g, ?_⟩
      rw [List.forall₂_map_right_iff, List.forall₂_same]
      exact hg
    obtain ⟨es', heach⟩ := hentries
    refine ⟨.map es', computeNode_map_eq_ok.mpr ⟨es', rfl, heach⟩, .group ?_ ?_ fun k y hy => ?_⟩
    · intro l hl
      obtain ⟨v, hv, -⟩ := mem_mapLeaves.mp hl
      exact hpath (l.1, v) hv
    · have hsame : es'.map (·.1) = es.map (·.1) :=
        keys_of_forall₂ (R := fun a b => computeNode compute a = .ok b) heach
      rw [heads_mapLeaves, hsame, hkeys]
    · obtain ⟨⟨key, w⟩, hw, rfl, hcompute⟩ := exists_left_of_forall₂ heach hy
      obtain ⟨z, hz, harr⟩ := hbelow k w hw
      obtain rfl : y = z := by simpa [hcompute] using hz
      rwa [beneath_mapLeaves]

end DesignTokens
