import DesignTokens.Proofs.Emission
import DesignTokens.Proofs.Origins
import DesignTokens.Proofs.Renderings
import DesignTokens.Template.Standard

/-! What rendering leaves of expressions. References are followed and computed values are computed
where they are values of their own; a row stands for itself, whatever it holds. So an expression
reaches an output from inside a row or from a key, and from nowhere else. -/
namespace DesignTokens

/-- The values that a value is made of. -/
def Value.inner : Value → List Value
  | .list xs => xs
  | .tuple xs => xs
  | .map es => es.map (·.1) ++ es.map (·.2)
  | .group cs => cs.map (·.1) ++ cs.map (·.2)
  | .literal v => [v]
  | _ => []

/-- A reference or a computed value, or a value that holds one at any depth. -/
inductive HoldsExpression : Value → Prop where
  | ref (path : String) : HoldsExpression (.ref path)
  | deferred (d : Deferred) : HoldsExpression (.deferred d)
  | inside {v x : Value} (hmem : x ∈ v.inner) (h : HoldsExpression x) : HoldsExpression v

/-- A row that holds an expression, or a mapping with such a row below it or an expression in a key:
the expressions that rendering does not reach. -/
inductive HidesExpression : Value → Prop where
  | row {v : Value} {xs : List Value} (hv : v = .list xs ∨ v = .tuple xs)
      (h : HoldsExpression v) : HidesExpression v
  | key {es : List (Value × Value)} {e : Value × Value} (hmem : e ∈ es)
      (h : HoldsExpression e.1) : HidesExpression (.map es)
  | entry {es : List (Value × Value)} {e : Value × Value} (hmem : e ∈ es)
      (h : HidesExpression e.2) : HidesExpression (.map es)

/-- Whether a value itself is none of a caller's making: no function and no wrapped value. -/
def Value.IsBuiltIn : Value → Prop
  | .function _ _ => False
  | .literal _ => False
  | .deferred (.described _ _ _) => False
  | _ => True

/-- A value made of data, rows, groups, references, and what the library computes. -/
inductive IsComposed : Value → Prop where
  | of {v : Value} (h : v.IsBuiltIn) (hinner : ∀ x ∈ v.inner, IsComposed x) : IsComposed v

theorem IsComposed.isBuiltIn {v : Value} : IsComposed v → v.IsBuiltIn
  | .of h _ => h

theorem IsComposed.inner {v x : Value} : IsComposed v → x ∈ v.inner → IsComposed x
  | .of _ hinner, hmem => hinner x hmem

theorem IsComposed.item {v x : Value} {xs : List Value} (h : IsComposed v)
    (hv : v = .list xs ∨ v = .tuple xs) (hx : x ∈ xs) : IsComposed x := by
  have hmem : x ∈ v.inner := by rcases hv with rfl | rfl <;> exact hx
  exact h.inner hmem

@[simp] theorem isComposed_text (s : String) : IsComposed (.text s) :=
  .of trivial (by simp [Value.inner])

@[simp] theorem isComposed_ref (path : String) : IsComposed (.ref path) :=
  .of trivial (by simp [Value.inner])

@[simp] theorem isComposed_deferred {d : Deferred} :
    IsComposed (.deferred d) ↔ (Value.deferred d).IsBuiltIn :=
  ⟨IsComposed.isBuiltIn, fun h => .of h (by simp [Value.inner])⟩

@[simp] theorem isComposed_list {xs : List Value} :
    IsComposed (.list xs) ↔ ∀ x ∈ xs, IsComposed x :=
  ⟨fun h _ hx => h.inner hx, fun h => .of trivial h⟩

@[simp] theorem not_holdsExpression_text (s : String) : ¬ HoldsExpression (.text s) := by
  rintro (_ | _ | ⟨hmem, -⟩)
  simp [Value.inner] at hmem

@[simp] theorem holdsExpression_list {xs : List Value} :
    HoldsExpression (.list xs) ↔ ∃ x ∈ xs, HoldsExpression x := by
  constructor
  · rintro (_ | _ | ⟨hmem, h⟩)
    exact ⟨_, hmem, h⟩
  · rintro ⟨x, hmem, h⟩
    exact .inside hmem h

theorem Value.mem_inner_map {es : List (Value × Value)} {x : Value} :
    x ∈ (Value.map es).inner ↔ ∃ e ∈ es, x = e.1 ∨ x = e.2 := by
  simp only [Value.inner, List.mem_append, List.mem_map]
  grind

@[simp] theorem isComposed_map {es : List (Value × Value)} :
    IsComposed (.map es) ↔ ∀ e ∈ es, IsComposed e.1 ∧ IsComposed e.2 := by
  constructor
  · intro h e he
    exact ⟨h.inner (Value.mem_inner_map.mpr ⟨e, he, Or.inl rfl⟩),
      h.inner (Value.mem_inner_map.mpr ⟨e, he, Or.inr rfl⟩)⟩
  · intro h
    refine .of trivial fun x hx => ?_
    obtain ⟨e, he, rfl | rfl⟩ := Value.mem_inner_map.mp hx
    · exact (h e he).1
    · exact (h e he).2

theorem HidesExpression.holds {v : Value} (h : HidesExpression v) : HoldsExpression v := by
  induction h with
  | row _ h => exact h
  | key hmem h => exact .inside (Value.mem_inner_map.mpr ⟨_, hmem, Or.inl rfl⟩) h
  | entry hmem _ ih => exact .inside (Value.mem_inner_map.mpr ⟨_, hmem, Or.inr rfl⟩) ih

/-- A composed value whose expressions are all reached. -/
structure Overt (v : Value) : Prop where
  isComposed : IsComposed v
  not_hides : ¬ HidesExpression v

namespace Overt

variable {theme v x r : Value}

theorem text (s : String) : Overt (.text s) :=
  ⟨isComposed_text s, fun h => not_holdsExpression_text s h.holds⟩

theorem item {xs : List Value} (h : Overt v) (hv : v = .list xs ∨ v = .tuple xs) (hx : x ∈ xs) :
    Overt x := by
  have hmem : x ∈ v.inner := by rcases hv with rfl | rfl <;> exact hx
  exact ⟨h.isComposed.inner hmem, fun hhides => h.not_hides (.row hv (.inside hmem hhides.holds))⟩

theorem entry {es : List (Value × Value)} {e : Value × Value} (h : Overt (.map es)) (he : e ∈ es) :
    Overt e.2 := by
  have hmem : e.2 ∈ (Value.map es).inner := Value.mem_inner_map.mpr ⟨e, he, Or.inr rfl⟩
  exact ⟨h.isComposed.inner hmem, fun hhides => h.not_hides (.entry he hhides)⟩

theorem step {dotted segment : String} (h : Overt v)
    (hstep : DesignTokens.step dotted v segment = .ok x) : Overt x := by
  rcases step_eq_ok hstep with ⟨es, rfl, hentry⟩ | ⟨xs, i, hv, -, hitem⟩
  · exact h.entry (Value.mem_of_entry?_eq_some hentry)
  · exact h.item hv (mem_of_itemAt? hitem)

theorem lookup {path : String} (h : Overt theme) (hx : DesignTokens.lookup theme path = .ok x) :
    Overt x :=
  foldlM_preserves hx h fun _ _ _ hacc hstep => hacc.step hstep

end Overt

/-- What the library computes is a text. -/
theorem Deferred.run_eq_text [Platform] {d : Deferred} {evaluate : Value → Except Failure Value}
    {theme r : Value} (hd : (Value.deferred d).IsBuiltIn) (h : d.run evaluate theme = .ok r) :
    ∃ s, r = .text s := by
  cases d with
  | described description name action => exact absurd hd id
  | alpha color amount =>
    rw [run] at h
    obtain ⟨base, -, h⟩ := bind_eq_ok.mp h
    obtain ⟨s, -, h⟩ := bind_eq_ok.mp h
    cases h
    exact ⟨s, rfl⟩
  | lighten color amount =>
    rw [run] at h
    obtain ⟨base, -, h⟩ := bind_eq_ok.mp h
    obtain ⟨s, -, h⟩ := bind_eq_ok.mp h
    cases h
    exact ⟨s, rfl⟩
  | darken color amount =>
    rw [run] at h
    obtain ⟨base, -, h⟩ := bind_eq_ok.mp h
    obtain ⟨negated, -, h⟩ := bind_eq_ok.mp h
    obtain ⟨s, -, h⟩ := bind_eq_ok.mp h
    cases h
    exact ⟨s, rfl⟩
  | format template parts =>
    rw [run] at h
    obtain ⟨filled, -, h⟩ := bind_eq_ok.mp h
    obtain ⟨s, -, h⟩ := bind_eq_ok.mp h
    cases h
    exact ⟨s, rfl⟩

/-- A value that is told apart as data and holds an expression is a row that hides it. -/
theorem hidesExpression_of_literal {v w : Value} (hv : v.IsBuiltIn) (htoken : Token.of v = .literal w)
    (h : HoldsExpression w) : HidesExpression v := by
  cases v <;> simp_all [Value.IsBuiltIn, Token.of]
  all_goals subst htoken
  case list xs => exact .row (Or.inl rfl) h
  case tuple xs => exact .row (Or.inr rfl) h
  all_goals
    rcases h with _ | _ | ⟨hmem, -⟩
    simp [Value.inner] at hmem

/-- Where nothing is hidden, evaluating leaves no expression. -/
theorem Overt.evaluateFrom [Platform] {theme v r : Value} {depth fuel : Nat}
    (htheme : Overt theme) (hv : Overt v) (h : DesignTokens.evaluateFrom theme depth v fuel = .ok r) :
    ¬ HoldsExpression r := by
  induction fuel generalizing v depth with
  | zero => cases h
  | succ fuel ih =>
    rw [DesignTokens.evaluateFrom] at h
    split at h
    · cases h
    · split at h
      · next w hw =>
        cases h
        exact fun hholds => hv.not_hides (hidesExpression_of_literal hv.isComposed.isBuiltIn hw hholds)
      · next path _ =>
        obtain ⟨x, hx, h⟩ := bind_eq_ok.mp h
        exact ih (htheme.lookup hx) h
      · next d hd =>
        split at h
        · next result hresult =>
          -- A computed value is told apart as itself, so that it is none of a caller's making.
          have hdeferred : v = .deferred d := by
            have hbuiltIn := hv.isComposed.isBuiltIn
            cases v <;> simp_all [Token.of, Value.IsBuiltIn]
          obtain ⟨s, rfl⟩ := Deferred.run_eq_text (hdeferred ▸ hv.isComposed.isBuiltIn) hresult
          exact ih (.text s) h
        · cases h
      · cases h

section Evaluation

variable [Platform]

theorem evaluate_row {theme v : Value} {xs : List Value} (hv : v = .list xs ∨ v = .tuple xs) :
    evaluate theme v = .ok v := by
  rcases hv with rfl | rfl <;> simp [evaluate, evaluateFrom, maxNesting, Token.of, maxDepth]

/-- A value that hides an expression is refused, or stands for itself. -/
theorem HidesExpression.evaluate {theme v w : Value} (hv : HidesExpression v)
    (h : DesignTokens.evaluate theme v = .ok w) : w = v := by
  cases hv with
  | row hrow =>
    rw [evaluate_row hrow] at h
    cases h
    rfl
  | key =>
    rw [evaluate_map] at h
    cases h
  | entry =>
    rw [evaluate_map] at h
    cases h

theorem HidesExpression.render {theme v w : Value} (hv : HidesExpression v)
    (h : renderNode theme v = .ok w) : HoldsExpression w := by
  induction hv generalizing w with
  | @row v xs hrow hholds =>
    have hmap : ∀ es, v ≠ .map es := by rcases hrow with rfl | rfl <;> simp
    rw [renderNode_of_ne_map hmap, evaluate_row hrow] at h
    cases h
    exact hholds
  | @key es e hmem hholds =>
    obtain ⟨es', rfl, heach⟩ := renderNode_map_eq_ok.mp h
    obtain ⟨e', he', hkey, -⟩ := exists_left_of_forall₂ heach.flip hmem
    exact .inside (Value.mem_inner_map.mpr ⟨e', he', Or.inl rfl⟩) (hkey ▸ hholds)
  | @entry es e hmem _ ih =>
    obtain ⟨es', rfl, heach⟩ := renderNode_map_eq_ok.mp h
    obtain ⟨e', he', -, hvalue⟩ := exists_left_of_forall₂ heach.flip hmem
    exact .inside (Value.mem_inner_map.mpr ⟨e', he', Or.inr rfl⟩) (ih hvalue)

/-- Where nothing is hidden, a rendered tree holds no expression. -/
theorem Overt.render {theme v w : Value} (htheme : Overt theme) (hv : Overt v)
    (h : renderNode theme v = .ok w) : ¬ HoldsExpression w := by
  intro hholds
  -- Below the groups rendering is evaluating, so the induction descends through groups only.
  induction hholds generalizing v with
  | ref path =>
    rcases renderNode_cases h with hvalue | ⟨es, es', -, hw, -⟩
    · exact htheme.evaluateFrom hv hvalue (.ref path)
    · cases hw
  | deferred d =>
    rcases renderNode_cases h with hvalue | ⟨es, es', -, hw, -⟩
    · exact htheme.evaluateFrom hv hvalue (.deferred d)
    · cases hw
  | inside hmem hx ih =>
    rcases renderNode_cases h with hvalue | ⟨es, es', rfl, rfl, heach⟩
    · exact htheme.evaluateFrom hv hvalue (.inside hmem hx)
    · obtain ⟨e', he', hpart⟩ := Value.mem_inner_map.mp hmem
      obtain ⟨e, he, hkey, hvalue⟩ := exists_left_of_forall₂ heach he'
      rcases hpart with rfl | rfl
      · exact hv.not_hides (.key he (hkey ▸ hx))
      · exact ih (hv.entry he) hvalue

end Evaluation

section Arrangements

variable {ls : List Leaf} {x : Value}

/-- The groups of an arrangement hide nothing that its leaves do not hide. -/
theorem Arranged.hidesExpression_iff (h : Arranged ls x) :
    HidesExpression x ↔ ∃ l ∈ ls, HidesExpression l.2 := by
  induction h with
  | leaf v => simp
  | @group ls es hpath hkeys hinner ih =>
    constructor
    · rintro (⟨hrow | hrow, -⟩ | ⟨hmem, hkey⟩ | @⟨_, e, hmem, hvalue⟩)
      · cases hrow
      · cases hrow
      · obtain ⟨k, -, hk⟩ := exists_head_of_mem hkeys hmem
        exact absurd (hk ▸ hkey) (not_holdsExpression_text k)
      · obtain ⟨key, v⟩ := e
        obtain ⟨k, -, rfl⟩ := exists_head_of_mem hkeys hmem
        obtain ⟨⟨path, w⟩, hl, hhides⟩ := (ih k v hmem).mp hvalue
        exact ⟨(k :: path, w), mem_beneath.mp hl, hhides⟩
    · rintro ⟨⟨path, w⟩, hl, hhides⟩
      cases path with
      | nil => exact absurd rfl (hpath _ hl)
      | cons k rest =>
        have hbelow : (rest, w) ∈ beneath k ls := mem_beneath.mpr hl
        have hhead : k ∈ heads ls := mem_heads.mpr (List.ne_nil_of_mem hbelow)
        obtain ⟨v, hv⟩ := exists_mem_of_head hkeys hhead
        exact .entry hv ((ih k v hv).mpr ⟨(rest, w), hbelow, hhides⟩)

theorem Arranged.isComposed (h : Arranged ls x) (hls : ∀ l ∈ ls, IsComposed l.2) :
    IsComposed x := by
  induction h with
  | leaf v => exact hls _ (List.mem_singleton_self _)
  | @group ls es hpath hkeys hinner ih =>
    refine isComposed_map.mpr fun e hmem => ?_
    obtain ⟨key, v⟩ := e
    obtain ⟨k, -, rfl⟩ := exists_head_of_mem hkeys hmem
    exact ⟨isComposed_text k, ih k v hmem fun l hl => hls (k :: l.1, l.2) (mem_beneath.mp hl)⟩

theorem Arranged.overt (h : Arranged ls x) (hcomposed : ∀ l ∈ ls, IsComposed l.2)
    (hhides : ∀ l ∈ ls, ¬ HidesExpression l.2) : Overt x := by
  refine ⟨h.isComposed hcomposed, fun hx => ?_⟩
  obtain ⟨l, hl, hhidden⟩ := h.hidesExpression_iff.mp hx
  exact hhides l hl hhidden

end Arrangements

mutual

theorem leavesAt_isComposed (path : List String) {v : Value} (h : IsComposed v) :
    ∀ leaf ∈ leavesAt path v, IsComposed leaf.2 := by
  cases v with
  | map es =>
    rw [leavesAt]
    exact leavesOf_isComposed path es fun e he => (isComposed_map.mp h e he).2
  | group cs =>
    rw [leavesAt]
    have hinner : (Value.group cs).inner = (Value.map cs).inner := rfl
    exact leavesOf_isComposed path cs fun e he =>
      h.inner (hinner ▸ Value.mem_inner_map.mpr ⟨e, he, Or.inr rfl⟩)
  | _ =>
    rw [leavesAt]
    · exact List.forall_mem_singleton.mpr h
    · simp
    · simp

/-- The leaves of a composed tree are composed. -/
theorem leavesOf_isComposed (path : List String) (es : List (Value × Value))
    (h : ∀ e ∈ es, IsComposed e.2) : ∀ leaf ∈ leavesOf path es, IsComposed leaf.2 := by
  match es with
  | [] => simp [leavesOf]
  | (k, v) :: rest =>
    rw [leavesOf]
    intro leaf hleaf
    rcases List.mem_append.mp hleaf with hl | hl
    · exact leavesAt_isComposed _ (h _ List.mem_cons_self) leaf hl
    · exact leavesOf_isComposed path rest (fun e he => h e (List.mem_cons_of_mem _ he)) leaf hl

end

/-- What is built in stands for itself or for nothing. -/
theorem Value.IsBuiltIn.own?_eq {v x : Value} (hv : v.IsBuiltIn) (h : v.own? = some x) : x = v := by
  cases v <;> simp_all [Value.own?, Token.of, Value.IsBuiltIn]

namespace VariableSet

theorem isComposed_of_mem_treeLeaves {tree : Value} {leaf : Leaf} (h : IsComposed tree)
    (hleaf : leaf ∈ treeLeaves tree) : IsComposed leaf.2 := by
  cases tree with
  | map es => exact leavesAt_isComposed [] h leaf (by rwa [leavesAt])
  | _ => simp [treeLeaves] at hleaf

section Run

variable (mode typePrefix : String) (strict : Bool) {ops : List Operation}
  (hcomposed : ∀ tree ∈ ops.flatMap Operation.trees, IsComposed tree)
include hcomposed

/-- Trees of composed values leave composed values. -/
theorem run_isComposed : ∀ v ∈ ((empty mode typePrefix strict).run ops).toList,
    IsComposed v.value := by
  have hinside : ∀ v places x, IsComposed v → indexInto? v places = some x → IsComposed x :=
    fun _ _ _ hv hx => indexInto?_preserves (fun _ _ _ h => h.item) hv hx
  refine run_values hinside _ (fun tree htree leaf hleaf x hx => ?_) (by simp [empty])
  have hvalue := isComposed_of_mem_treeLeaves (hcomposed tree htree) hleaf
  rwa [hvalue.isBuiltIn.own?_eq hx]

/-- Where no leaf hides an expression no stored value does. -/
theorem run_not_hides
    (hhides : ∀ tree ∈ ops.flatMap Operation.trees, ∀ leaf ∈ treeLeaves tree,
      ¬ HidesExpression leaf.2) :
    ∀ v ∈ ((empty mode typePrefix strict).run ops).toList, ¬ HidesExpression v.value := by
  have hinside : ∀ v places x, Overt v → indexInto? v places = some x → Overt x :=
    fun _ _ _ hv hx => indexInto?_preserves (fun _ _ _ h => h.item) hv hx
  have hovert : ∀ v ∈ ((empty mode typePrefix strict).run ops).toList, Overt v.value := by
    refine run_values hinside _ (fun tree htree leaf hleaf x hx => ?_) (by simp [empty])
    have hvalue := isComposed_of_mem_treeLeaves (hcomposed tree htree) hleaf
    rw [hvalue.isBuiltIn.own?_eq hx]
    exact ⟨hvalue, hhides tree htree leaf hleaf⟩
  exact fun v hv => (hovert v hv).not_hides

end Run

theorem Coherent.overt_tree {s : VariableSet} (h : s.Coherent)
    (hcomposed : ∀ v ∈ s.toList, IsComposed v.value)
    (hhides : ∀ v ∈ s.toList, ¬ HidesExpression v.value)
    {theme : Value} (htheme : s.tree = .ok theme) : Overt theme := by
  obtain ⟨es, hes, harr⟩ := h.tree
  obtain rfl : .map es = theme := by simpa [hes] using htheme
  refine harr.overt (fun l hl => ?_) fun l hl => ?_
  · obtain ⟨v, hv, rfl⟩ := List.mem_map.mp hl
    exact hcomposed v hv
  · obtain ⟨v, hv, rfl⟩ := List.mem_map.mp hl
    exact hhides v hv

section Rendered

variable [Platform] {s : VariableSet} {rows : List (String × Value)} {tree : Value}

/-- A value that hides an expression is rendered as it is. -/
theorem Coherent.mem_renderVariables (h : s.Coherent) (hrows : s.renderVariables = .ok rows)
    {v : Variable} (hv : v ∈ s.toList) (hhides : HidesExpression v.value) :
    (v.name, v.value) ∈ rows := by
  obtain ⟨es, hes, -⟩ := h.tree
  have heach := forall₂_computeVariables hes hrows
  obtain ⟨⟨name, w⟩, hrow, rfl, hw⟩ := exists_left_of_forall₂ heach.flip hv
  obtain rfl : w = v.value := hhides.evaluate hw
  exact hrow

variable (hcomposed : ∀ v ∈ s.toList, IsComposed v.value)
include hcomposed

theorem Coherent.renderVariables_overt (h : s.Coherent) (hrows : s.renderVariables = .ok rows) :
    (∀ row ∈ rows, ¬ HoldsExpression row.2) ↔ ∀ v ∈ s.toList, ¬ HidesExpression v.value := by
  constructor
  · intro hnone v hv hhides
    exact hnone _ (h.mem_renderVariables hrows hv hhides) hhides.holds
  · intro hhides row hrow
    obtain ⟨es, hes, -⟩ := h.tree
    have htheme : Overt (.map es) := h.overt_tree hcomposed hhides hes
    obtain ⟨v, hv, -, hvalue⟩ := exists_left_of_forall₂ (forall₂_computeVariables hes hrows) hrow
    exact htheme.evaluateFrom ⟨hcomposed v hv, hhides v hv⟩ hvalue

theorem Coherent.renderTree_overt (h : s.Coherent) (htree : s.renderTree = .ok tree) :
    ¬ HoldsExpression tree ↔ ∀ v ∈ s.toList, ¬ HidesExpression v.value := by
  obtain ⟨es, hes, harr⟩ := h.tree
  rw [renderTree, hes, ok_bind] at htree
  constructor
  · intro hnone v hv hhides
    have hhidden := harr.hidesExpression_iff.mpr ⟨_, mem_leaves_of_mem hv, hhides⟩
    exact hnone (hhidden.render htree)
  · intro hhides
    have htheme : Overt (.map es) := h.overt_tree hcomposed hhides hes
    exact htheme.render htheme htree

end Rendered

/-- After any run of operations whose trees hold data, rows, groups, references and what the library
computes, rendering leaves an expression exactly if a variable hides one: in a row, or in a mapping
that a reference has taken from a row. Such a variable is rendered, and declared in a style sheet, as
it is; none is there if no row of the trees holds an expression. -/
theorem run_renders_expressions [Platform] (mode typePrefix : String) (strict : Bool)
    (ops : List Operation) (hcomposed : ∀ tree ∈ ops.flatMap Operation.trees, IsComposed tree) :
    let s := (empty mode typePrefix strict).run ops
    (∀ rows, s.renderVariables = .ok rows →
      ((∀ row ∈ rows, ¬ HoldsExpression row.2) ↔ ∀ v ∈ s.toList, ¬ HidesExpression v.value) ∧
      ∀ v ∈ s.toList, HidesExpression v.value → (v.name, v.value) ∈ rows) ∧
    (∀ tree, s.renderTree = .ok tree →
      (¬ HoldsExpression tree ↔ ∀ v ∈ s.toList, ¬ HidesExpression v.value)) ∧
    (∀ (m : ModeSet) namespaceName text, m.require mode = .ok s →
      m.mixin namespaceName mode = .ok text → ∃ rows, s.renderVariables = .ok rows ∧
        text = "\n".intercalate
          (s!"@mixin {namespaceName.plain}-{m.type}-{mode} \x7b" :: "  & \x7b" ::
            rows.map (fun row => ModeSet.propertyLine row.1 row.2) ++ ["  \x7d", "\x7d", ""])) ∧
    ((∀ tree ∈ ops.flatMap Operation.trees, ∀ leaf ∈ treeLeaves tree, ¬ HidesExpression leaf.2) →
      ∀ v ∈ s.toList, ¬ HidesExpression v.value) := by
  intro s
  have hs : s.Coherent := (empty_coherent mode typePrefix strict).run ops
  have hvalues : ∀ v ∈ s.toList, IsComposed v.value := run_isComposed mode typePrefix strict hcomposed
  refine ⟨fun rows hrows => ⟨hs.renderVariables_overt hvalues hrows, ?_⟩, ?_, ?_, ?_⟩
  · exact fun v hv hhides => hs.mem_renderVariables hrows hv hhides
  · exact fun tree htree => hs.renderTree_overt hvalues htree
  · intro m namespaceName text hmode htext
    obtain ⟨-, rows, hrows, -, rfl⟩ := (ModeSet.mixin_eq_ok hmode).mp htext
    exact ⟨rows, hrows, rfl⟩
  · exact run_not_hides mode typePrefix strict hcomposed

/-- A row, a reference into it and a template. -/
def framedShades : Value :=
  .map [(.text "gray", .list [.text "a", .text "b"]), (.text "muted", .ref "gray.1"),
    (.text "frame", .deferred (.format "1px {}" [.ref "muted"]))]

theorem run_renders_expressions_framed :
    let ops : List Operation := [.add framedShades]
    let s := (empty "light" "colors" true).run ops
    let rows := [("colors-gray", .list [.text "a", .text "b"]), ("colors-muted", .text "b"),
      ("colors-frame", .text "1px b")]
    (∀ tree ∈ ops.flatMap Operation.trees, IsComposed tree) ∧ s.renderVariables = .ok rows ∧
      (∀ row ∈ rows, ¬ HoldsExpression row.2) ∧
      ∀ tree, s.renderTree = .ok tree → ¬ HoldsExpression tree := by
  intro ops s rows
  have hcomposed : ∀ tree ∈ ops.flatMap Operation.trees, IsComposed tree := by
    simp [ops, Operation.trees, framedShades, Value.IsBuiltIn]
  have hrows : s.renderVariables = .ok rows := by rfl
  obtain ⟨hvariables, htrees, -, hleaves⟩ :=
    run_renders_expressions "light" "colors" true ops hcomposed
  have hhides : ∀ v ∈ s.toList, ¬ HidesExpression v.value := by
    refine hleaves fun tree htree leaf hleaf => ?_
    obtain rfl : tree = framedShades := by simpa [ops, Operation.trees] using htree
    have hall : treeLeaves framedShades = [(["gray"], .list [.text "a", .text "b"]),
        (["muted"], .ref "gray.1"), (["frame"], .deferred (.format "1px {}" [.ref "muted"]))] := by
      rfl
    rw [hall] at hleaf
    simp only [List.mem_cons, List.not_mem_nil, or_false] at hleaf
    rcases hleaf with rfl | rfl | rfl
    · exact fun h => by simpa using h.holds
    · rintro ⟨h | h, -⟩ <;> cases h
    · rintro ⟨h | h, -⟩ <;> cases h
  exact ⟨hcomposed, hrows, (hvariables rows hrows).1.mpr hhides,
    fun tree htree => (htrees tree htree).mpr hhides⟩

/-- A row that holds a reference and a colour to be computed from it. -/
def stackedShadow : Value :=
  .map [(.text "base", .text "#fff"),
    (.text "stack", .list [.ref "base",
      .deferred (.alpha (.ref "base") (.float (.finite false 4503599627370496 (-53))))])]

/-- The style sheet prints the reference and the colour as the library describes them. -/
theorem run_renders_stacked :
    let ops : List Operation := [.add stackedShadow]
    let s := (empty "default" "shadow" true).run ops
    (∀ tree ∈ ops.flatMap Operation.trees, IsComposed tree) ∧
      (∃ rows, s.renderVariables = .ok rows ∧ ∃ row ∈ rows, HoldsExpression row.2) ∧
      (∃ tree, s.renderTree = .ok tree ∧ HoldsExpression tree) ∧
      ∃ m, (ModeSet.empty "shadow" "shadow" .unset).add "default" s = .ok m ∧
        m.mixin "proj" "default" = .ok ("\n".intercalate
          ["@mixin proj-shadow-default \x7b", "  & \x7b", "    --shadow-base: #fff;",
            "    --shadow-stack: get(base), alpha(get(base), 0.5);", "  \x7d", "\x7d", ""]) := by
  intro ops s
  have hcomposed : ∀ tree ∈ ops.flatMap Operation.trees, IsComposed tree := by
    simp [ops, Operation.trees, stackedShadow, Value.IsBuiltIn]
  have hholds : ∀ xs, HoldsExpression (.list (.ref "base" :: xs)) :=
    fun xs => .inside List.mem_cons_self (.ref "base")
  refine ⟨hcomposed, ⟨_, rfl, _, List.mem_cons_of_mem _ List.mem_cons_self, hholds _⟩,
    ⟨_, rfl, .inside (Value.mem_inner_map.mpr
      ⟨_, List.mem_cons_of_mem _ List.mem_cons_self, Or.inr rfl⟩) (hholds _)⟩, _, rfl, by rfl⟩

end VariableSet

end DesignTokens
