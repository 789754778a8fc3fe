import DesignTokens.Proofs.Traversal
import DesignTokens.Template.Standard

/-! The two renderings of a mode. One computes the variables in their order, the other walks the tree
and takes every value that is no mapping for a leaf. Unless a variable has a mapping as its value they
compute the same values from the same tree, whatever a deferred value does with it. -/
namespace DesignTokens.VariableSet

/-- The tree of the mode with what is computed for its leaves, given the tree. -/
def computeTree (s : VariableSet) (compute : Value → Value → Except Failure Value) :
    Except Failure Value := do
  let theme ← s.tree
  computeNode (compute theme) theme

/-- The names of the mode with what is computed for the variables, given the tree, in order. -/
def computeVariables (s : VariableSet) (compute : Value → Value → Except Failure Value) :
    Except Failure (List (String × Value)) := do
  let theme ← s.tree
  s.toList.mapM fun v => do return (v.name, ← compute theme v.value)

theorem renderTree_eq [Platform] (s : VariableSet) : s.renderTree = s.computeTree evaluate := by
  simp only [renderTree, computeTree, renderNode_eq_computeNode]

theorem renderVariables_eq [Platform] (s : VariableSet) :
    s.renderVariables = s.computeVariables evaluate := rfl

/-- A tree and a row of named values agree: the row has each variable once, in order, with what stands
at its path in the tree, and the tree has no other positions than these and the groups on the way. -/
structure Agree (s : VariableSet) (tree : Value) (rows : List (String × Value)) : Prop where
  names_nodup : s.names.Nodup
  values : List.Forall₂ (fun v row => row.1 = v.name ∧ tree.at? v.path = some row.2) s.toList rows
  positions : ∀ ks y, ks ≠ [] → Position tree ks y →
    (∀ v ∈ s.toList, v.path.map Value.text <+: ks → v.path.map .text = ks) →
    ∃ path, ks = path.map .text ∧ ((∃ v ∈ s.toList, v.path = path ∧ tree.at? path = some y) ∨
      (∃ v ∈ s.toList, Inside v.path path) ∧ ∃ inner, y = .map inner)

/-- Two renderings succeed together, and then they agree. -/
def RenderAlike (s : VariableSet) (tree? : Except Failure Value)
    (rows? : Except Failure (List (String × Value))) : Prop :=
  ((∃ tree, tree? = .ok tree) ↔ ∃ rows, rows? = .ok rows) ∧
    ∀ tree rows, tree? = .ok tree → rows? = .ok rows → s.Agree tree rows

section Computing

variable {s : VariableSet} {es : List (Value × Value)}
  {compute : Value → Value → Except Failure Value}

theorem mem_leaves_of_mem {v : Variable} (hv : v ∈ s.toList) : (v.path, v.value) ∈ s.leaves :=
  List.mem_map.mpr ⟨v, hv, rfl⟩

theorem exists_computeVariables (htree : s.tree = .ok (.map es)) :
    (∃ rows, s.computeVariables compute = .ok rows) ↔
      ∀ v ∈ s.toList, ∃ w, compute (.map es) v.value = .ok w := by
  rw [computeVariables, htree, ok_bind, exists_mapM_eq_ok]
  refine forall₂_congr fun v hv => ?_
  cases compute (.map es) v.value <;> simp [pure, Except.pure]

/-- Variables are computed one by one, each under its name. -/
theorem forall₂_computeVariables {theme : Value} {rows : List (String × Value)}
    (htheme : s.tree = .ok theme) (hrows : s.computeVariables compute = .ok rows) :
    List.Forall₂ (fun v row => row.1 = v.name ∧ compute theme v.value = .ok row.2)
      s.toList rows := by
  rw [computeVariables, htheme, ok_bind] at hrows
  refine (mapM_eq_ok.mp hrows).imp fun v row hrow => ?_
  obtain ⟨w, hw, he⟩ := bind_eq_ok.mp hrow
  cases he
  exact ⟨rfl, hw⟩

variable (hmap : ∀ v ∈ s.toList, ∀ es, v.value ≠ .map es)
include hmap

/-- What is computed for a variable stands at its path in the computed tree. -/
theorem at?_computeTree (harr : Arranged s.leaves (.map es)) {tree : Value}
    (h : computeNode (compute (.map es)) (.map es) = .ok tree) {v : Variable} (hv : v ∈ s.toList) :
    ∃ w, compute (.map es) v.value = .ok w ∧ tree.at? v.path = some w := by
  have hat : (Value.map es).at? v.path = some v.value := harr.at?_eq (mem_leaves_of_mem hv)
  obtain ⟨w, hw, htree⟩ := computeNode_at? h hat
  rw [computeNode_of_ne_map (hmap v hv)] at hw
  exact ⟨w, hw, htree⟩

/-- Where all variables can be computed the tree can, and arranges what is computed for them. -/
theorem exists_arranged (harr : Arranged s.leaves (.map es))
    (h : ∀ v ∈ s.toList, ∃ w, compute (.map es) v.value = .ok w) :
    ∃ f tree, computeNode (compute (.map es)) (.map es) = .ok tree ∧
      Arranged (mapLeaves f s.leaves) tree := by
  let f : Value → Value := fun v => (compute (.map es) v).toOption.getD .null
  have hf : ∀ v ∈ s.toList, compute (.map es) v.value = .ok (f v.value) := by
    intro v hv
    obtain ⟨w, hw⟩ := h v hv
    simp [f, hw, Except.toOption]
  refine ⟨f, harr.compute (fun l hl => ?_) fun l hl => ?_⟩
  · obtain ⟨v, hv, rfl⟩ := List.mem_map.mp hl
    exact hmap v hv
  · obtain ⟨v, hv, rfl⟩ := List.mem_map.mp hl
    exact hf v hv

theorem exists_computeTree (htree : s.tree = .ok (.map es)) (harr : Arranged s.leaves (.map es)) :
    (∃ tree, s.computeTree compute = .ok tree) ↔
      ∀ v ∈ s.toList, ∃ w, compute (.map es) v.value = .ok w := by
  rw [computeTree, htree, ok_bind]
  constructor
  · rintro ⟨tree, h⟩ v hv
    obtain ⟨w, hw, -⟩ := at?_computeTree hmap harr h hv
    exact ⟨w, hw⟩
  · intro h
    obtain ⟨f, tree, htree, -⟩ := exists_arranged hmap harr h
    exact ⟨tree, htree⟩

end Computing

/-- A computed tree arranges what is computed for the variables. -/
theorem Coherent.computeTree_arranged {s : VariableSet} (h : s.Coherent)
    (hmap : ∀ v ∈ s.toList, ∀ es, v.value ≠ .map es)
    {compute : Value → Value → Except Failure Value} {tree : Value}
    (htree : s.computeTree compute = .ok tree) :
    ∃ f, Arranged (mapLeaves f s.leaves) tree := by
  obtain ⟨es, hes, harr⟩ := h.tree
  have hall := (exists_computeTree hmap hes harr).mp ⟨tree, htree⟩
  obtain ⟨f, tree', htree', hout⟩ := exists_arranged hmap harr hall
  rw [computeTree, hes, ok_bind] at htree
  obtain rfl : tree = tree' := by simpa [htree] using htree'
  exact ⟨f, hout⟩

theorem Coherent.renderAlike {s : VariableSet} (h : s.Coherent)
    (hmap : ∀ v ∈ s.toList, ∀ es, v.value ≠ .map es)
    (compute : Value → Value → Except Failure Value) :
    s.RenderAlike (s.computeTree compute) (s.computeVariables compute) := by
  obtain ⟨es, hes, harr⟩ := h.tree
  refine ⟨(exists_computeTree hmap hes harr).trans (exists_computeVariables hes).symm, ?_⟩
  intro tree rows htree hrows
  obtain ⟨f, hout⟩ := h.computeTree_arranged hmap htree
  rw [computeTree, hes, ok_bind] at htree
  have hpaths : ∀ l ∈ mapLeaves f s.leaves, ∃ v ∈ s.toList, v.path = l.1 := by
    intro l hl
    obtain ⟨w, hw, -⟩ := mem_mapLeaves.mp hl
    obtain ⟨v, hv, he⟩ := List.mem_map.mp hw
    exact ⟨v, hv, (Prod.mk.inj he).1⟩
  refine ⟨h.names_nodup, ?_, fun ks y hks hpos houtside => ?_⟩
  · have heach := (List.forall₂_and_left _ _).mpr
      ⟨fun v hv => hv, forall₂_computeVariables hes hrows⟩
    refine heach.imp fun v row hrow => ?_
    obtain ⟨hv, hname, hvalue⟩ := hrow
    obtain ⟨w, hw, hat⟩ := at?_computeTree hmap harr htree hv
    obtain rfl : row.2 = w := by simpa [hvalue] using hw
    exact ⟨hname, hat⟩
  · have hne : mapLeaves f s.leaves ≠ [] := by
      intro hnil
      obtain ⟨es', rfl⟩ := (hnil ▸ hout : Arranged [] tree).eq_map (by simp)
      obtain rfl := (hnil ▸ hout : Arranged [] (.map es')).eq_nil
      cases hpos with
      | here => exact hks rfl
      | under hmem => simp at hmem
    have hbelow : ∀ l ∈ mapLeaves f s.leaves, l.1.map Value.text <+: ks → l.1.map .text = ks := by
      intro l hl
      obtain ⟨v, hv, he⟩ := hpaths l hl
      exact he ▸ houtside v hv
    obtain ⟨path, rfl, hat, hleaf | ⟨⟨l, hl, hinside⟩, hinner⟩⟩ := hout.of_position hne hpos hbelow
    · obtain ⟨v, hv, he⟩ := hpaths _ hleaf
      exact ⟨path, rfl, Or.inl ⟨v, hv, he, hat⟩⟩
    · obtain ⟨v, hv, he⟩ := hpaths l hl
      exact ⟨path, rfl, Or.inr ⟨⟨v, hv, he ▸ hinside⟩, hinner⟩⟩

/-- The two renderings of a mode agree after every run of operations that leaves no variable with a
mapping as its value: the tree can be rendered exactly if the variables can, and then each variable
has the value that stands at its path. So do all other ways to compute values from the tree, so that
it does not matter what a deferred value does with it. -/
theorem run_renderings_agree [Platform] (mode typePrefix : String) (strict : Bool)
    (ops : List Operation)
    (hmap : ∀ v ∈ ((empty mode typePrefix strict).run ops).toList, ∀ es, v.value ≠ .map es) :
    let s := (empty mode typePrefix strict).run ops
    s.RenderAlike s.renderTree s.renderVariables ∧
      ∀ compute : Value → Value → Except Failure Value,
        s.RenderAlike (s.computeTree compute) (s.computeVariables compute) := by
  intro s
  have hs : s.Coherent := (empty_coherent mode typePrefix strict).run ops
  refine ⟨?_, hs.renderAlike hmap⟩
  rw [renderTree_eq, renderVariables_eq]
  exact hs.renderAlike hmap evaluate

/-- A row, a reference into it, and a function that looks the reference up; an overlay then makes a
group of the row. -/
def replacedRow : List Value :=
  [.map [(.text "gray", .list [.text "a", .text "b"]), (.text "muted", .ref "gray.1"),
      (.text "late", .function "late" (.find "muted"))],
    .map [(.text "gray", .map [(.text "dark", .ref "muted")])]]

theorem run_renderings_agree_replaced :
    let s := (empty "light" "colors" true).run [.addAll replacedRow]
    let rows := [("colors-muted", .text "b"), ("colors-late", .text "b"),
      ("colors-gray.dark", .text "b")]
    (∀ v ∈ s.toList, ∀ es, v.value ≠ .map es) ∧ s.renderVariables = .ok rows ∧
      ∃ tree, s.renderTree = .ok tree ∧ s.Agree tree rows := by
  intro s rows
  have hvalues : s.toList.map (·.value) =
      [.text "b", .deferred (.described "late" "late" (.find "muted")), .text "b"] := by rfl
  have hmap : ∀ v ∈ s.toList, ∀ es, v.value ≠ .map es := by
    intro v hv es he
    have hmem : v.value ∈ s.toList.map (·.value) := List.mem_map.mpr ⟨v, hv, rfl⟩
    rw [hvalues, he] at hmem
    simp at hmem
  have hrows : s.renderVariables = .ok rows := by rfl
  obtain ⟨⟨hsucceed, hagree⟩, -⟩ :=
    run_renderings_agree "light" "colors" true [.addAll replacedRow] hmap
  obtain ⟨tree, htree⟩ := hsucceed.mpr ⟨rows, hrows⟩
  exact ⟨hmap, hrows, tree, htree, hagree tree rows htree hrows⟩

end DesignTokens.VariableSet
