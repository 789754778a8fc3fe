import DesignTokens.Proofs.Gate
import DesignTokens.Proofs.Renderings
import DesignTokens.Proofs.Writable

/-! Which modes a format can express, whatever platform renders them. Validation renders the tree of a
mode; style sheets evaluate its variables one by one and so need a value with a text that is no mapping
for each, and an encoding of all these texts; the other formats write the rendered tree as JSON and so
need one that can be written. -/
namespace DesignTokens

section Rendering

variable [Platform] {theme x y v : Value}

/-- A mapping is rendered entry by entry. -/
theorem renderNode_map_eq_ok {es : List (Value × Value)} : renderNode theme (.map es) = .ok y ↔
    ∃ es', y = .map es' ∧
      List.Forall₂ (fun e e' => e'.1 = e.1 ∧ renderNode theme e.2 = .ok e'.2) es es' := by
  simp only [renderNode_eq_computeNode]
  exact computeNode_map_eq_ok

/-- Where a tree is rendered, what stands at a path in it is. -/
theorem renderNode_at? {path : List String} (h : renderNode theme x = .ok y)
    (hat : x.at? path = some v) : ∃ w, renderNode theme v = .ok w := by
  rw [renderNode_eq_computeNode] at h
  obtain ⟨w, hw, -⟩ := computeNode_at? h hat
  exact ⟨w, by rw [renderNode_eq_computeNode, hw]⟩

theorem renderNode_of_ne_map (h : ∀ es, v ≠ .map es) : renderNode theme v = evaluate theme v := by
  rw [renderNode_eq_computeNode, computeNode_of_ne_map h]

/-- What is rendered is evaluated, or is a group of which all entries are rendered. -/
theorem renderNode_cases (h : renderNode theme v = .ok y) : evaluate theme v = .ok y ∨
    ∃ es es', v = .map es ∧ y = .map es' ∧
      List.Forall₂ (fun e e' => e'.1 = e.1 ∧ renderNode theme e.2 = .ok e'.2) es es' := by
  by_cases hmap : ∃ es, v = .map es
  · obtain ⟨es, rfl⟩ := hmap
    obtain ⟨es', hy, heach⟩ := renderNode_map_eq_ok.mp h
    exact Or.inr ⟨es, es', rfl, hy, heach⟩
  · rw [renderNode_of_ne_map fun es he => hmap ⟨es, he⟩] at h
    exact Or.inl h

theorem evaluate_map (es : List (Value × Value)) :
    evaluate theme (.map es) = .error (.render .group) := by
  simp [evaluate, evaluateFrom, maxNesting, Token.of, maxDepth]

end Rendering

theorem exists_camelText {tree : Value} : (∃ text, camelText tree = .ok text) ↔
    hasCamelForm tree = true ∧ Json.Writable (camelizeKeys tree) := by
  rw [← exists_jsonText, camelText]
  cases hasCamelForm tree <;> simp

namespace VariableSet

/-- In a mode whose tree is rendered the variables are too, unless the value of one is a mapping. -/
theorem Coherent.exists_renderVariables [Platform] {s : VariableSet} {tree : Value}
    (h : s.Coherent) (htree : s.renderTree = .ok tree) :
    (∃ properties, s.renderVariables = .ok properties) ↔
      ∀ v ∈ s.toList, ∀ es, v.value ≠ .map es := by
  obtain ⟨es, hes, harr⟩ := h.tree
  rw [renderTree, hes, ok_bind] at htree
  rw [renderVariables_eq, exists_computeVariables hes]
  -- Evaluation refuses a mapping; any other value stands in the tree at its path, and it is
  -- evaluated there when the tree is rendered.
  refine forall₂_congr fun v hv => ⟨fun hok inner hinner => ?_, fun hne => ?_⟩
  · obtain ⟨w, hw⟩ := hok
    rw [hinner, evaluate_map] at hw
    cases hw
  · have hat := harr.at?_eq (List.mem_map.mpr ⟨v, hv, rfl⟩)
    obtain ⟨w, hw⟩ := renderNode_at? htree hat
    exact ⟨w, by rw [← renderNode_of_ne_map hne, hw]⟩

end VariableSet

/-- What a format asks of a mode whose tree is rendered. A style sheet also asks for a text of the
namespace that its mixins stand in. -/
def OutputFormat.Emits [Platform] (f : OutputFormat) (namespaceName : Value) (m : ModeSet)
    (mode : String × VariableSet) : Prop :=
  match f with
  | .scss => namespaceName.hasText = true ∧ (∀ v ∈ mode.2.toList, ∀ es, v.value ≠ .map es) ∧
      ∀ properties, mode.2.renderVariables = .ok properties →
        (∀ p ∈ properties, p.2.hasText = true) ∧
          Platform.encodes (m.mixinText namespaceName.plain mode.1 properties) = true
  | .dtcg => ∀ tree, mode.2.renderTree = .ok tree → Json.Writable tree
  | .json => ∀ tree, mode.2.renderTree = .ok tree →
      hasCamelForm tree = true ∧ Json.Writable (camelizeKeys tree)
  | .ts => ∀ tree, mode.2.renderTree = .ok tree →
      hasCamelForm tree = true ∧ Json.Writable (camelizeKeys tree)

theorem lookup_of_mem {α : Type} {entries : List (String × α)}
    (hnodup : (entries.map (·.1)).Nodup) {entry : String × α} (h : entry ∈ entries) :
    entries.lookup entry.1 = some entry.2 := by
  induction entries with
  | nil => cases h
  | cons first rest ih =>
    obtain ⟨name, a⟩ := first
    obtain ⟨hfirst, hrest⟩ := List.nodup_cons.mp hnodup
    rcases List.mem_cons.mp h with rfl | hmem
    · simp
    · have hne : entry.1 ≠ name := by
        rintro rfl
        exact hfirst (List.mem_map.mpr ⟨entry, hmem, rfl⟩)
      rw [List.lookup_cons, beq_false_of_ne hne]
      exact ih hrest hmem

theorem Writing.encoded_eq_ok [Platform] {text encoded : String} :
    Writing.encoded text = .ok encoded ↔ Platform.encodes text = true ∧ text = encoded := by
  unfold Writing.encoded
  cases Platform.encodes text <;> simp [throw, throwThe, MonadExceptOf.throw]

theorem Value.plain?_eq_ok {v : Value} {text : String} :
    v.plain? = .ok text ↔ v.hasText = true ∧ v.plain = text := by
  unfold plain?
  cases v.hasText <;> simp

namespace ModeSet

variable [Platform]

/-- The modes have names of their own, and each can be reached and rendered. -/
structure Rendered (m : ModeSet) : Prop where
  names_nodup : m.names.Nodup
  coherent : ∀ mode ∈ m.modes, mode.2.Coherent
  trees : ∀ mode ∈ m.modes, ∃ tree, mode.2.renderTree = .ok tree

variable {m : ModeSet} {mode : String × VariableSet}

theorem Rendered.require (h : m.Rendered) (hmode : mode ∈ m.modes) :
    m.require mode.1 = .ok mode.2 := by
  simp [ModeSet.require, get?, lookup_of_mem h.names_nodup hmode]

/-- The mixin of a mode is the text of its rendered variables, if these and its namespace have
texts. -/
theorem mixin_eq_ok {s : VariableSet} {name text : String} (hrequire : m.require name = .ok s)
    {namespaceName : Value} : m.mixin namespaceName name = .ok text ↔
      namespaceName.hasText = true ∧ ∃ properties, s.renderVariables = .ok properties ∧
        (∀ p ∈ properties, p.2.hasText = true) ∧
          m.mixinText namespaceName.plain name properties = text := by
  rw [mixin, hrequire, ok_bind]
  simp only [bind_eq_ok, Value.plain?_eq_ok]
  constructor
  · rintro ⟨_, ⟨hnamespace, rfl⟩, properties, hproperties, h⟩
    split at h
    · cases h
    · next hall =>
      cases h
      exact ⟨hnamespace, properties, hproperties, by simpa using hall, rfl⟩
  · rintro ⟨hnamespace, properties, hproperties, hall, rfl⟩
    refine ⟨_, ⟨hnamespace, rfl⟩, properties, hproperties, ?_⟩
    rw [if_neg (by simpa using hall)]
    rfl

/-- A mode has a text in a format exactly if the format can express it. -/
theorem Rendered.exists_modeText (h : m.Rendered) (hmode : mode ∈ m.modes) (f : OutputFormat)
    (namespaceName : Value) : (∃ text, f.modeText namespaceName m mode.1 mode.2 = .ok text) ↔
      f.Emits namespaceName m mode := by
  have hrequire := h.require hmode
  obtain ⟨tree, htree⟩ := h.trees mode hmode
  have hcamel : (∃ text, mode.2.camelJson = .ok text) ↔ ∀ tree, mode.2.renderTree = .ok tree →
      hasCamelForm tree = true ∧ Json.Writable (camelizeKeys tree) := by
    simp [VariableSet.camelJson, htree, exists_camelText]
  cases f with
  | scss =>
    rw [OutputFormat.Emits, ← (h.coherent mode hmode).exists_renderVariables htree]
    simp only [OutputFormat.modeText, bind_eq_ok, mixin_eq_ok hrequire, Writing.encoded_eq_ok]
    cases mode.2.renderVariables <;> simp [and_assoc]
  | json =>
    rw [OutputFormat.Emits, ← hcamel]
    simp only [OutputFormat.modeText]
    cases mode.2.camelJson <;> simp [pure, Except.pure]
  | dtcg =>
    simp [OutputFormat.Emits, OutputFormat.modeText, dtcgTokens, hrequire, htree, exists_jsonText,
      writable_toDtcg]
  | ts =>
    rw [OutputFormat.Emits, ← hcamel]
    simp only [OutputFormat.modeText, scriptModule, hrequire, ok_bind]
    cases mode.2.camelJson <;> simp [pure, Except.pure]

end ModeSet

theorem TypeResult.Passes.rendered_finished [Yaml.Library] [Platform] {t : FileTree} {m : Manifest}
    {directory : Path} {s : TypeSource} {modes : List (String × VariableSet)}
    (h : Passes t m directory s modes)
    (configured : Baseline) : (s.finished modes configured).Rendered := by
  have hnames : modes.map (·.1) = (s.kept (m.skippedModes directory.name)).map (·.1) :=
    (map_eq_map_of_forall₂ (h.flattened.imp fun mode b hb => hb.1.symm)).symm
  refine ⟨?_, ?_, finished_rendered.mpr h.rendered⟩
  · rw [TypeSource.finished_names, hnames]
    exact (List.filter_sublist.map _).nodup (TypeSource.read_eq_ok h.source).2
  · rw [TypeSource.finished_modes, List.forall_mem_map]
    intro mode hmode
    obtain ⟨source, -, -, hflat⟩ := exists_left_of_forall₂ h.flattened hmode
    obtain ⟨ops, hops⟩ := TypeSource.flatten_reached hflat
    have hcoherent : mode.2.Coherent := hops ▸ (VariableSet.empty_coherent _ _ _).run ops
    exact hcoherent.finalize

end DesignTokens
