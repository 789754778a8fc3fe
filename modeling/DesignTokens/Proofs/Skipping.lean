import DesignTokens.Proofs.Manifests
import DesignTokens.Proofs.Splitting
import DesignTokens.Proofs.Trimming

/-! Skip rules as text. Rules with commas between them are read back as they are, whatever blank
items and white space stand around them, and a text is refused only for an item that is no rule. -/
namespace DesignTokens.SkipRule

open Text (isBlank strip stripText splitOn)

variable {rule : SkipRule} {item before after : String} {items : List String}
  {rules : List SkipRule}

/-- The text of a rule. -/
def text (rule : SkipRule) : String := rule.type ++ "/" ++ rule.mode

/-- A rule whose text can be told apart from its surroundings: the first slash ends its type, no
comma cuts it, and no white space is at either end. The inner ends may be white space. -/
structure Spellable (rule : SkipRule) : Prop where
  type_ne : rule.type.toList ≠ []
  mode_ne : rule.mode.toList ≠ []
  type_clean : '/' ∉ rule.type.toList ∧ ',' ∉ rule.type.toList
  mode_clean : ',' ∉ rule.mode.toList
  first : ∀ c ∈ rule.type.toList.head?, isBlank c = false
  last : ∀ c ∈ rule.mode.toList.getLast?, isBlank c = false

/-- White space alone, or nothing. -/
def IsSpace (s : String) : Prop := ∀ c ∈ s.toList, isBlank c = true

instance (s : String) : Decidable (IsSpace s) := List.decidableBAll _ s.toList

/-- The items of rules in their order, each with white space around it, and blank items anywhere. -/
inductive Row : List String → List SkipRule → Prop where
  | nil : Row [] []
  | blank {items : List String} {rules : List SkipRule} (space : String) (hspace : IsSpace space)
      (h : Row items rules) : Row (space :: items) rules
  | rule {items : List String} {rules : List SkipRule} (before : String) (rule : SkipRule)
      (after : String) (hbefore : IsSpace before) (hrule : rule.Spellable) (hafter : IsSpace after)
      (h : Row items rules) : Row ((before ++ (rule.text ++ after)) :: items) (rule :: rules)

/-- A text that spells no rule: it has no slash, or nothing before its first one or behind it. -/
def Broken (s : List Char) : Prop :=
  '/' ∉ s ∨ ∃ type mode, s = type ++ '/' :: mode ∧ '/' ∉ type ∧ (type = [] ∨ mode = [])

theorem text_toList (rule : SkipRule) :
    rule.text.toList = rule.type.toList ++ '/' :: rule.mode.toList := by
  simp [text]

theorem Spellable.strip_text (h : rule.Spellable) : strip rule.text.toList = rule.text.toList := by
  apply Text.strip_eq_self
  · rw [text_toList, List.head?_append_of_ne_nil _ h.type_ne]
    exact h.first
  · rw [text_toList, List.getLast?_append_of_ne_nil _ (List.cons_ne_nil _ _),
      List.getLast?_cons_of_ne_nil h.mode_ne]
    exact h.last

/-- White space around a rule is no part of it. -/
theorem Spellable.spells_padded (h : rule.Spellable) (hbefore : IsSpace before)
    (hafter : IsSpace after) : Spells (before ++ (rule.text ++ after)) rule := by
  have hstrip : strip (before ++ (rule.text ++ after)).toList =
      rule.type.toList ++ '/' :: rule.mode.toList := by
    rw [String.toList_append, String.toList_append, Text.strip_append hbefore hafter, h.strip_text,
      text_toList]
  simpa using Spells.intro hstrip h.type_ne h.type_clean.1 h.mode_ne

/-- An item that spells a rule is not blank. -/
theorem Spells.stripText_ne (h : Spells item rule) : stripText item ≠ "" := by
  cases h with
  | intro htext => simp [stripText, htext]

namespace Row

/-- No item of a row is cut by the commas between them. -/
theorem comma_not_mem (h : Row items rules) : ∀ item ∈ items, ',' ∉ item.toList := by
  have hspace : ∀ {s : String}, IsSpace s → ',' ∉ s.toList :=
    fun hs hcomma => absurd (hs _ hcomma) (by decide)
  induction h with
  | nil => nofun
  | blank space hblank _ ih => exact List.forall_mem_cons.mpr ⟨hspace hblank, ih⟩
  | rule before rule after hbefore hrule hafter _ ih =>
    refine List.forall_mem_cons.mpr ⟨?_, ih⟩
    simp [text_toList, hspace hbefore, hspace hafter, hrule.type_clean.2, hrule.mode_clean]

/-- The items of a row that are not blank are read as its rules. -/
theorem mapM_read (h : Row items rules) :
    (items.filter fun item => stripText item != "").mapM read = .ok rules := by
  induction h with
  | nil => rfl
  | blank space hblank _ ih =>
    have hempty : stripText space = "" := by simp [stripText, Text.strip_eq_nil.mpr hblank]
    rw [List.filter_cons_of_neg (by simp [hempty]), ih]
  | rule before rule after hbefore hrule hafter _ ih =>
    have hspells := hrule.spells_padded hbefore hafter
    rw [List.filter_cons_of_pos (by simpa using hspells.stripText_ne), List.mapM_cons,
      hspells.read_eq, ih]
    rfl

theorem readAll_eq (h : Row items rules) : readAll (",".intercalate items) = .ok rules := by
  by_cases hne : items = []
  · subst hne
    cases h
    rfl
  · have hcut : splitOn ',' (",".intercalate items) = items :=
      Text.splitOn_intercalate hne h.comma_not_mem
    rw [readAll, hcut, h.mapM_read]

end Row

/-- A text that is broken is one that spells no rule. -/
theorem broken_iff : Broken (strip item.toList) ↔ ∀ rule, ¬ Spells item rule := by
  constructor
  · intro hbroken rule hspells
    cases hspells with
    | @intro type mode htext htype hslash hmode =>
      rcases hbroken with hnone | ⟨type', mode', htext', hslash', hempty⟩
      · simp [htext] at hnone
      · -- Both cut the text at its first slash.
        have hcut := Text.cutAt?_eq_some.mpr ⟨htext, hslash⟩
        rw [Text.cutAt?_eq_some.mpr ⟨htext', hslash'⟩] at hcut
        cases hcut
        exact hempty.elim htype hmode
  · intro hnone
    by_cases hslash : '/' ∈ strip item.toList
    · obtain ⟨type, mode, htext, htype⟩ := List.eq_append_cons_of_mem hslash
      refine Or.inr ⟨type, mode, htext, htype, ?_⟩
      by_contra hfull
      obtain ⟨hne, hne'⟩ := not_or.mp hfull
      exact hnone _ (.intro htext hne htype hne')
    · exact Or.inl hslash

/-- A text of rules is refused, with an error of the manifest, exactly for a broken item. -/
theorem ofEnvironment_refuses (rules : String) :
    (∃ e, ofEnvironment (some rules) = .error (.of (.manifest e))) ↔
      ∃ item ∈ splitOn ',' rules, stripText item ≠ "" ∧ Broken (strip item.toList) := by
  constructor
  · intro h
    obtain ⟨e, he⟩ := h
    obtain ⟨item, ⟨_, hrules, hitem, hblank⟩, -, hnone⟩ := ofEnvironment_eq_error he
    cases hrules
    exact ⟨item, hitem, hblank, broken_iff.mpr hnone⟩
  · intro h
    obtain ⟨item, hitem, hblank, hbroken⟩ := h
    cases hread : ofEnvironment (some rules) with
    | ok rules' =>
      obtain ⟨rule, hrule⟩ := exists_spells_of_environment hread ⟨rules, rfl, hitem, hblank⟩
      exact absurd hrule (broken_iff.mp hbroken rule)
    | error f =>
      obtain ⟨item', -, rfl, -⟩ := ofEnvironment_eq_error hread
      exact ⟨_, rfl⟩

theorem mem_skippedModes {m : Manifest} {type mode : String} :
    mode ∈ m.skippedModes type ↔ ⟨type, mode⟩ ∈ m.skip := by
  simp only [Manifest.skippedModes, List.mem_map, List.mem_filter, beq_iff_eq]
  constructor
  · rintro ⟨rule, ⟨hrule, rfl⟩, rfl⟩
    exact hrule
  · intro h
    exact ⟨_, ⟨h, rfl⟩, rfl⟩

/-- The text form of rules. Rules in a row are read back in their order, and the manifest skips for
each type the modes that they pair with it. Any text is read unless an item of it that is not blank
has no slash, or nothing before its first slash or behind it; then the manifest is in error. -/
theorem ofEnvironment_row (h : Row items rules) (root : Path) (environment : String) :
    ofEnvironment (some (",".intercalate items)) = .ok rules ∧
    (∃ m, Manifest.default root (some (",".intercalate items)) = .ok m ∧ m.skip = rules ∧
      ∀ type mode, mode ∈ m.skippedModes type ↔ ⟨type, mode⟩ ∈ rules) ∧
    ((∃ e, ofEnvironment (some environment) = .error (.of (.manifest e))) ↔
      ∃ item ∈ splitOn ',' environment, stripText item ≠ "" ∧ Broken (strip item.toList)) ∧
    ∀ f, ofEnvironment (some environment) = .error f → ∃ e, f = .of (.manifest e) := by
  have hread : ofEnvironment (some (",".intercalate items)) = .ok rules := h.readAll_eq
  refine ⟨hread, ?_, ofEnvironment_refuses environment, fun f hf => ?_⟩
  · refine ⟨{ root, name := Manifest.defaultName root, skip := rules }, ?_, rfl, fun type mode => ?_⟩
    · rw [Manifest.default, hread]
      rfl
    · exact mem_skippedModes
  · obtain ⟨item, -, hitem, -⟩ := ofEnvironment_eq_error hf
    exact ⟨_, hitem⟩

/-- White space at the inner ends, a slash within a mode and a blank item; a text whose second item
is no rule. -/
theorem ofEnvironment_row_padded :
    Row [" a b/ c/d ", "", "\n x/y"] [⟨"a b", " c/d"⟩, ⟨"x", "y"⟩] ∧
    ofEnvironment (some " a b/ c/d ,,\n x/y") = .ok [⟨"a b", " c/d"⟩, ⟨"x", "y"⟩] ∧
    (∃ m, Manifest.default ⟨"/", ["p"]⟩ (some " a b/ c/d ,,\n x/y") = .ok m ∧
      " c/d" ∈ m.skippedModes "a b" ∧ "y" ∉ m.skippedModes "a b") ∧
    ∃ e, ofEnvironment (some "x/y, /z") = .error (.of (.manifest e)) := by
  have hspace : IsSpace " " ∧ IsSpace "" ∧ IsSpace "\n " := by decide
  have hinner : Spellable ⟨"a b", " c/d"⟩ := by constructor <;> simp [isBlank]
  have hplain : Spellable ⟨"x", "y"⟩ := by constructor <;> simp [isBlank]
  have hrow : Row [" a b/ c/d ", "", "\n x/y"] [⟨"a b", " c/d"⟩, ⟨"x", "y"⟩] :=
    .rule " " _ " " hspace.1 hinner hspace.1
      (.blank "" hspace.2.1 (.rule "\n " _ "" hspace.2.2 hplain hspace.2.1 .nil))
  obtain ⟨hread, ⟨m, hm, -, hskipped⟩, hrefused, -⟩ := ofEnvironment_row hrow ⟨"/", ["p"]⟩ "x/y, /z"
  refine ⟨hrow, hread, ⟨m, hm, (hskipped _ _).mpr (by decide), ?_⟩, hrefused.mpr ?_⟩
  · rw [hskipped]
    decide
  · have hcut : " /z" ∈ splitOn ',' "x/y, /z" ∧ stripText " /z" ≠ "" ∧
        strip " /z".toList = ['/', 'z'] := by decide
    exact ⟨" /z", hcut.1, hcut.2.1, Or.inr ⟨[], ['z'], hcut.2.2, List.not_mem_nil, Or.inl rfl⟩⟩

end DesignTokens.SkipRule
