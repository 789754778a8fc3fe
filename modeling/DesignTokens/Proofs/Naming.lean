import DesignTokens.VariableSet

/-! Nested paths and their names. A path that goes on where another ends has a longer name, so
nested paths never share a name, although paths with dots in their segments may. -/
namespace DesignTokens

/-- The first path lies inside the second: it goes on where that one ends. -/
def Inside (inner outer : List String) : Prop := outer <+: inner ∧ outer ≠ inner

/-- One of two paths lies inside the other, so they cannot both hold values. -/
def Clash (p q : List String) : Prop := Inside p q ∨ Inside q p

instance (inner outer : List String) : Decidable (Inside inner outer) :=
  inferInstanceAs (Decidable (_ ∧ _))

instance (p q : List String) : Decidable (Clash p q) := inferInstanceAs (Decidable (_ ∨ _))

theorem inside_iff_append {inner outer : List String} :
    Inside inner outer ↔ ∃ rest, rest ≠ [] ∧ inner = outer ++ rest := by
  constructor
  · intro h
    obtain ⟨⟨rest, rfl⟩, hne⟩ := h
    exact ⟨rest, fun h => hne (by simp [h]), rfl⟩
  · intro h
    obtain ⟨rest, hrest, rfl⟩ := h
    exact ⟨List.prefix_append outer rest, by simpa using hrest⟩

theorem inside_length {inner outer : List String} (h : Inside inner outer) :
    outer.length < inner.length := by
  obtain ⟨rest, hrest, rfl⟩ := inside_iff_append.mp h
  have := List.length_pos_iff.mpr hrest
  simp only [List.length_append]
  omega

theorem inside_iff_length {inner outer : List String} :
    Inside inner outer ↔ outer.length < inner.length ∧ outer <+: inner :=
  ⟨fun h => ⟨inside_length h, h.1⟩, fun h => ⟨h.2, fun he => by simp [he] at h⟩⟩

theorem inside_ne_nil {inner outer : List String} (h : Inside inner outer) : inner ≠ [] := by
  intro he
  simpa [he] using inside_length h

theorem inside_irrefl (p : List String) : ¬ Inside p p := fun h => h.2 rfl

theorem inside_trans {p q r : List String} (hpq : Inside p q) (hqr : Inside q r) : Inside p r :=
  inside_iff_length.mpr
    ⟨Nat.lt_trans (inside_length hqr) (inside_length hpq), hqr.1.trans hpq.1⟩

theorem clash_symm {p q : List String} (h : Clash p q) : Clash q p := Or.symm h

@[simp] theorem inside_cons {k l : String} {inner outer : List String} :
    Inside (k :: inner) (l :: outer) ↔ l = k ∧ Inside inner outer := by
  simp only [Inside, List.cons_prefix_cons, ne_eq, List.cons.injEq]
  grind

@[simp] theorem inside_nil (path : List String) : Inside path [] ↔ path ≠ [] := by
  simp [Inside, eq_comm]

theorem mem_properPrefixes {path start : List String} :
    start ∈ properPrefixes path ↔ start ≠ [] ∧ Inside path start := by
  simp only [properPrefixes, List.mem_map, List.mem_range, inside_iff_append]
  constructor
  · intro h
    obtain ⟨i, hi, rfl⟩ := h
    refine ⟨by simp; rintro rfl; simp at hi, path.drop (i + 1), ?_,
      (List.take_append_drop (i + 1) path).symm⟩
    simp only [ne_eq, List.drop_eq_nil_iff]
    omega
  · intro h
    obtain ⟨hstart, rest, hrest, rfl⟩ := h
    have hs := List.length_pos_iff.mpr hstart
    have hr := List.length_pos_iff.mpr hrest
    refine ⟨start.length - 1, by simp only [List.length_append]; omega, ?_⟩
    rw [Nat.sub_add_cancel hs, List.take_left]

theorem fullName_append (typePrefix : String) {start rest : List String} (hs : start ≠ [])
    (hr : rest ≠ []) :
    fullName typePrefix (start ++ rest) =
      fullName typePrefix start ++ ("." ++ ".".intercalate rest) := by
  simp [fullName, String.intercalate_append_of_ne_nil hs hr, String.append_assoc]

/-- The name of a path is shorter than that of any path inside it. -/
theorem fullName_length_lt (typePrefix : String) {inner outer : List String} (ho : outer ≠ [])
    (h : Inside inner outer) :
    (fullName typePrefix outer).length < (fullName typePrefix inner).length := by
  obtain ⟨rest, hrest, rfl⟩ := inside_iff_append.mp h
  rw [fullName_append typePrefix ho hrest]
  simp only [String.length_append]
  have : (".").length = 1 := rfl
  omega

/-- Paths that clash have different names. -/
theorem fullName_ne_of_clash (typePrefix : String) {p q : List String} (hp : p ≠ []) (hq : q ≠ [])
    (h : Clash p q) : fullName typePrefix p ≠ fullName typePrefix q := by
  intro he
  rcases h with h | h
  · have := fullName_length_lt typePrefix hq h
    rw [he] at this
    omega
  · have := fullName_length_lt typePrefix hp h
    rw [he] at this
    omega

end DesignTokens
