import DesignTokens.Proofs.Reached
import DesignTokens.Proofs.Splitting

/-! How variables are addressed. A name is the prefix, a hyphen and the dotted path, so a variable is
found under its name and under its dotted path, also where a segment of its path holds dots. A path
is told by its name only if none does. -/
namespace DesignTokens

/-- A path and its dotted form have one name, whatever its segments hold. -/
theorem nameOfDotted_dottedPath (typePrefix : String) (path : List String) :
    nameOfDotted typePrefix (dottedPath path) = fullName typePrefix path := by
  have hdotted := dottedPath_splitPath (dottedPath path)
  rw [dottedPath, dottedPath] at hdotted
  rw [nameOfDotted, fullName, fullName, dottedPath, hdotted]

theorem fullName?_of_ne_nil (typePrefix : String) {path : List String} (h : path ≠ []) :
    fullName? typePrefix path = .ok (fullName typePrefix path) := by
  simp [fullName?, h]

/-- Paths without dots in their segments have different names, and the empty path has none. -/
theorem fullName?_inj {typePrefix : String} {p q : List String} (hp : DotFree p) (hq : DotFree q)
    (h : fullName? typePrefix p = fullName? typePrefix q) : p = q := by
  cases p with
  | nil =>
    cases q with
    | nil => rfl
    | cons segment rest => cases h
  | cons segment rest =>
    cases q with
    | nil => cases h
    | cons segment' rest' =>
      exact fullName_inj (List.cons_ne_nil _ _) (List.cons_ne_nil _ _) hp hq (Except.ok.inj h)

namespace VariableSet

namespace Coherent

variable {s : VariableSet} {v : Variable} {name dotted : String}

/-- A name is that of one variable. -/
theorem get?_eq_some (h : s.Coherent) : s.get? name = some v ↔ v ∈ s.toList ∧ v.name = name := by
  constructor
  · exact mem_of_get?
  · rintro ⟨hv, rfl⟩
    exact h.get?_of_mem hv

/-- A dotted path is that of one variable. -/
theorem getPath?_eq_some (h : s.Coherent) :
    s.getPath? dotted = some v ↔ v ∈ s.toList ∧ v.dotted = dotted := by
  rw [getPath?, h.get?_eq_some]
  refine and_congr_right fun hv => ?_
  rw [h.name_eq v hv, Variable.dotted]
  constructor
  · intro hname
    rw [dottedPath_eq_of_fullName_eq hname, dottedPath_splitPath]
  · rintro rfl
    exact (nameOfDotted_dottedPath s.typePrefix v.path).symm

end Coherent

/-- The name of a path is that of its dotted form. A path without dots in its segments is told by
its dotted form and by its name. And after any run of operations on a fresh set each variable is
found under its dotted path and under its name, whatever its path holds. -/
theorem run_addressed (typePrefix : String) :
    (∀ path : List Value, path ≠ [] → fullName? typePrefix (path.map Value.plain) =
      .ok (nameOfDotted typePrefix (dottedPath (path.map Value.plain)))) ∧
    (∀ path, path ≠ [] → DotFree path → splitPath (dottedPath path) = path) ∧
    (∀ p q, DotFree p → DotFree q → fullName? typePrefix p = fullName? typePrefix q → p = q) ∧
    ∀ mode strict ops, let s := (empty mode typePrefix strict).run ops
      ∀ v ∈ s.toList, s.getPath? v.dotted = some v ∧ s.get? v.name = some v := by
  refine ⟨fun path hne => ?_, fun _ => splitPath_dottedPath, fun _ _ => fullName?_inj, ?_⟩
  · rw [nameOfDotted_dottedPath]
    exact fullName?_of_ne_nil typePrefix (by simpa using hne)
  · intro mode strict ops s v hv
    have hs : s.Coherent := (empty_coherent mode typePrefix strict).run ops
    exact ⟨hs.getPath?_eq_some.mpr ⟨hv, rfl⟩, hs.get?_eq_some.mpr ⟨hv, rfl⟩⟩

/-- An empty segment and one that is an integer; and a variable whose path has changed from one
segment with a dot to two under the same name. -/
theorem run_addressed_respelled :
    let s := (empty "light" "p" true).run [.add (.map [(.text "a.b", .int 1)]),
      .add (.map [(.text "a", .map [(.text "b", .int 2)])])]
    fullName? "p" ["", "0"] = .ok (nameOfDotted "p" ".0") ∧ splitPath ".0" = ["", "0"] ∧
    s.toList = [⟨"p-a.b", .int 2, ["a", "b"], "light"⟩] ∧
    s.getPath? "a.b" = some ⟨"p-a.b", .int 2, ["a", "b"], "light"⟩ ∧
    s.get? "p-a.b" = some ⟨"p-a.b", .int 2, ["a", "b"], "light"⟩ := by
  obtain ⟨hname, hsplit, -, hfound⟩ := run_addressed "p"
  refine ⟨hname [.text "", .int 0] (by decide), hsplit ["", "0"] (by decide) (by decide), by rfl, ?_⟩
  exact hfound "light" true _ ⟨"p-a.b", .int 2, ["a", "b"], "light"⟩ (.head _)

end VariableSet

end DesignTokens
