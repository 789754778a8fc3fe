import DesignTokens.Proofs.Naming

/-! Dotted paths and their segments. Cutting a text at a character undoes joining pieces that do not
hold it, so paths without dots in their segments are told apart by their names. -/
namespace DesignTokens

namespace Text

variable {p : Char → Bool} {sep : Char}

/-- Texts are cut as the library cuts rows. -/
theorem splitWhere_eq_splitOnP (s : List Char) : splitWhere p s = s.splitOnP p := by
  induction s with
  | nil => rfl
  | cons c rest ih =>
    rw [splitWhere, List.splitOnP_cons_eq_if_modifyHead, ih]
    split
    · rfl
    · split
      · next hnil => exact absurd hnil (List.splitOnP_ne_nil p rest)
      · next hpieces =>
        rw [hpieces]
        rfl

theorem splitOn_eq_map (s : String) :
    splitOn sep s = (s.toList.splitOn sep).map String.ofList := by
  rw [splitOn, splitWhere_eq_splitOnP, List.splitOn_eq_splitOnP]

theorem splitWhere_of_forall {s : List Char} (h : ∀ c ∈ s, p c = false) :
    splitWhere p s = [s] := by
  rw [splitWhere_eq_splitOnP, List.splitOnP_eq_singleton h]

theorem splitOn_of_not_mem {s : String} (h : sep ∉ s.toList) : splitOn sep s = [s] := by
  rw [splitOn, splitWhere_of_forall]
  · simp
  · intro c hc
    simpa using fun he : c = sep => h (he ▸ hc)

theorem splitWhere_ne_nil (s : List Char) : splitWhere p s ≠ [] := by
  rw [splitWhere_eq_splitOnP]
  exact List.splitOnP_ne_nil p s

/-- No piece holds a character that the text is cut at. -/
theorem splitWhere_pieces (s : List Char) :
    ∀ piece ∈ splitWhere p s, ∀ c ∈ piece, p c = false := by
  induction s with
  | nil => simp [splitWhere]
  | cons c rest ih =>
    rw [splitWhere]
    split
    · simpa using ih
    · next hc =>
      split
      · simpa using hc
      · next piece pieces he =>
        rw [he] at ih
        have hpiece := ih piece List.mem_cons_self
        intro q hq
        rcases List.mem_cons.mp hq with rfl | hq
        · exact List.forall_mem_cons.mpr ⟨by simpa using hc, hpiece⟩
        · exact ih q (List.mem_cons_of_mem _ hq)

theorem splitWhere_append {s rest : List Char} {c : Char} (hs : ∀ d ∈ s, p d = false)
    (hc : p c = true) : splitWhere p (s ++ c :: rest) = s :: splitWhere p rest := by
  rw [splitWhere_eq_splitOnP, splitWhere_eq_splitOnP]
  exact List.splitOnP_append_cons_of_forall_mem hs c hc rest

/-- Cutting undoes joining pieces that do not hold the separator. -/
theorem splitOn_intercalate {pieces : List String} (hne : pieces ≠ [])
    (h : ∀ piece ∈ pieces, sep ∉ piece.toList) :
    splitOn sep ((String.singleton sep).intercalate pieces) = pieces := by
  have hcut := List.splitOn_intercalate sep (List.forall_mem_map.mpr h) (by simpa using hne)
  rw [splitOn_eq_map, String.toList_intercalate, String.toList_singleton, hcut]
  simp

/-- Joining undoes cutting. -/
theorem intercalate_splitOn (s : String) :
    (String.singleton sep).intercalate (splitOn sep s) = s := by
  apply String.toList_injective
  rw [splitOn_eq_map, String.toList_intercalate, String.toList_singleton, List.map_map]
  simp [Function.comp_def, List.intercalate_splitOn]

end Text

/-- A path without dots in its segments. -/
def DotFree (path : List String) : Prop := ∀ segment ∈ path, '.' ∉ segment.toList

instance (path : List String) : Decidable (DotFree path) :=
  inferInstanceAs (Decidable (∀ _ ∈ _, _))

theorem splitPath_ne_nil (dotted : String) : splitPath dotted ≠ [] := by
  simpa [splitPath, Text.splitOn] using Text.splitWhere_ne_nil dotted.toList

theorem splitPath_dotFree (dotted : String) : DotFree (splitPath dotted) := by
  intro segment hsegment
  obtain ⟨piece, hpiece, rfl⟩ := List.mem_map.mp hsegment
  intro hdot
  simpa using Text.splitWhere_pieces dotted.toList piece hpiece '.' (by simpa using hdot)

theorem splitPath_dottedPath {path : List String} (hne : path ≠ []) (h : DotFree path) :
    splitPath (dottedPath path) = path := Text.splitOn_intercalate hne h

/-- Joining the segments of a dotted path gives it back. -/
theorem dottedPath_splitPath (dotted : String) : dottedPath (splitPath dotted) = dotted :=
  Text.intercalate_splitOn dotted

/-- Paths with one name have one dotted form. -/
theorem dottedPath_eq_of_fullName_eq {typePrefix : String} {p q : List String}
    (h : fullName typePrefix p = fullName typePrefix q) : dottedPath p = dottedPath q := by
  have hlist := congrArg String.toList h
  simp only [fullName, String.toList_append, List.append_cancel_left_eq] at hlist
  exact String.toList_injective hlist

/-- Paths without dots in their segments have different names. -/
theorem fullName_inj {typePrefix : String} {p q : List String} (hp : p ≠ []) (hq : q ≠ [])
    (hpd : DotFree p) (hqd : DotFree q) (h : fullName typePrefix p = fullName typePrefix q) :
    p = q := by
  rw [← splitPath_dottedPath hp hpd, dottedPath_eq_of_fullName_eq h, splitPath_dottedPath hq hqd]

end DesignTokens
