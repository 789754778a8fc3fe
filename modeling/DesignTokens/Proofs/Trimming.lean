import DesignTokens.Text.Blank
import Mathlib.Data.List.TakeWhile

/-! White space around texts. Taking it off leaves a text as it is that neither begins nor ends with
white space, and nothing of a text that holds nothing else. -/
namespace DesignTokens.Text

variable {s before after : List Char}

theorem dropWhile_blank_of_head (h : ∀ c ∈ s.head?, isBlank c = false) :
    s.dropWhile isBlank = s := by
  cases s with
  | nil => rfl
  | cons c rest => simp [h c rfl]

/-- A text that neither begins nor ends with white space has none around it. -/
theorem strip_eq_self (hfirst : ∀ c ∈ s.head?, isBlank c = false)
    (hlast : ∀ c ∈ s.getLast?, isBlank c = false) : strip s = s := by
  rw [strip, dropWhile_blank_of_head hfirst, stripEnd,
    dropWhile_blank_of_head (by simpa using hlast), List.reverse_reverse]

theorem strip_of_forall (h : ∀ c ∈ s, isBlank c = false) : strip s = s :=
  strip_eq_self (fun c hc => h c (List.mem_of_mem_head? hc))
    fun c hc => h c (List.mem_of_mem_getLast? hc)

theorem strip_eq_nil : strip s = [] ↔ ∀ c ∈ s, isBlank c = true := by
  rw [strip, stripEnd, List.reverse_eq_nil_iff, List.dropWhile_eq_nil_iff]
  simp only [List.mem_reverse]
  constructor
  · intro h
    rw [← List.dropWhile_eq_nil_iff]
    by_contra hne
    have hhead := List.head_dropWhile_not isBlank hne
    rw [h _ (List.head_mem hne)] at hhead
    cases hhead
  · intro h c hc
    exact h c ((List.dropWhile_sublist isBlank).mem hc)

/-- White space before and behind a text is taken off with that of the text. -/
theorem strip_append (hbefore : ∀ c ∈ before, isBlank c = true)
    (hafter : ∀ c ∈ after, isBlank c = true) : strip (before ++ (s ++ after)) = strip s := by
  rw [strip, List.dropWhile_append_of_pos hbefore, List.dropWhile_append]
  split
  · next hempty =>
    have hnil : strip s = [] := by
      rw [strip, List.isEmpty_iff.mp hempty]
      rfl
    rw [hnil, List.dropWhile_eq_nil_iff.mpr hafter]
    rfl
  · rw [stripEnd, List.reverse_append,
      List.dropWhile_append_of_pos fun c hc => hafter c (List.mem_reverse.mp hc)]
    rfl

end DesignTokens.Text
