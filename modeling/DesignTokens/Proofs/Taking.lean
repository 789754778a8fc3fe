import DesignTokens.Toml.Reader
import Mathlib.Data.List.Infix

/-! What the readers of TOML take. Each takes something off the start of a text and leaves an end of
it; a run of digits takes digits and single underscores, of which it keeps the digits. -/
namespace DesignTokens.Toml

section Leaving

variable {α β : Type} {s rest : List Char}

/-- What is found, if anything is, leaves an end of the text. -/
def Leaves (s : List Char) (found : Option (α × List Char)) : Prop :=
  ∀ a rest, found = some (a, rest) → rest <:+ s

theorem leaves_none : Leaves s (none : Option (α × List Char)) := by
  intro a rest h
  cases h

theorem leaves_some {a : α} (h : rest <:+ s) : Leaves s (some (a, rest)) := by
  intro b after hb
  cases hb
  exact h

namespace Leaves

theorem trans {found : Option (α × List Char)} (h : Leaves rest found) (hrest : rest <:+ s) :
    Leaves s found := fun a after hfound => (h a after hfound).trans hrest

theorem bind {found : Option (α × List Char)} {next : α × List Char → Option (β × List Char)}
    (h : Leaves s found) (hnext : ∀ a rest, rest <:+ s → Leaves s (next (a, rest))) :
    Leaves s (found >>= next) := by
  intro b after hafter
  obtain ⟨⟨a, rest⟩, hfound, hlast⟩ := Option.bind_eq_some_iff.mp hafter
  exact hnext a rest (h a rest hfound) b after hlast

theorem bind_rest {found : Option (List Char)} {next : List Char → Option (β × List Char)}
    (h : ∀ rest, found = some rest → rest <:+ s)
    (hnext : ∀ rest, rest <:+ s → Leaves s (next rest)) : Leaves s (found >>= next) := by
  intro b after hafter
  obtain ⟨rest, hfound, hlast⟩ := Option.bind_eq_some_iff.mp hafter
  exact hnext rest (h rest hfound) b after hlast

theorem bind_value {found : Option α} {next : α → Option (β × List Char)}
    (hnext : ∀ a, Leaves s (next a)) : Leaves s (found >>= next) := by
  intro b after hafter
  obtain ⟨a, -, hlast⟩ := Option.bind_eq_some_iff.mp hafter
  exact hnext a b after hlast

theorem map {found : Option (α × List Char)} {g : α × List Char → β × List Char}
    (h : Leaves s found) (hg : ∀ pair, (g pair).2 = pair.2) : Leaves s (found.map g) := by
  intro b after hafter
  obtain ⟨⟨a, rest⟩, hfound, hpair⟩ := Option.map_eq_some_iff.mp hafter
  have hrest : rest = after := (hg (a, rest)).symm.trans (congrArg Prod.snd hpair)
  exact hrest ▸ h a rest hfound

end Leaves

end Leaving

variable {s : List Char}

theorem suffix_of_behind {start : String} {rest : List Char} (h : behind? start s = some rest) :
    rest <:+ s := by
  unfold behind? at h
  dsimp only at h
  split at h
  · cases h
    exact List.drop_suffix _ _
  · cases h

theorem hexChar?_leaves (count : Nat) (s : List Char) : Leaves s (hexChar? count s) := by
  apply Leaves.bind_value
  intro n
  split
  · exact leaves_some (List.drop_suffix _ _)
  · exact leaves_none

theorem suffix_of_joinedLine {rest : List Char} (h : joinedLine? s = some rest) : rest <:+ s := by
  unfold joinedLine? at h
  split at h
  · next after hgap =>
    cases h
    have hline : after <:+ skipGap s := hgap ▸ List.suffix_cons _ _
    exact (List.dropWhile_suffix _).trans (hline.trans (List.dropWhile_suffix _))
  · cases h

theorem basicText?_leaves (lines : Bool) (s : List Char) (fuel : Nat) :
    Leaves s (basicText? lines s fuel) := by
  induction fuel generalizing s with
  | zero => exact leaves_none
  | succ fuel ih =>
    have hnext : ∀ (c d : Char) (rest : List Char), Leaves (d :: rest)
        ((basicText? lines rest fuel).map fun found => (c :: found.1, found.2)) :=
      fun c d rest => ((ih rest).trans (List.suffix_cons d rest)).map fun _ => rfl
    unfold basicText?
    dsimp only
    split
    · exact leaves_none
    · next rest =>
      split
      · exact leaves_some (List.suffix_cons _ _)
      split
      · next after hafter =>
        exact leaves_some ((suffix_of_behind hafter).trans (List.suffix_cons _ _))
      · exact hnext _ _ rest
    · next c rest =>
      have hrest : rest <:+ '\\' :: c :: rest :=
        (List.suffix_cons _ _).trans (List.suffix_cons _ _)
      split
      · next after hafter =>
        apply (ih after).trans
        split at hafter
        · exact (suffix_of_joinedLine hafter).trans (List.suffix_cons _ _)
        · cases hafter
      split
      · apply Leaves.bind ((hexChar?_leaves _ rest).trans hrest)
        intro found after hafter
        exact ((ih after).trans hafter).map fun _ => rfl
      · apply Leaves.bind_value
        intro found
        exact ((ih rest).trans hrest).map fun _ => rfl
    · next c rest _ _ =>
      split
      all_goals
        split
        · exact leaves_none
        · exact hnext c c rest

theorem literalText?_leaves (forbidden : Char → Bool) (mark : String) (s : List Char) :
    Leaves s (literalText? forbidden mark s) := by
  induction s with
  | nil => exact leaves_none
  | cons c rest ih =>
    unfold literalText?
    split
    · next after hafter => exact leaves_some (suffix_of_behind hafter)
    split
    · exact leaves_none
    · exact (ih.trans (List.suffix_cons _ _)).map fun _ => rfl

theorem withoutFirstLine_suffix (s : List Char) : withoutFirstLine s <:+ s := by
  unfold withoutFirstLine
  split
  · exact List.suffix_cons _ _
  · exact List.suffix_refl _

theorem lineString?_leaves (s : List Char) : Leaves s (lineString? s) := by
  unfold lineString?
  split
  · exact (basicText?_leaves _ _ _).trans (List.suffix_cons _ _)
  · exact (literalText?_leaves _ _ _).trans (List.suffix_cons _ _)
  · exact leaves_none

theorem linesString?_leaves (s : List Char) : Leaves s (linesString? s) := by
  have hquotes : ∀ (quote : Char) (rest : List Char),
      withoutFirstLine rest <:+ quote :: quote :: quote :: rest := by
    intro quote rest
    have hrest : rest <:+ quote :: quote :: quote :: rest := ⟨[quote, quote, quote], rfl⟩
    exact (withoutFirstLine_suffix rest).trans hrest
  unfold linesString?
  split
  · apply Leaves.bind ((basicText?_leaves _ _ _).trans (hquotes _ _))
    intro text after hafter
    exact leaves_some ((List.drop_suffix _ _).trans hafter)
  · apply Leaves.bind ((literalText?_leaves _ _ _).trans (hquotes _ _))
    intro text after hafter
    exact leaves_some ((List.drop_suffix _ _).trans hafter)
  · exact leaves_none

/-- A run of digits and underscores before the rest of a text, with its digits. -/
structure IsRun (p : Char → Bool) (run ds rest s : List Char) : Prop where
  text : s = run ++ rest
  marks : ∀ c ∈ run, p c = true ∨ c = '_'
  digits : run.filter p = ds

theorem exists_isRun {p : Char → Bool} (hp : p '_' = false) (s : List Char) :
    ∃ run, IsRun p run (digitRun p s).1 (digitRun p s).2 s := by
  induction s with
  | nil => exact ⟨[], rfl, by simp, rfl⟩
  | cons c rest ih =>
    have hnone : IsRun p [] [] (c :: rest) (c :: rest) := ⟨rfl, by simp, rfl⟩
    obtain ⟨run, hrun⟩ := ih
    unfold digitRun
    split
    · next hc =>
      refine ⟨c :: run, congrArg (c :: ·) hrun.text, ?_, ?_⟩
      · exact List.forall_mem_cons.mpr ⟨Or.inl hc, hrun.marks⟩
      · rw [List.filter_cons_of_pos hc, hrun.digits]
    split
    · next d tail _ =>
      split
      · refine ⟨'_' :: run, congrArg ('_' :: ·) hrun.text, ?_, ?_⟩
        · exact List.forall_mem_cons.mpr ⟨Or.inr rfl, hrun.marks⟩
        · rw [List.filter_cons_of_neg (by simp [hp]), hrun.digits]
      · exact ⟨[], hnone⟩
    · exact ⟨[], hnone⟩

theorem isRun_of_digits {p : Char → Bool} {ds rest : List Char} (hp : p '_' = false)
    (h : digits? p s = some (ds, rest)) : ∃ run, IsRun p run ds rest s := by
  have hrun := exists_isRun hp s
  unfold digits? at h
  split at h
  · have hpair := Option.some.inj h
    rwa [hpair] at hrun
  · cases h

theorem isRun_of_whole {ds rest : List Char} (h : whole? s = some (ds, rest)) :
    ∃ run, IsRun Char.isDigit run ds rest s := by
  unfold whole? at h
  split at h
  · cases h
    have hzero : ∀ c ∈ ['0'], c.isDigit = true ∨ c = '_' :=
      List.forall_mem_singleton.mpr (Or.inl rfl)
    exact ⟨['0'], rfl, hzero, rfl⟩
  · exact isRun_of_digits (by decide) h

theorem IsRun.suffix {p : Char → Bool} {run ds rest : List Char} (h : IsRun p run ds rest s) :
    rest <:+ s := ⟨run, h.text.symm⟩

theorem digits?_leaves {p : Char → Bool} (hp : p '_' = false) (s : List Char) :
    Leaves s (digits? p s) := by
  intro ds rest h
  obtain ⟨run, hrun⟩ := isRun_of_digits hp h
  exact hrun.suffix

theorem inBase?_leaves {p : Char → Bool} (hp : p '_' = false) (base : Nat) (s : List Char) :
    Leaves s (inBase? base p s) := by
  apply Leaves.bind (digits?_leaves hp s)
  intro ds after hafter
  apply Leaves.bind_value
  intro places
  exact leaves_some hafter

theorem basedInt?_leaves (s : List Char) : Leaves s (basedInt? s) := by
  have hrest : ∀ (letter : Char) (rest : List Char), rest <:+ '0' :: letter :: rest :=
    fun letter rest => ⟨['0', letter], rfl⟩
  unfold basedInt?
  split
  · exact (inBase?_leaves (by decide) _ _).trans (hrest _ _)
  · exact (inBase?_leaves (by decide) _ _).trans (hrest _ _)
  · exact (inBase?_leaves (by decide) _ _).trans (hrest _ _)
  · exact leaves_none

theorem sign_suffix (s : List Char) : (sign s).2 <:+ s := by
  unfold sign
  split
  · exact List.suffix_cons _ _
  · exact List.suffix_cons _ _
  · exact List.suffix_refl _

theorem exponent?_leaves (s : List Char) : Leaves s (exponent? s) := by
  unfold exponent?
  split
  · next e rest =>
    split
    · have hrest := (sign_suffix rest).trans (List.suffix_cons e rest)
      apply Leaves.bind ((digits?_leaves (by decide) (sign rest).2).trans hrest)
      intro ds after hafter
      exact leaves_some hafter
    · exact leaves_none
  · exact leaves_none

theorem fraction?_leaves (s : List Char) : Leaves s (fraction? s) := by
  unfold fraction?
  split
  · exact (digits?_leaves (by decide) _).trans (List.suffix_cons _ _)
  · exact leaves_none

/-- Where something is found the text behind it goes on, else the text itself. -/
theorem Leaves.rest_suffix {α : Type} {found : Option (α × List Char)} (h : Leaves s found) :
    (found.map (·.2)).getD s <:+ s := by
  cases found with
  | none => exact List.suffix_refl _
  | some pair => exact h pair.1 pair.2 rfl

theorem bounded?_leaves (count low high : Nat) (s : List Char) :
    Leaves s (bounded? count low high s) := by
  unfold bounded?
  dsimp only
  split
  · split
    · exact leaves_some (List.drop_suffix _ _)
    · exact leaves_none
  · exact leaves_none

theorem bounded?_behind {α : Type} {count low high : Nat} {start : String}
    {next : Nat × List Char → Option (α × List Char)} {rest : List Char} (hrest : rest <:+ s)
    (hnext : ∀ n after, after <:+ s → Leaves s (next (n, after))) :
    Leaves s (behind? start rest >>= fun after => bounded? count low high after >>= next) := by
  apply Leaves.bind_rest
  · intro after hafter
    exact (suffix_of_behind hafter).trans hrest
  · intro after hafter
    exact Leaves.bind ((bounded?_leaves _ _ _ _).trans hafter) hnext

theorem clockTime?_leaves (s : List Char) : Leaves s (clockTime? s) := by
  apply Leaves.bind (bounded?_leaves 2 0 23 s)
  intro hour rest hrest
  apply bounded?_behind hrest
  intro minute rest hrest
  apply bounded?_behind hrest
  intro second rest hrest
  apply leaves_some
  split
  · split
    · exact hrest
    · exact (List.drop_suffix _ _).trans hrest
  · exact hrest

theorem offset?_leaves (s : List Char) : Leaves s (offset? s) := by
  unfold offset?
  split
  · exact leaves_none
  split
  · exact leaves_some (List.suffix_cons _ _)
  split
  · apply Leaves.bind ((bounded?_leaves 2 0 23 _).trans (List.suffix_cons _ _))
    intro hours rest hrest
    apply bounded?_behind hrest
    intro minutes rest hrest
    exact leaves_some hrest
  · exact leaves_none

theorem dayNumbers?_leaves (s : List Char) : Leaves s (dayNumbers? s) := by
  apply Leaves.bind (bounded?_leaves 4 0 9999 s)
  intro year rest hrest
  apply bounded?_behind hrest
  intro month rest hrest
  apply bounded?_behind hrest
  intro day rest hrest
  exact leaves_some hrest

theorem joinedTime?_leaves (s : List Char) : Leaves s (joinedTime? s) := by
  unfold joinedTime?
  split
  · split
    · exact (clockTime?_leaves _).trans (List.suffix_cons _ _)
    · exact leaves_none
  · exact leaves_none

theorem dayOrMoment?_leaves (numbers : Nat × Nat × Nat) (s : List Char) :
    Leaves s (dayOrMoment? numbers s) := by
  unfold dayOrMoment?
  dsimp only
  apply Leaves.bind_value
  intro date
  split
  · exact leaves_some (List.suffix_refl _)
  · next time rest htime =>
    have hrest : rest <:+ s := joinedTime?_leaves s time rest htime
    split
    · exact leaves_some hrest
    · next minutes after hoffset =>
      exact leaves_some ((offset?_leaves rest minutes after hoffset).trans hrest)

theorem specialFloat?_leaves (s : List Char) : Leaves s (specialFloat? s) := by
  unfold specialFloat?
  dsimp only
  split
  · next hinf => exact leaves_some ((suffix_of_behind hinf).trans (sign_suffix s))
  · next hnan => exact leaves_some ((suffix_of_behind hnan).trans (sign_suffix s))
  · exact leaves_none

theorem suffix_of_skipComment {rest : List Char} (h : skipComment? s = some rest) :
    rest <:+ s := by
  unfold skipComment? at h
  split at h
  · dsimp only at h
    split at h
    · cases h
    · cases h
      exact (List.drop_suffix _ _).trans (List.suffix_cons _ _)
  · cases h
    exact List.suffix_refl _

theorem suffix_of_skipFiller {rest : List Char} {fuel : Nat} (h : skipFiller? s fuel = some rest) :
    rest <:+ s := by
  induction fuel generalizing s with
  | zero =>
    cases h
    exact List.suffix_refl _
  | succ fuel ih =>
    have hfiller : s.dropWhile isGapOrLine <:+ s := List.dropWhile_suffix _
    unfold skipFiller? at h
    dsimp only at h
    split at h
    · next comment hcomment =>
      obtain ⟨after, hafter, hrest⟩ := Option.bind_eq_some_iff.mp h
      exact (ih hrest).trans ((suffix_of_skipComment hafter).trans hfiller)
    · cases h
      exact hfiller

theorem keyName?_leaves (s : List Char) : Leaves s (keyName? s) := by
  unfold keyName?
  dsimp only
  split
  · exact (lineString?_leaves s).map fun _ => rfl
  · exact leaves_some (List.drop_suffix _ _)

theorem key?_leaves (s : List Char) (fuel : Nat) : Leaves s (key? s fuel) := by
  induction fuel generalizing s with
  | zero => exact leaves_none
  | succ fuel ih =>
    unfold key?
    apply Leaves.bind (keyName?_leaves s)
    intro name rest hrest
    have hgap : skipGap rest <:+ s := (List.dropWhile_suffix _).trans hrest
    dsimp only
    split
    · next after hafter =>
      have hnext : skipGap after <:+ s :=
        (List.dropWhile_suffix _).trans ((hafter ▸ List.suffix_cons _ _).trans hgap)
      apply Leaves.bind ((ih (skipGap after)).trans hnext)
      intro found last hlast
      exact leaves_some hlast
    · exact leaves_some hgap

end DesignTokens.Toml
