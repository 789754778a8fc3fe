import DesignTokens.Proofs.Outcomes
import DesignTokens.Proofs.Taking

/-! Where the reading of a TOML document stops. Either the document is malformed, or its text holds
more digits in a row than an integer may have. What is read is a table. -/
namespace DesignTokens.Toml

variable {s : List Char}

/-- A stop that a text accounts for: what is too long are the digits of a run in the text, which are
more than an integer may have. -/
def Stop.IsMetIn (s : List Char) : Stop → Prop
  | .malformed => True
  | .tooLong digits => Number.maxDigits < digits.toList.length ∧
      ∃ run, run <:+: s ∧ (∀ c ∈ run, c.isDigit = true ∨ c = '_') ∧
        run.filter Char.isDigit = digits.toList

theorem Stop.IsMetIn.trans {rest : List Char} {stop : Stop} (h : stop.IsMetIn rest)
    (hrest : rest <:+ s) : stop.IsMetIn s := by
  cases stop with
  | malformed => exact trivial
  | tooLong digits =>
    obtain ⟨hlong, run, hrun, hdigits⟩ := h
    exact ⟨hlong, run, hrun.trans hrest.isInfix, hdigits⟩

/-- A reader that leaves an end of the text or stops for what it meets there. -/
structure Reads {α : Type} (s : List Char) (found : Except Stop (α × List Char)) : Prop where
  leaves : ∀ a rest, found = .ok (a, rest) → rest <:+ s
  stops : FailsWith (Stop.IsMetIn s) found

section Reading

variable {α β : Type} {rest : List Char}

theorem reads_ok {a : α} (h : rest <:+ s) : Reads s (.ok (a, rest)) := by
  refine ⟨?_, failsWith_ok _⟩
  intro b after hb
  cases hb
  exact h

theorem reads_malformed : Reads s (.error .malformed : Except Stop (α × List Char)) :=
  ⟨nofun, failsWith_error.mpr trivial⟩

theorem required_fails (found : Option α) : FailsWith (Stop.IsMetIn s) (required found) := by
  cases found with
  | none => exact failsWith_error.mpr trivial
  | some a => exact failsWith_ok a

theorem required_eq_ok {found : Option α} {a : α} : required found = .ok a ↔ found = some a := by
  cases found <;> simp [required]

theorem Leaves.reads {found : Option (α × List Char)} (h : Leaves s found) :
    Reads s (required found) :=
  ⟨fun a rest hfound => h a rest (required_eq_ok.mp hfound), required_fails found⟩

namespace Reads

theorem trans {found : Except Stop (α × List Char)} (h : Reads rest found) (hrest : rest <:+ s) :
    Reads s found where
  leaves a after hfound := (h.leaves a after hfound).trans hrest
  stops := h.stops.mono fun _ hstop => hstop.trans hrest

theorem bind {found : Except Stop (α × List Char)}
    {next : α × List Char → Except Stop (β × List Char)} (h : Reads s found)
    (hnext : ∀ a rest, rest <:+ s → Reads s (next (a, rest))) : Reads s (found >>= next) where
  leaves b after hafter := by
    obtain ⟨⟨a, rest⟩, hfound, hlast⟩ := bind_eq_ok.mp hafter
    exact (hnext a rest (h.leaves a rest hfound)).leaves b after hlast
  stops := by
    apply h.stops.bind
    intro pair hfound
    exact (hnext pair.1 pair.2 (h.leaves pair.1 pair.2 hfound)).stops

theorem bind_required {found : Option α} {next : α → Except Stop (β × List Char)}
    (hnext : ∀ a, found = some a → Reads s (next a)) : Reads s (required found >>= next) where
  leaves b after hafter := by
    obtain ⟨a, hfound, hlast⟩ := bind_eq_ok.mp hafter
    exact (hnext a (required_eq_ok.mp hfound)).leaves b after hlast
  stops := by
    apply (required_fails found).bind
    intro a hfound
    exact (hnext a (required_eq_ok.mp hfound)).stops

end Reads

end Reading

theorem decimal?_reads {found : Except Stop (Value × List Char)} (h : decimal? s = some found) :
    Reads s found := by
  obtain ⟨⟨whole, rest⟩, hwhole, h⟩ := Option.bind_eq_some_iff.mp h
  obtain ⟨run, hrun⟩ := isRun_of_whole hwhole
  have hsign := sign_suffix s
  have hfraction := (fraction?_leaves rest).rest_suffix.trans (hrun.suffix.trans hsign)
  have hexponent := (exponent?_leaves _).rest_suffix.trans hfraction
  dsimp only at h
  split at h
  · split at h
    · next hlong =>
      cases h
      have hinfix : run <:+: s :=
        List.IsInfix.trans ⟨[], rest, hrun.text.symm⟩ hsign.isInfix
      refine ⟨nofun, failsWith_error.mpr ⟨?_, run, hinfix, hrun.marks, ?_⟩⟩
      · simpa using hlong
      · simpa using hrun.digits
    · cases h
      exact reads_ok hexponent
  · cases h
    exact reads_ok hexponent

theorem readScalar_reads (s : List Char) : Reads s (readScalar s) := by
  have htext : ∀ {found : Option (List Char × List Char)}, Leaves s found →
      Reads s (required (found.map fun found => (Value.text (String.ofList found.1), found.2))) :=
    fun h => Leaves.reads (h.map fun _ => rfl)
  unfold readScalar
  dsimp only
  split
  · exact htext (linesString?_leaves _)
  · exact htext (linesString?_leaves _)
  · exact htext (lineString?_leaves _)
  · exact htext (lineString?_leaves _)
  split
  · next htrue => exact reads_ok (suffix_of_behind htrue)
  · next hfalse _ => exact reads_ok (suffix_of_behind hfalse)
  · next numbers rest hday _ _ =>
    exact ((dayOrMoment?_leaves _ _).trans (dayNumbers?_leaves s _ _ hday)).reads
  split
  · next time rest htime => exact reads_ok (clockTime?_leaves s _ _ htime)
  · next found hbased => exact reads_ok (basedInt?_leaves s _ _ hbased)
  · next hdecimal => exact decimal?_reads hdecimal
  · exact (specialFloat?_leaves s).reads

theorem reads_value_of {fuel : Nat} (hitems : ∀ s, Reads s (readItems s fuel))
    (hfields : ∀ closed es s, Reads s (readFields closed es s fuel)) (s : List Char) :
    Reads s (readValue s (fuel + 1)) := by
  unfold readValue
  split
  · next rest =>
    apply Reads.bind_required
    intro after hafter
    have hrest : after <:+ '[' :: rest := (suffix_of_skipFiller hafter).trans (List.suffix_cons _ _)
    apply Reads.bind ((hitems after).trans hrest)
    intro items last hlast
    exact reads_ok hlast
  · next rest =>
    have hrest : skipGap rest <:+ '\x7b' :: rest :=
      (List.dropWhile_suffix _).trans (List.suffix_cons _ _)
    dsimp only
    split
    · next after hafter => exact reads_ok ((suffix_of_behind hafter).trans hrest)
    · apply Reads.bind ((hfields _ _ _).trans hrest)
      intro es last hlast
      exact reads_ok hlast
  · exact readScalar_reads s

theorem reads_items_of {fuel : Nat} (hvalue : ∀ s, Reads s (readValue s fuel))
    (hitems : ∀ s, Reads s (readItems s fuel)) (s : List Char) :
    Reads s (readItems s (fuel + 1)) := by
  unfold readItems
  split
  · exact reads_ok (List.suffix_cons _ _)
  apply Reads.bind (hvalue s)
  intro item rest hrest
  apply Reads.bind_required
  intro after hafter
  have hfiller : after <:+ s := (suffix_of_skipFiller hafter).trans hrest
  split
  · exact reads_ok ((List.suffix_cons _ _).trans hfiller)
  · next next =>
    apply Reads.bind_required
    intro after hafter
    have hnext : after <:+ s :=
      (suffix_of_skipFiller hafter).trans ((List.suffix_cons _ _).trans hfiller)
    apply Reads.bind ((hitems after).trans hnext)
    intro items last hlast
    exact reads_ok hlast
  · exact reads_malformed

theorem reads_field_of {fuel : Nat} (hvalue : ∀ s, Reads s (readValue s fuel)) (s : List Char) :
    Reads s (readField s (fuel + 1)) := by
  unfold readField
  apply Reads.bind (key?_leaves s _).reads
  intro key rest hrest
  dsimp only
  split
  · next after =>
    have hgap : skipGap after <:+ s :=
      (List.dropWhile_suffix _).trans ((List.suffix_cons _ _).trans hrest)
    apply Reads.bind ((hvalue _).trans hgap)
    intro v last hlast
    exact reads_ok hlast
  · exact reads_malformed

theorem reads_fields_of {fuel : Nat} (hfield : ∀ s, Reads s (readField s fuel))
    (hfields : ∀ closed es s, Reads s (readFields closed es s fuel)) (closed : List KeyPath)
    (es : Entries) (s : List Char) : Reads s (readFields closed es s (fuel + 1)) := by
  unfold readFields
  apply Reads.bind (hfield s)
  intro found rest hrest
  dsimp only
  split
  · exact reads_malformed
  apply Reads.bind_required
  intro es' _
  have hgap : skipGap rest <:+ s := (List.dropWhile_suffix _).trans hrest
  split
  · next after hafter => exact reads_ok ((hafter ▸ List.suffix_cons _ _).trans hgap)
  · next after hafter =>
    have hnext : skipGap after <:+ s :=
      (List.dropWhile_suffix _).trans ((hafter ▸ List.suffix_cons _ _).trans hgap)
    exact (hfields _ _ _).trans hnext
  · exact reads_malformed

/-- The four readers that call each other, by one induction on the depth that is left to them. -/
theorem readers_read (fuel : Nat) :
    (∀ s, Reads s (readValue s fuel)) ∧ (∀ s, Reads s (readItems s fuel)) ∧
    (∀ s, Reads s (readField s fuel)) ∧
    ∀ closed es s, Reads s (readFields closed es s fuel) := by
  induction fuel with
  | zero =>
    exact ⟨fun _ => reads_malformed, fun _ => reads_malformed, fun _ => reads_malformed,
      fun _ _ _ => reads_malformed⟩
  | succ fuel ih =>
    obtain ⟨hvalue, hitems, hfield, hfields⟩ := ih
    exact ⟨reads_value_of hitems hfields, reads_items_of hvalue hitems, reads_field_of hvalue,
      reads_fields_of hfield hfields⟩

theorem header_leaves {rest : List Char} {start : String} (fuel : Nat)
    (change : KeyPath → String → Option Document) (hrest : rest <:+ s) :
    Leaves s (do
      let ((path, last), rest) ← key? (skipGap rest) fuel
      let d ← change path last
      some (d, ← behind? start rest)) := by
  have hgap : skipGap rest <:+ s := (List.dropWhile_suffix _).trans hrest
  apply Leaves.bind ((key?_leaves _ _).trans hgap)
  intro found after hafter
  apply Leaves.bind_value
  intro d
  apply Leaves.bind_rest
  · intro last hlast
    exact (suffix_of_behind hlast).trans hafter
  · intro last hlast
    exact leaves_some hlast

theorem statement_reads (d : Document) (s : List Char) : Reads s (d.statement s) := by
  unfold Document.statement
  dsimp only
  split
  · next rest =>
    have hrest : rest <:+ '[' :: '[' :: rest := ⟨['[', '['], rfl⟩
    exact (header_leaves _ _ hrest).reads
  · next rest _ =>
    exact (header_leaves _ (fun path last => d.settle.declare (path ++ [last]))
      (List.suffix_cons _ _)).reads
  · exact reads_ok (List.suffix_refl _)
  · obtain ⟨-, -, hfield, -⟩ := readers_read (2 * (s.length + 1))
    apply Reads.bind (hfield s)
    intro found rest hrest
    apply Reads.bind_required
    intro d' _
    exact reads_ok hrest

theorem statements_fails (d : Document) (s : List Char) (fuel : Nat) :
    FailsWith (Stop.IsMetIn s) (d.statements s fuel) := by
  induction fuel generalizing d s with
  | zero => exact failsWith_error.mpr trivial
  | succ fuel ih =>
    have hgap : skipGap s <:+ s := List.dropWhile_suffix _
    have hnext : ∀ (d : Document) rest, rest <:+ s →
        FailsWith (Stop.IsMetIn s) (d.statements rest fuel) :=
      fun d rest hrest => (ih d rest).mono fun _ hstop => hstop.trans hrest
    unfold Document.statements
    split
    · exact failsWith_ok _
    · next rest hrest => exact hnext d rest ((hrest ▸ List.suffix_cons _ _).trans hgap)
    · have hstatement := (statement_reads d (skipGap s)).trans hgap
      apply hstatement.stops.bind
      rintro ⟨d', rest⟩ hread
      have hrest : skipGap rest <:+ s :=
        (List.dropWhile_suffix _).trans (hstatement.leaves d' rest hread)
      apply (required_fails _).bind
      intro after hafter
      have hcomment : after <:+ s :=
        (suffix_of_skipComment (required_eq_ok.mp hafter)).trans hrest
      split
      · exact failsWith_ok _
      · exact hnext _ _ ((List.suffix_cons _ _).trans hcomment)
      · exact failsWith_error.mpr trivial

/-- Where reading a document stops, either the document is malformed or the text holds more digits
in a row than an integer may have. -/
theorem read_stops (text : String) : FailsWith (Stop.IsMetIn text.toList) (read text) := by
  apply (statements_fails _ _ _).bind
  intro d _
  exact failsWith_ok _

theorem exists_of_read {text : String} {document : Value} (h : read text = .ok document) :
    ∃ es, document = .map es := by
  obtain ⟨d, -, hd⟩ := bind_eq_ok.mp h
  cases hd
  exact ⟨d.entries, rfl⟩

end DesignTokens.Toml
