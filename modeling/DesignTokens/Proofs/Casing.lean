import DesignTokens.Text.Case
import Mathlib

/-! Case mappings through their tables. A run is judged by where it leads: above a bound, or past the
characters of another run. No run of lower case leads into one, so what a lower case holds is its own
lower case. -/
namespace DesignTokens.Text

variable {bound : Nat} {runs : List CaseRun} {sequences : List (Nat × List Nat)}
  {run other : CaseRun} {n : Nat} {c d : Char}

/-- Whether a run leads to characters above a bound. -/
def CaseRun.isAbove (bound : Nat) : CaseRun → Bool
  | (first, last, _, distance) => (bound : Int) < first + distance &&
      ((last : Int) + distance < 0xd800 ||
        (0xdfff : Int) < first + distance && (last : Int) + distance < 0x110000)

/-- The code point to which a run leads another. -/
def CaseRun.target : CaseRun → Nat → Nat
  | (_, _, _, distance), n => ((n : Int) + distance).toNat

/-- The code point to which a run leads its first character. -/
def CaseRun.low (run : CaseRun) : Nat := run.target run.1

/-- The code point to which a run leads its last character. -/
def CaseRun.high (run : CaseRun) : Nat := run.target run.2.1

/-- Whether a run leads to none of the characters of another: it ends before them, begins behind
them, or takes every second character and falls between them. -/
def CaseRun.misses (run other : CaseRun) : Bool :=
  run.high.blt other.1 || other.2.1.blt run.low ||
    (run.2.2.1 == 2 || run.1 == run.2.1) && other.2.2.1 == 2 && (run.low + other.1) % 2 == 1

theorem CaseRun.target_above (h : run.isAbove bound = true) (hn : run.holds n = true) :
    bound < run.target n ∧ (Char.ofNat (run.target n)).toNat = run.target n := by
  obtain ⟨first, last, step, distance⟩ := run
  simp only [CaseRun.isAbove, Bool.and_eq_true, Bool.or_eq_true, decide_eq_true_eq] at h
  simp only [CaseRun.holds, Bool.and_eq_true, decide_eq_true_eq] at hn
  have hvalid : ((n : Int) + distance).toNat.isValidChar := by
    unfold Nat.isValidChar
    omega
  rw [CaseRun.target, Char.toNat_ofNat, if_pos hvalid]
  omega

theorem CaseRun.misses_target (h : run.isAbove bound = true) (hmisses : run.misses other = true)
    (hn : run.holds n = true) : other.holds (run.target n) = false := by
  by_contra hholds
  obtain ⟨first, last, step, distance⟩ := run
  obtain ⟨first', last', step', distance'⟩ := other
  rw [CaseRun.target] at hholds
  simp only [CaseRun.isAbove, Bool.and_eq_true, decide_eq_true_eq] at h
  simp only [CaseRun.holds, Bool.not_eq_false, Bool.and_eq_true, decide_eq_true_eq, beq_iff_eq]
    at hn hholds
  simp only [CaseRun.misses, CaseRun.low, CaseRun.high, CaseRun.target, Bool.and_eq_true,
    Bool.or_eq_true, Nat.blt_eq, beq_iff_eq] at hmisses
  rcases hmisses with (hbefore | hbehind) | ⟨⟨hsecond, rfl⟩, hodd⟩
  · omega
  · omega
  · -- the targets keep the parity of the first one
    rcases hsecond with rfl | rfl
    · omega
    · omega

/-- A case mapping leaves a character as it is, or leads where runs and sequences lead. -/
theorem mapCase_cases {P : Char → Prop}
    (hruns : ∀ run ∈ runs, ∀ n, run.holds n = true → P (Char.ofNat (run.target n)))
    (hsequences : ∀ s ∈ sequences, s.2 ≠ [] ∧ ∀ n ∈ s.2, P (Char.ofNat n)) (c : Char) :
    mapCase runs sequences c = [c] ∨
      mapCase runs sequences c ≠ [] ∧ ∀ d ∈ mapCase runs sequences c, P d := by
  unfold mapCase
  split
  · next n cs hfind =>
    obtain ⟨hne, himages⟩ := hsequences _ (List.mem_of_find?_eq_some hfind)
    right
    exact ⟨mt List.map_eq_nil_iff.mp hne, List.forall_mem_map.mpr himages⟩
  · split
    · next first last step distance hfind =>
      have hholds : CaseRun.holds (first, last, step, distance) c.toNat = true :=
        List.find?_some (p := (CaseRun.holds · c.toNat)) hfind
      have himage := hruns _ (List.mem_of_find?_eq_some hfind) c.toNat hholds
      right
      exact ⟨List.cons_ne_nil _ _, List.forall_mem_singleton.mpr himage⟩
    · left
      rfl

theorem mapCase_eq_self (hruns : ∀ run ∈ runs, run.holds c.toNat = false)
    (hsequences : ∀ s ∈ sequences, s.1 ≠ c.toNat) : mapCase runs sequences c = [c] := by
  have hsequence : sequences.find? (·.1 == c.toNat) = none := by
    simpa [List.find?_eq_none] using hsequences
  have hrun : runs.find? (CaseRun.holds · c.toNat) = none := by
    simpa [List.find?_eq_none] using hruns
  rw [mapCase, hsequence, hrun]

/-- What holds of the first 128 characters holds of a character below 128. -/
theorem of_forall_ascii {P : Char → Prop} (h : ∀ n < 128, P (Char.ofNat n)) (hc : c.toNat < 128) :
    P c := by
  have hchar := h c.toNat hc
  rwa [Char.ofNat_toNat] at hchar

theorem change_cases {P : Char → Prop} (ascii : Char → Char)
    (hascii : ∀ n < 128, ascii (Char.ofNat n) = Char.ofNat n ∨ P (ascii (Char.ofNat n)))
    (hruns : ∀ run ∈ runs, ∀ n, run.holds n = true → P (Char.ofNat (run.target n)))
    (hsequences : ∀ s ∈ sequences, s.2 ≠ [] ∧ ∀ n ∈ s.2, P (Char.ofNat n)) (c : Char) :
    let image := if c.toNat < 128 then [ascii c] else mapCase runs sequences c
    image = [c] ∨ image ≠ [] ∧ ∀ d ∈ image, P d := by
  intro image
  unfold image
  split
  · next hc =>
    rcases of_forall_ascii (P := fun c => ascii c = c ∨ P (ascii c)) hascii hc with hsame | hchange
    · left
      rw [hsame]
    · right
      exact ⟨List.cons_ne_nil _ _, List.forall_mem_singleton.mpr hchange⟩
  · exact mapCase_cases hruns hsequences c

/-! What the tables are judged for. Each run is judged as a whole, by its ends, so the judgements are
as many as there are runs, or pairs of them, and not as there are characters. -/

theorem upperRuns_above : ∀ run ∈ upperRuns, run.isAbove 64 = true := by
  decide +kernel

/-- No run of lower case leads into one, or to a character whose lower case has several. -/
theorem lowerRuns_judged : ∀ run ∈ lowerRuns, run.isAbove 95 = true ∧
    lowerRuns.all run.misses = true ∧
    ∀ s ∈ lowerSequences, run.misses (s.1, s.1, 1, 0) = true := by
  decide +kernel

theorem lowerChar_target (hrun : run ∈ lowerRuns) (hn : run.holds n = true) :
    lowerChar (Char.ofNat (run.target n)) = [Char.ofNat (run.target n)] := by
  obtain ⟨habove, hmisses, hsequences⟩ := lowerRuns_judged run hrun
  obtain ⟨hlow, htarget⟩ := CaseRun.target_above habove hn
  unfold lowerChar
  split
  · next hascii =>
    have hsmall : ∀ n < 128, 95 < n → (Char.ofNat n).toLower = Char.ofNat n := by decide
    rw [hsmall _ (htarget ▸ hascii) hlow]
  · apply mapCase_eq_self
    · intro other hother
      rw [htarget]
      exact CaseRun.misses_target habove (List.all_eq_true.mp hmisses other hother) hn
    · intro s hs heq
      have hother : CaseRun.holds (s.1, s.1, 1, 0) (run.target n) = false :=
        CaseRun.misses_target habove (hsequences s hs) hn
      rw [← htarget, ← heq] at hother
      simp [CaseRun.holds] at hother

theorem lowerChar_cases (c : Char) :
    lowerChar c = [c] ∨ lowerChar c ≠ [] ∧ ∀ d ∈ lowerChar c, lowerChar d = [d] := by
  have hascii : ∀ n < 128, (Char.ofNat n).toLower = Char.ofNat n ∨
      lowerChar (Char.ofNat n).toLower = [(Char.ofNat n).toLower] := by decide
  have hsequences : ∀ s ∈ lowerSequences, s.2 ≠ [] ∧
      ∀ n ∈ s.2, lowerChar (Char.ofNat n) = [Char.ofNat n] := by decide +kernel
  exact change_cases Char.toLower hascii (fun run hrun n hn => lowerChar_target hrun hn)
    hsequences c

theorem lowerChar_ne_nil (c : Char) : lowerChar c ≠ [] := by
  rcases lowerChar_cases c with hsame | ⟨hne, -⟩
  · rw [hsame]
    exact List.cons_ne_nil _ _
  · exact hne

/-- What a lower case holds is its own lower case. -/
theorem lowerChar_of_mem (h : d ∈ lowerChar c) : lowerChar d = [d] := by
  rcases lowerChar_cases c with hsame | ⟨-, himages⟩
  · rw [hsame] at h
    rw [List.mem_singleton.mp h]
    exact hsame
  · exact himages d h

end DesignTokens.Text
