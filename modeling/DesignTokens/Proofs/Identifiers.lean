import DesignTokens.Output.Camel
import DesignTokens.Proofs.Casing
import DesignTokens.Proofs.Splitting
import DesignTokens.Proofs.Walking

/-! The identifier for a name. It is one exactly if the camel form of the name holds only what an
identifier may hold, and names that are not empty share it exactly if they share their camel
form. -/
namespace DesignTokens

namespace Text

section Words

variable {p : Char → Bool} {s : List Char} {c : Char}

/-- The pieces of a text hold, in order, all its characters but those that it is cut at. -/
theorem splitWhere_flatten (s : List Char) : (splitWhere p s).flatten = s.filter (!p ·) := by
  induction s with
  | nil => rfl
  | cons c rest ih =>
    rw [splitWhere]
    split
    · next hc => simp [hc, ih]
    · next hc =>
      obtain ⟨piece, pieces, hpieces⟩ :=
        List.exists_cons_of_ne_nil (splitWhere_ne_nil (p := p) rest)
      rw [hpieces] at ih
      simp [hpieces, hc, ← ih]

theorem wordsBetween_flatten (s : List Char) : (wordsBetween p s).flatten = s.filter (!p ·) := by
  rw [wordsBetween, List.flatten_filter_not_isEmpty, splitWhere_flatten]

theorem mem_wordsBetween : (∃ word ∈ wordsBetween p s, c ∈ word) ↔ c ∈ s ∧ p c = false := by
  rw [← List.mem_flatten, wordsBetween_flatten, List.mem_filter, Bool.not_eq_true']

theorem word_ne_nil {word : List Char} (h : word ∈ wordsBetween p s) : word ≠ [] := by
  have hfull := (List.mem_filter.mp h).2
  simpa using hfull

theorem wordsBetween_eq_nil : wordsBetween p s = [] ↔ ∀ c ∈ s, p c = true := by
  constructor
  · intro h c hc
    by_contra hp
    obtain ⟨word, hword, -⟩ := mem_wordsBetween.mpr ⟨hc, Bool.eq_false_iff.mpr hp⟩
    rw [h] at hword
    cases hword
  · intro h
    apply List.eq_nil_iff_forall_not_mem.mpr
    intro word hword
    obtain ⟨c, rest, rfl⟩ := List.exists_cons_of_ne_nil (word_ne_nil hword)
    obtain ⟨hc, hp⟩ := mem_wordsBetween.mp ⟨c :: rest, hword, List.mem_cons_self⟩
    rw [h c hc] at hp
    cases hp

end Words

section Bounds

theorem withinBounds_cons_cons (a b n : Nat) (rest : List Nat) :
    withinBounds (a :: b :: rest) n = true ↔
      a ≤ n ∧ (n < b ∨ withinBounds rest n = true) := by
  unfold withinBounds
  by_cases ha : a ≤ n
  · by_cases hb : b ≤ n
    · have hcount : ((a :: b :: rest).takeWhile (· ≤ n)).length =
          (rest.takeWhile (· ≤ n)).length + 2 := by simp [ha, hb]
      rw [hcount, Nat.add_mod_right]
      simp [ha, hb]
    · have hlt := Nat.lt_of_not_le hb
      simp [ha, hb, hlt]
  · simp [ha]

/-- Whether each run of the first bounds lies in one run of the second, both in ascending order. -/
def liesWithin : Nat → List Nat → List Nat → Bool
  | fuel + 1, a :: b :: inner, c :: d :: outer =>
    if d ≤ a then c ≤ a && liesWithin fuel (a :: b :: inner) outer
    else c ≤ a && b ≤ d && liesWithin fuel inner (c :: d :: outer)
  | _, [], _ => true
  | _, _, _ => false

theorem withinBounds_of_liesWithin {fuel n : Nat} {inner outer : List Nat}
    (h : liesWithin fuel inner outer = true) (hn : withinBounds inner n = true) :
    withinBounds outer n = true := by
  fun_induction liesWithin fuel inner outer with
  | case1 fuel a b inner c d outer hskip ih =>
    simp only [Bool.and_eq_true, decide_eq_true_eq] at h
    have hlow := ((withinBounds_cons_cons a b n inner).mp hn).1
    exact (withinBounds_cons_cons c d n outer).mpr ⟨by omega, Or.inr (ih h.2 hn)⟩
  | case2 fuel a b inner c d outer hkeep ih =>
    simp only [Bool.and_eq_true, decide_eq_true_eq] at h
    obtain ⟨hlow, hrun | hrest⟩ := (withinBounds_cons_cons a b n inner).mp hn
    · exact (withinBounds_cons_cons c d n outer).mpr ⟨by omega, Or.inl (by omega)⟩
    · exact ih h.2 hrest
  | case3 => cases hn
  | case4 => cases h

/-- What may start an identifier may stand in it. -/
theorem continuesIdentifier_of_starts {c : Char} (h : startsIdentifier c = true) :
    continuesIdentifier c = true := by
  unfold startsIdentifier at h
  unfold continuesIdentifier
  split at h
  · next hc =>
    rw [if_pos hc]
    simp only [Bool.or_eq_true, Char.isAlphanum] at h ⊢
    tauto
  · next hc =>
    rw [if_neg hc]
    have hbounds : liesWithin 2000 identifierStartBounds identifierRestBounds = true := by
      decide +kernel
    exact withinBounds_of_liesWithin hbounds h

end Bounds

theorem isIdentifier_underscore (cs : List Char) :
    isIdentifier ('_' :: cs) = true ↔ ∀ c ∈ cs, continuesIdentifier c = true := by
  have hstart : startsIdentifier '_' = true := by decide
  rw [isIdentifier, hstart, Bool.true_and, List.all_eq_true]

theorem continues_of_isIdentifier {cs : List Char} (h : isIdentifier cs = true) :
    ∀ c ∈ cs, continuesIdentifier c = true := by
  cases cs with
  | nil => cases h
  | cons c rest =>
    obtain ⟨hc, hrest⟩ := (Bool.and_eq_true _ _).mp h
    exact List.forall_mem_cons.mpr ⟨continuesIdentifier_of_starts hc, List.all_eq_true.mp hrest⟩

end Text

section Camel

open Text

variable {name a b : String} {c d : Char}

theorem toCamel_of_words {first : List Char} {rest : List (List Char)}
    (h : wordsBetween separatesWords name.toList = first :: rest) :
    (toCamel name).toList =
      withFirst lowerChar first ++ rest.flatMap (withFirst upperChar) := by
  rw [toCamel, h]
  exact String.toList_ofList

theorem toCamel_of_wordless (h : ∀ c ∈ name.toList, separatesWords c = true) :
    toCamel name = name := by
  rw [toCamel, wordsBetween_eq_nil.mpr h]

/-- A name is without words, or it begins with one. -/
theorem words_cases (name : String) : (∀ c ∈ name.toList, separatesWords c = true) ∨
    ∃ first rest, wordsBetween separatesWords name.toList = first :: rest := by
  cases h : wordsBetween separatesWords name.toList with
  | nil => exact Or.inl (wordsBetween_eq_nil.mp h)
  | cons first rest => exact Or.inr ⟨first, rest, rfl⟩

theorem exists_words (h : ∃ c ∈ name.toList, separatesWords c = false) :
    ∃ first rest, wordsBetween separatesWords name.toList = first :: rest := by
  rcases words_cases name with hless | hwords
  · obtain ⟨c, hc, hword⟩ := h
    rw [hless c hc] at hword
    cases hword
  · exact hwords

theorem forall_mem_withFirst {P : Char → Prop} {change : Char → List Char} {word : List Char}
    (hchange : ∀ c, P c → ∀ d ∈ change c, P d) (hword : ∀ c ∈ word, P c) :
    ∀ d ∈ withFirst change word, P d := by
  cases word with
  | nil => exact hword
  | cons c rest =>
    obtain ⟨hc, hrest⟩ := List.forall_mem_cons.mp hword
    exact List.forall_mem_append.mpr ⟨hchange c hc, hrest⟩

/-- What holds of the characters of words, and is kept where case is changed, holds in the camel
form. -/
theorem forall_mem_toCamel {P : Char → Prop} (hlower : ∀ c, P c → ∀ d ∈ lowerChar c, P d)
    (hupper : ∀ c, P c → ∀ d ∈ upperChar c, P d)
    (hname : ∀ c ∈ name.toList, separatesWords c = false → P c)
    (hword : ∃ c ∈ name.toList, separatesWords c = false) : ∀ d ∈ (toCamel name).toList, P d := by
  have hwords : ∀ word ∈ wordsBetween separatesWords name.toList, ∀ c ∈ word, P c := by
    intro word hmem c hc
    obtain ⟨hcname, hc⟩ := mem_wordsBetween.mp ⟨word, hmem, hc⟩
    exact hname c hcname hc
  obtain ⟨first, rest, h⟩ := exists_words hword
  rw [h] at hwords
  obtain ⟨hfirst, hrest⟩ := List.forall_mem_cons.mp hwords
  rw [toCamel_of_words h]
  refine List.forall_mem_append.mpr ⟨forall_mem_withFirst hlower hfirst, fun d hd => ?_⟩
  obtain ⟨word, hmem, hd⟩ := List.mem_flatMap.mp hd
  exact forall_mem_withFirst hupper (hrest word hmem) d hd

/-- What separates words, as runs, of which only what they hold counts. -/
def separatorRuns : List CaseRun :=
  [(9, 13, 1, 0), (28, 32, 1, 0), (45, 45, 1, 0), (95, 95, 1, 0), (0x85, 0x85, 1, 0),
    (0xa0, 0xa0, 1, 0), (0x1680, 0x1680, 1, 0), (0x2000, 0x200a, 1, 0), (0x2028, 0x2029, 1, 0),
    (0x202f, 0x202f, 1, 0), (0x205f, 0x205f, 1, 0), (0x3000, 0x3000, 1, 0)]

theorem exists_separatorRun (h : separatesWords c = true) :
    ∃ run ∈ separatorRuns, run.holds c.toNat = true := by
  simp only [separatesWords, isBlank, Bool.or_eq_true, Bool.and_eq_true, decide_eq_true_eq,
    beq_iff_eq] at h
  simp only [separatorRuns, CaseRun.holds, List.mem_cons, List.not_mem_nil, or_false,
    Bool.and_eq_true, decide_eq_true_eq, beq_iff_eq, exists_eq_or_imp, exists_eq_left]
  rcases h with (rfl | rfl) | h
  · decide
  · decide
  · omega

theorem separatesWords_target {bound n : Nat} {run : CaseRun} (habove : run.isAbove bound = true)
    (hmisses : separatorRuns.all run.misses = true) (hn : run.holds n = true) :
    separatesWords (Char.ofNat (run.target n)) = false := by
  by_contra h
  obtain ⟨other, hother, hholds⟩ := exists_separatorRun (Bool.not_eq_false _ ▸ h)
  rw [(CaseRun.target_above habove hn).2,
    CaseRun.misses_target habove (List.all_eq_true.mp hmisses other hother) hn] at hholds
  cases hholds

theorem change_not_separates {bound : Nat} {runs : List CaseRun} {sequences : List (Nat × List Nat)}
    (ascii : Char → Char)
    (hascii : ∀ n < 128, ascii (Char.ofNat n) = Char.ofNat n ∨
      separatesWords (ascii (Char.ofNat n)) = false)
    (habove : ∀ run ∈ runs, run.isAbove bound = true)
    (hmisses : ∀ run ∈ runs, separatorRuns.all run.misses = true)
    (hsequences : ∀ s ∈ sequences, s.2 ≠ [] ∧ ∀ n ∈ s.2, separatesWords (Char.ofNat n) = false)
    (h : separatesWords c = false) :
    ∀ d ∈ if c.toNat < 128 then [ascii c] else mapCase runs sequences c,
      separatesWords d = false := by
  have hruns : ∀ run ∈ runs, ∀ n, run.holds n = true →
      separatesWords (Char.ofNat (run.target n)) = false := fun run hrun n hn =>
    separatesWords_target (habove run hrun) (hmisses run hrun) hn
  have hcases := change_cases (P := (separatesWords · = false)) ascii hascii hruns hsequences c
  rcases hcases with hsame | ⟨-, himages⟩
  · rw [hsame]
    exact List.forall_mem_singleton.mpr h
  · exact himages

/-- No entry of the case tables leads to what separates words. -/
theorem tables_miss_separators :
    (∀ run ∈ lowerRuns ++ upperRuns, separatorRuns.all run.misses = true) ∧
      ∀ s ∈ lowerSequences ++ upperSequences,
        s.2 ≠ [] ∧ ∀ n ∈ s.2, separatesWords (Char.ofNat n) = false := by
  decide +kernel

theorem lowerChar_not_separates (c : Char) (h : separatesWords c = false) :
    ∀ d ∈ lowerChar c, separatesWords d = false :=
  change_not_separates Char.toLower (by decide) (fun run hrun => (lowerRuns_judged run hrun).1)
    (fun run hrun => tables_miss_separators.1 run (List.mem_append_left _ hrun))
    (fun s hs => tables_miss_separators.2 s (List.mem_append_left _ hs)) h

theorem upperChar_not_separates (c : Char) (h : separatesWords c = false) :
    ∀ d ∈ upperChar c, separatesWords d = false :=
  change_not_separates Char.toUpper (by decide) upperRuns_above
    (fun run hrun => tables_miss_separators.1 run (List.mem_append_right _ hrun))
    (fun s hs => tables_miss_separators.2 s (List.mem_append_right _ hs)) h

/-- The camel form of a name with a word holds nothing that separates words. -/
theorem toCamel_not_separates (h : ∃ c ∈ name.toList, separatesWords c = false) :
    ∀ d ∈ (toCamel name).toList, separatesWords d = false :=
  forall_mem_toCamel lowerChar_not_separates upperChar_not_separates (fun _ _ hc => hc) h

theorem mem_withFirst_of_mem {change : Char → List Char} {word : List Char}
    (hchange : change c = [c]) (hc : c ∈ word) : c ∈ withFirst change word := by
  cases word with
  | nil => cases hc
  | cons e rest =>
    rcases List.mem_cons.mp hc with rfl | hc
    · exact List.mem_append_left _ (hchange ▸ List.mem_singleton_self c)
    · exact List.mem_append_right _ hc

/-- A character without case stays in the camel form, unless it separates words. -/
theorem mem_toCamel_of_mem (hlower : lowerChar c = [c]) (hupper : upperChar c = [c])
    (hword : separatesWords c = false) (hc : c ∈ name.toList) : c ∈ (toCamel name).toList := by
  obtain ⟨word, hmem, hcword⟩ := mem_wordsBetween.mpr ⟨hc, hword⟩
  obtain ⟨first, rest, h⟩ := exists_words ⟨c, hc, hword⟩
  rw [toCamel_of_words h]
  rw [h] at hmem
  rcases List.mem_cons.mp hmem with rfl | hmem
  · exact List.mem_append_left _ (mem_withFirst_of_mem hlower hcword)
  · apply List.mem_append_right
    exact List.mem_flatMap.mpr ⟨word, hmem, mem_withFirst_of_mem hupper hcword⟩

theorem toCamel_ne_nil (hname : name ≠ "") : (toCamel name).toList ≠ [] := by
  rcases words_cases name with hless | ⟨first, rest, h⟩
  · rw [toCamel_of_wordless hless]
    intro hnil
    exact hname (String.toList_eq_nil_iff.mp hnil)
  · rw [toCamel_of_words h]
    have hmem : first ∈ wordsBetween separatesWords name.toList := h ▸ List.mem_cons_self
    obtain ⟨c, tail, rfl⟩ := List.exists_cons_of_ne_nil (word_ne_nil hmem)
    have hlower := lowerChar_ne_nil c
    simp [withFirst, hlower]

/-- Only a name without words has a camel form that begins with an underscore. -/
theorem wordless_of_toCamel {tail : List Char} (h : (toCamel name).toList = '_' :: tail) :
    ∀ c ∈ name.toList, separatesWords c = true := by
  by_contra hword
  have hnone := toCamel_not_separates (by simpa using hword) '_' (h ▸ List.mem_cons_self)
  exact absurd hnone (by decide)

/-- Of what separates words only the underscore may stand in an identifier. -/
theorem eq_underscore_of_separates (hseparates : separatesWords c = true)
    (hcontinues : continuesIdentifier c = true) : c = '_' := by
  have hblank : blankCodes.all (fun n => !continuesIdentifier (Char.ofNat n)) = true := by
    decide +kernel
  simp only [separatesWords, Bool.or_eq_true, beq_iff_eq] at hseparates
  rcases hseparates with (rfl | rfl) | hc
  · exact absurd hcontinues (by decide)
  · rfl
  · have hnone := List.all_eq_true.mp hblank _ (mem_blankCodes_of_isBlank hc)
    rw [Char.ofNat_toNat, hcontinues] at hnone
    cases hnone

theorem identifierOf_cases (name : String) :
    (isIdentifier (toCamel name).toList = true ∧ identifierOf name = toCamel name) ∨
      isIdentifier (toCamel name).toList = false ∧ identifierOf name = "_" ++ toCamel name := by
  unfold identifierOf
  cases h : isIdentifier (toCamel name).toList with
  | true => exact Or.inl ⟨rfl, if_pos h⟩
  | false => exact Or.inr ⟨rfl, if_neg (Bool.eq_false_iff.mp h)⟩

theorem toList_underscore_append (s : String) : ("_" ++ s).toList = '_' :: s.toList :=
  String.toList_append

/-- The identifier for a name is one exactly if its camel form holds only what may stand in one. -/
theorem isIdentifier_identifierOf :
    isIdentifier (identifierOf name).toList = true ↔
      ∀ c ∈ (toCamel name).toList, continuesIdentifier c = true := by
  rcases identifierOf_cases name with ⟨hcamel, hname⟩ | ⟨-, hname⟩
  · rw [hname]
    exact iff_of_true hcamel (continues_of_isIdentifier hcamel)
  · rw [hname, toList_underscore_append]
    exact isIdentifier_underscore _

/-- No camel form that is an identifier is another one, which is none, behind an underscore. -/
theorem toCamel_ne_underscore (hb : b ≠ "") (hcamel : isIdentifier (toCamel a).toList = true)
    (hnone : isIdentifier (toCamel b).toList = false) : toCamel a ≠ "_" ++ toCamel b := by
  intro heq
  have hlist : (toCamel a).toList = '_' :: (toCamel b).toList := by
    rw [heq, toList_underscore_append]
  have hless := wordless_of_toCamel hlist
  rw [toCamel_of_wordless hless] at hlist hcamel
  -- So all of the camel form of `b` separates words and may stand in an identifier.
  obtain ⟨c, rest, hc⟩ := List.exists_cons_of_ne_nil (toCamel_ne_nil hb)
  rw [hlist, isIdentifier_underscore] at hcamel
  have hmem : c ∈ a.toList := by
    rw [hlist, hc]
    exact List.mem_cons_of_mem _ List.mem_cons_self
  have hunderscore : c = '_' :=
    eq_underscore_of_separates (hless c hmem) (hcamel c (hc ▸ List.mem_cons_self))
  have hrest : isIdentifier (toCamel b).toList = true := by
    rw [hc, hunderscore, isIdentifier_underscore]
    intro d hd
    exact hcamel d (hc ▸ List.mem_cons_of_mem _ hd)
  rw [hrest] at hnone
  cases hnone

/-- Names that are not empty share their identifier exactly if they share their camel form. -/
theorem identifierOf_eq_iff (ha : a ≠ "") (hb : b ≠ "") :
    identifierOf a = identifierOf b ↔ toCamel a = toCamel b := by
  constructor
  · intro h
    rcases identifierOf_cases a with ⟨hcamel, hname⟩ | ⟨hnone, hname⟩
    · rcases identifierOf_cases b with ⟨hcamel', hname'⟩ | ⟨hnone', hname'⟩
      · rw [← hname, h, hname']
      · rw [hname, hname'] at h
        exact absurd h (toCamel_ne_underscore hb hcamel hnone')
    · rcases identifierOf_cases b with ⟨hcamel', hname'⟩ | ⟨hnone', hname'⟩
      · rw [hname, hname'] at h
        exact absurd h.symm (toCamel_ne_underscore ha hcamel' hnone)
      · rw [hname, hname'] at h
        have hlist := congrArg String.toList h
        rw [toList_underscore_append, toList_underscore_append] at hlist
        exact String.toList_injective (List.cons.inj hlist).2
  · intro h
    unfold identifierOf
    rw [h]

theorem toNat_lt_of_isAlphanum (h : c.isAlphanum = true) : c.toNat < 128 := by
  have hval : c.toNat = c.val.toNat := rfl
  simp only [Char.isAlphanum, Char.isAlpha, Char.isUpper, Char.isLower, Char.isDigit,
    Bool.or_eq_true, Bool.and_eq_true, decide_eq_true_eq, ge_iff_le, UInt32.le_iff_toNat_le] at h
  rcases h with (h | h) | h
  · exact Nat.lt_of_le_of_lt h.2 (by decide)
  · exact Nat.lt_of_le_of_lt h.2 (by decide)
  · exact Nat.lt_of_le_of_lt h.2 (by decide)

theorem continuesIdentifier_of_isAlphanum (h : c.isAlphanum = true) :
    continuesIdentifier c = true := by
  rw [continuesIdentifier, if_pos (toNat_lt_of_isAlphanum h), h, Bool.true_or]

theorem isAlphanum_change (ascii : Char → Char) (other : Char → List Char)
    (hascii : ∀ n < 128, (Char.ofNat n).isAlphanum = true →
      (ascii (Char.ofNat n)).isAlphanum = true) (c : Char) (h : c.isAlphanum = true) :
    ∀ d ∈ if c.toNat < 128 then [ascii c] else other c, d.isAlphanum = true := by
  have hc := toNat_lt_of_isAlphanum h
  have hchange := of_forall_ascii (P := fun c => c.isAlphanum = true → (ascii c).isAlphanum = true)
    hascii hc
  rw [if_pos hc]
  exact List.forall_mem_singleton.mpr (hchange h)

/-- A name of letters, digits, hyphens and underscores has an identifier, if it has a word. -/
theorem isIdentifier_of_plain (hplain : ∀ c ∈ name.toList, c.isAlphanum = true ∨ c = '-' ∨ c = '_')
    (hword : ∃ c ∈ name.toList, c.isAlphanum = true) :
    isIdentifier (identifierOf name).toList = true := by
  have hletters : ∀ c ∈ name.toList, separatesWords c = false → c.isAlphanum = true := by
    intro c hc hseparates
    rcases hplain c hc with hc | rfl | rfl
    · exact hc
    · exact absurd hseparates (by decide)
    · exact absurd hseparates (by decide)
  have hnone : ∀ n < 128, (Char.ofNat n).isAlphanum = true →
      separatesWords (Char.ofNat n) = false := by decide
  obtain ⟨c, hmem, hc⟩ := hword
  have hcword : separatesWords c = false :=
    of_forall_ascii (P := fun c => c.isAlphanum = true → separatesWords c = false) hnone
      (toNat_lt_of_isAlphanum hc) hc
  apply isIdentifier_identifierOf.mpr
  intro d hd
  apply continuesIdentifier_of_isAlphanum
  exact forall_mem_toCamel (isAlphanum_change Char.toLower _ (by decide))
    (isAlphanum_change Char.toUpper _ (by decide)) hletters ⟨c, hmem, hcword⟩ d hd

end Camel

end DesignTokens
