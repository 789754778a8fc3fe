import DesignTokens.Color
import DesignTokens.Proofs.Identifiers

/-! The notations that a colour is read from. A text is a call of `rgb` or hexadecimal, and never both.
The arguments of a call are any texts that spell a number, the word for what is not a number among
them. -/
namespace DesignTokens

namespace Number

/-- Only an underscore before a digit is taken out, so a text that holds no digit stays as it is. -/
theorem eq_of_withoutUnderscores? {afterDigit : Bool} {cs kept : List Char}
    (h : withoutUnderscores? afterDigit cs = some kept)
    (hdigit : ∀ c ∈ kept, Text.digitValue? c = none) : cs = kept := by
  fun_induction withoutUnderscores? afterDigit cs generalizing kept with
  | case1 => simpa using h
  | case2 afterDigit c rest hc ih =>
    obtain ⟨tail, -, rfl⟩ := Option.map_eq_some_iff.mp h
    have hnone := hdigit c List.mem_cons_self
    simp [hnone] at hc
  | case3 => cases h
  | case4 => cases h
  | case5 afterDigit c rest _ _ ih =>
    obtain ⟨tail, htail, rfl⟩ := Option.map_eq_some_iff.mp h
    rw [ih htail fun d hd => hdigit d (List.mem_cons_of_mem _ hd)]

/-- A text that spells what is not a number: the word for it in any case, behind a sign or none. -/
def SpellsNan (s : List Char) : Prop :=
  ∃ word : List Char, word.map Char.toLower = ['n', 'a', 'n'] ∧
    (s = word ∨ s = '+' :: word ∨ s = '-' :: word)

theorem ofRatio_ne_nan (negative : Bool) (num den : Nat) :
    Binary64.ofRatio negative num den ≠ .nan := by
  unfold Binary64.ofRatio Binary64.zero
  dsimp only
  split_ifs <;> nofun

theorem ofDecimal_ne_nan (negative : Bool) (digits : Nat) (exponent : Int) :
    Binary64.ofDecimal negative digits exponent ≠ .nan := by
  unfold Binary64.ofDecimal Binary64.zero
  dsimp only
  split_ifs
  · nofun
  · nofun
  · nofun
  · exact ofRatio_ne_nan negative _ _

theorem readDecimal?_ne_nan (negative : Bool) (cs : List Char) :
    readDecimal? negative cs ≠ some .nan := by
  intro h
  unfold readDecimal? at h
  split at h
  split at h
  split at h
  · cases h
  · obtain ⟨e, -, h⟩ := Option.bind_eq_some_iff.mp h
    exact ofDecimal_ne_nan _ _ _ (Option.some.inj h)

/-- A character with the lower case of a letter is that letter or an upper-case one. -/
theorem eq_or_upper_of_toLower {c letter : Char} (h : c.toLower = letter) :
    c = letter ∨ 65 ≤ c.toNat ∧ c.toNat ≤ 90 := by
  unfold Char.toLower at h
  split at h
  · next hupper => exact Or.inr ⟨UInt32.le_iff_toNat_le.mp hupper.1, UInt32.le_iff_toNat_le.mp hupper.2⟩
  · exact Or.inl h

/-- The characters of the word for what is not a number are no digits, signs or underscores. -/
theorem nan_letters {word : List Char} (h : word.map Char.toLower = ['n', 'a', 'n']) :
    ∀ c ∈ word, Text.digitValue? c = none ∧ c ≠ '_' ∧ c ≠ '+' ∧ c ≠ '-' := by
  intro c hc
  have hlower : c.toLower ∈ ['n', 'a', 'n'] := h ▸ List.mem_map_of_mem hc
  rcases eq_or_upper_of_toLower rfl with heq | hupper
  · rw [← heq] at hlower
    fin_cases hlower <;> decide
  · refine ⟨?_, ?_, ?_, ?_⟩
    · have hdigit : c.isDigit = false := by
        simp only [Char.isDigit, Bool.and_eq_false_iff, decide_eq_false_iff_not]
        right
        intro hle
        have hle' := UInt32.le_iff_toNat_le.mp hle
        have hnine : '9'.val.toNat = 57 := rfl
        have : c.toNat = c.val.toNat := rfl
        omega
      rw [Text.digitValue?, if_pos (by omega), hdigit]
      rfl
    all_goals
      rintro rfl
      revert hupper
      decide

theorem leadingSign_of_ne {c : Char} {rest : List Char} (hplus : c ≠ '+') (hminus : c ≠ '-') :
    leadingSign (c :: rest) = (false, c :: rest) := by
  unfold leadingSign
  split <;> simp_all

theorem leadingSign_cases (s : List Char) :
    s = (leadingSign s).2 ∨ s = '+' :: (leadingSign s).2 ∨ s = '-' :: (leadingSign s).2 := by
  unfold leadingSign
  split <;> simp

/-- What spells it holds no digit and no underscore. -/
theorem SpellsNan.clean {s : List Char} (h : SpellsNan s) :
    ∀ c ∈ s, Text.digitValue? c = none ∧ c ≠ '_' := by
  obtain ⟨word, hword, hs⟩ := h
  have hletters : ∀ c ∈ word, Text.digitValue? c = none ∧ c ≠ '_' :=
    fun c hc => ⟨(nan_letters hword c hc).1, (nan_letters hword c hc).2.1⟩
  rcases hs with rfl | rfl | rfl
  · exact hletters
  · exact List.forall_mem_cons.mpr ⟨by decide, hletters⟩
  · exact List.forall_mem_cons.mpr ⟨by decide, hletters⟩

theorem spellsNan_of_readFloat? {s : String} (h : readFloat? s = some .nan) :
    SpellsNan (Text.strip s.toList) := by
  obtain ⟨cs, hcs, h⟩ := Option.bind_eq_some_iff.mp h
  have hsign := leadingSign_cases cs
  split at h
  next negative word hword =>
  rw [hword] at hsign
  split at h
  · cases h
  · cases h
  · next hnan =>
    have hlower : word.map Char.toLower = ['n', 'a', 'n'] := by
      simpa using congrArg String.toList hnan
    have hspells : SpellsNan cs := ⟨word, hlower, hsign⟩
    rwa [eq_of_withoutUnderscores? hcs fun c hc => (hspells.clean c hc).1]
  · exact absurd h (readDecimal?_ne_nan negative word)

/-- A text is read as what is not a number exactly if it spells that. -/
theorem readFloat?_eq_nan {s : String} :
    readFloat? s = some .nan ↔ SpellsNan (Text.strip s.toList) := by
  refine ⟨spellsNan_of_readFloat?, fun h => ?_⟩
  have hline : '_' ∉ Text.strip s.toList := fun hmem => (h.clean _ hmem).2 rfl
  obtain ⟨word, hword, hs⟩ := h
  have hsign : (leadingSign (Text.strip s.toList)).2 = word := by
    rcases hs with hs | hs | hs <;> rw [hs]
    · cases word with
      | nil => rfl
      | cons c rest =>
        obtain ⟨-, -, hplus, hminus⟩ := nan_letters hword c List.mem_cons_self
        rw [leadingSign_of_ne hplus hminus]
    · rfl
    · rfl
  rw [readFloat?, withoutUnderscores?_of_forall hline]
  simp only [Option.bind_eq_bind, Option.bind_some, hsign, hword]

end Number

namespace Color

section Notation

variable {s inner : List Char} {text : String} {c : Color} {ds : List Nat}

/-- A text in the `rgb` notation: the name in any case, and what stands between the parentheses. -/
def IsCall (s inner : List Char) : Prop :=
  ∃ name : List Char, (name.map Char.toLower = ['r', 'g', 'b'] ∨
      name.map Char.toLower = ['r', 'g', 'b', 'a']) ∧
    s = name ++ '(' :: (inner ++ [')']) ∧ ')' ∉ inner

/-- What stands behind a run and the character that ends it. -/
theorem eq_takeWhile_append_of_drop {p : Char → Bool} {behind : List Char} (hne : behind ≠ [])
    (h : s.drop ((s.takeWhile p).length + 1) = behind) :
    ∃ c, p c = false ∧ s = s.takeWhile p ++ c :: behind := by
  have hs := List.takeWhile_append_dropWhile (p := p) (l := s)
  have hbehind : (s.dropWhile p).drop 1 = behind := by
    nth_rewrite 2 [← hs] at h
    rwa [List.drop_length_add_append] at h
  cases hrest : s.dropWhile p with
  | nil =>
    rw [hrest] at hbehind
    exact absurd hbehind.symm hne
  | cons c tail =>
    have hc := List.head?_dropWhile_not p s
    rw [hrest] at hc hbehind
    refine ⟨c, by simpa using hc, ?_⟩
    rw [← hbehind, List.drop_one, List.tail_cons, ← hrest, hs]

theorem isCall_of_arguments? {found : List Char} (h : arguments? s = some found) :
    ∃ inner, IsCall s inner ∧ found = Text.strip inner := by
  unfold arguments? at h
  dsimp only at h
  split at h
  · next hname =>
    split at h
    · next rest hrest =>
      split at h
      · cases h
      · next hclean =>
        cases h
        have hbehind : s.drop ((s.takeWhile (· != '(')).length + 1) = rest.reverse ++ [')'] := by
          rw [List.length_map] at hrest
          rw [← List.reverse_cons, ← hrest, List.reverse_reverse]
        obtain ⟨c, hc, hs⟩ := eq_takeWhile_append_of_drop (by simp) hbehind
        obtain rfl : c = '(' := by simpa using hc
        exact ⟨rest.reverse, ⟨_, hname, hs, by simpa using hclean⟩, rfl⟩
    · cases h
  · cases h

/-- Arguments are found exactly in the `rgb` notation. -/
theorem arguments?_eq_some {found : List Char} :
    arguments? s = some found ↔ ∃ inner, IsCall s inner ∧ found = Text.strip inner := by
  refine ⟨isCall_of_arguments?, fun h => ?_⟩
  obtain ⟨inner, ⟨name, hname, rfl, hclean⟩, rfl⟩ := h
  have hopen : ∀ c ∈ name, (c != '(') = true := by
    intro c hc
    have hlower : c.toLower ∈ name.map Char.toLower := List.mem_map_of_mem hc
    simp only [bne_iff_ne, ne_eq]
    rintro rfl
    rcases hname with hname | hname <;> rw [hname] at hlower <;> revert hlower <;> decide
  have hcut : (name ++ '(' :: (inner ++ [')'])).takeWhile (· != '(') = name := by
    rw [List.takeWhile_append_of_pos hopen]
    simp
  have hbehind : (name ++ '(' :: (inner ++ [')'])).drop (name.length + 1) = inner ++ [')'] := by
    rw [List.drop_length_add_append, List.drop_one, List.tail_cons]
  rw [arguments?, hcut, if_pos hname, List.length_map, hbehind, List.reverse_append]
  simp [hclean]

theorem toLower_ne_transparent {mark : Char} (hmem : mark ∈ s)
    (hmark : mark.toLower ∉ "transparent".toList) :
    String.ofList (s.map Char.toLower) ≠ "transparent" := by
  intro h
  have hlower : mark.toLower ∈ s.map Char.toLower := List.mem_map_of_mem hmem
  rw [← h, String.toList_ofList] at hmark
  exact hmark hlower

/-- A call begins with a letter and holds a parenthesis, so it is not read in another notation. -/
theorem read_of_isCall (h : IsCall (Text.strip text.toList) inner) :
    read text = ofArguments text (Text.wordsBetween isSeparator (Text.strip inner)) := by
  have harguments := arguments?_eq_some.mpr ⟨inner, h, rfl⟩
  obtain ⟨name, hname, hs, -⟩ := h
  have hopen : '(' ∈ Text.strip text.toList := by simp [hs]
  have hword : String.ofList ((Text.strip text.toList).map Char.toLower) ≠ "transparent" :=
    toLower_ne_transparent hopen (by decide)
  have hhex : hexDigits? (Text.strip text.toList) = none := by
    rw [hs]
    cases name with
    | nil => rcases hname with hname | hname <;> cases hname
    | cons first rest =>
      have hfirst : first ≠ '#' := by
        rintro rfl
        rcases hname with hname | hname <;> exact absurd (List.cons.inj hname).1 (by decide)
      rw [List.cons_append, hexDigits?]
      intro tail htail
      exact hfirst (List.cons.inj htail).1
  rw [read, if_neg hword, hhex, harguments]

theorem read_of_hexDigits? (h : hexDigits? (Text.strip text.toList) = some ds) :
    read text = .ok (ofHex ds) := by
  have hmark : '#' ∈ Text.strip text.toList := by
    unfold hexDigits? at h
    split at h
    · next hs => simp [hs]
    · cases h
  rw [read, if_neg (toLower_ne_transparent hmark (by decide)), h]

/-- The notations that a colour can be read from. -/
theorem read_cases (h : read text = .ok c) :
    c = ⟨0, 0, 0, .ofNat 0⟩ ∨
    (∃ ds, hexDigits? (Text.strip text.toList) = some ds ∧ c = ofHex ds) ∨
    ∃ inner, IsCall (Text.strip text.toList) inner ∧
      ofArguments text (Text.wordsBetween isSeparator (Text.strip inner)) = .ok c := by
  unfold read at h
  dsimp only at h
  split at h
  · cases h
    exact Or.inl rfl
  · split at h
    · next ds hds =>
      cases h
      exact Or.inr (Or.inl ⟨ds, hds, rfl⟩)
    · split at h
      · next found hfound =>
        obtain ⟨inner, hcall, rfl⟩ := arguments?_eq_some.mp hfound
        exact Or.inr (Or.inr ⟨inner, hcall, h⟩)
      · cases h

theorem number?_eq_ok {part : List Char} {x : Binary64} :
    number? part = .ok x ↔ Number.readFloat? (String.ofList part) = some x := by
  unfold number?
  split <;> simp_all

theorem strip_word {words : List (List Char)} {s word : List Char}
    (h : Text.wordsBetween isSeparator s = words) (hword : word ∈ words) :
    Text.strip word = word := by
  refine Text.strip_of_forall fun c hc => ?_
  have hseparator := (Text.mem_wordsBetween.mp ⟨word, h ▸ hword, hc⟩).2
  simp only [isSeparator, Bool.or_eq_false_iff] at hseparator
  exact hseparator.1.1

theorem hexNumber?_singleton (c : Char) : Json.hexNumber? [c] = Json.hexNumber?.hexValue? c := by
  simp [Json.hexNumber?]

theorem hexValue?_lt {c : Char} {d : Nat} (h : Json.hexNumber?.hexValue? c = some d) : d < 16 := by
  have hlast : '9'.val.toNat = 57 ∧ 'f'.val.toNat = 102 ∧ 'F'.val.toNat = 70 := ⟨rfl, rfl, rfl⟩
  have hnat : c.toNat = c.val.toNat := rfl
  unfold Json.hexNumber?.hexValue? at h
  simp only [Char.le_def, UInt32.le_iff_toNat_le] at h
  split_ifs at h <;> (obtain rfl := Option.some.inj h; omega)

theorem exists_of_mem_mapM {α β : Type} {f : α → Option β} {xs : List α} {ys : List β}
    (h : xs.mapM f = some ys) : ∀ y ∈ ys, ∃ x ∈ xs, f x = some y := by
  induction xs generalizing ys with
  | nil =>
    obtain rfl : ys = [] := by simpa [eq_comm] using h
    nofun
  | cons x rest ih =>
    rw [List.mapM_cons] at h
    obtain ⟨y, hy, h⟩ := Option.bind_eq_some_iff.mp h
    obtain ⟨tail, htail, h⟩ := Option.bind_eq_some_iff.mp h
    cases h
    refine List.forall_mem_cons.mpr ⟨⟨x, List.mem_cons_self, hy⟩, fun z hz => ?_⟩
    obtain ⟨w, hw, hwz⟩ := ih htail z hz
    exact ⟨w, List.mem_cons_of_mem _ hw, hwz⟩

theorem hexDigits?_lt {s : List Char} {ds : List Nat} (h : hexDigits? s = some ds) :
    ∀ d ∈ ds, d < 16 := by
  unfold hexDigits? at h
  split at h
  · split at h
    · next found hfound =>
      split at h
      · cases h
        intro d hd
        obtain ⟨c, -, hc⟩ := exists_of_mem_mapM hfound d hd
        rw [hexNumber?_singleton] at hc
        exact hexValue?_lt hc
      · cases h
    · cases h
  · cases h

end Notation

end Color

end DesignTokens
