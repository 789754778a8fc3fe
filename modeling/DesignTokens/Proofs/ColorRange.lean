import DesignTokens.Proofs.ColorNotation
import DesignTokens.Proofs.Rounding

/-! The range of a colour that is read. Its channels are bytes. Its alpha lies between zero and one
unless the `rgb` notation gives it as what is not a number, which no bounds keep out. -/
namespace DesignTokens.Color

variable {text : String} {c : Color} {parts : List (List Char)}

/-- The channels of a colour are bytes. -/
structure HasBytes (c : Color) : Prop where
  red : 0 ≤ c.red ∧ c.red ≤ 255
  green : 0 ≤ c.green ∧ c.green ≤ 255
  blue : 0 ≤ c.blue ∧ c.blue ≤ 255

/-- A text whose alpha is given as what is not a number. -/
def AlphaIsNan (text : String) : Prop :=
  ∃ inner r g b a, IsCall (Text.strip text.toList) inner ∧
    Text.wordsBetween isSeparator (Text.strip inner) = [r, g, b, a] ∧ Number.SpellsNan a

theorem value?_bounds : (Binary64.ofNat 0).value? = some 0 ∧ (Binary64.ofNat 1).value? = some 1 ∧
    (Binary64.ofNat 255).value? = some 255 :=
  ⟨by simpa using Binary64.value?_ofNat (n := 0) (by norm_num),
    by simpa using Binary64.value?_ofNat (n := 1) (by norm_num),
    by simpa using Binary64.value?_ofNat (n := 255) (by norm_num)⟩

/-- A channel is a byte, whatever number is given for it. -/
theorem channel?_byte {part : List Char} {n : Int} (h : channel? part = .ok n) :
    0 ≤ n ∧ n ≤ 255 := by
  obtain ⟨hzero, -, hbyte⟩ := value?_bounds
  obtain ⟨x, -, h⟩ := bind_eq_ok.mp h
  split at h
  · next i hround =>
    cases h
    have hx : x ≠ .nan := by
      rintro rfl
      rw [Binary64.clamp_nan] at hround
      cases hround
    have hordered : (Binary64.ofNat 0).le (.ofNat 255) = true := by
      rw [Binary64.le_iff_of_value hzero hbyte]
      norm_num
    obtain ⟨hlow, hhigh⟩ := Binary64.clamp_between hordered hx
    obtain ⟨q, hq, hqlow, hqhigh⟩ := Binary64.exists_value_of_between hzero hbyte hlow hhigh
    exact Binary64.round?_between (k := 255) hq hqlow (by exact_mod_cast hqhigh) hround
  · cases h

/-- An alpha that is a number is brought between zero and one. -/
theorem alphaOf_isPart {x : Binary64} (hx : x ≠ .nan) : (ofArguments.alphaOf x).IsPart := by
  obtain ⟨hzero, hone, -⟩ := value?_bounds
  have hordered : (Binary64.ofNat 0).le (.ofNat 1) = true := by
    rw [Binary64.le_iff_of_value hzero hone]
    norm_num
  obtain ⟨hlow, hhigh⟩ := Binary64.clamp_between hordered hx
  exact Binary64.exists_value_of_between hzero hone hlow hhigh

theorem alphaOf_eq_nan {x : Binary64} : ofArguments.alphaOf x = .nan ↔ x = .nan := by
  constructor
  · intro h
    by_contra hx
    exact (alphaOf_isPart hx).ne_nan h
  · rintro rfl
    exact Binary64.clamp_nan _ _

/-- What arguments come to: bytes, and an alpha from the fourth argument if there is one. -/
theorem ofArguments_cases (h : ofArguments text parts = .ok c) : c.HasBytes ∧
    ((parts.length = 3 ∧ c.alpha = ofArguments.alphaOf opaqueAlpha) ∨
      ∃ r g b a x, parts = [r, g, b, a] ∧ Number.readFloat? (String.ofList a) = some x ∧
        c.alpha = ofArguments.alphaOf x) := by
  unfold ofArguments at h
  split at h
  · next r g b =>
    obtain ⟨red, hred, h⟩ := bind_eq_ok.mp h
    obtain ⟨green, hgreen, h⟩ := bind_eq_ok.mp h
    obtain ⟨blue, hblue, h⟩ := bind_eq_ok.mp h
    obtain rfl := pure_eq_ok.mp h
    exact ⟨⟨channel?_byte hred, channel?_byte hgreen, channel?_byte hblue⟩,
      Or.inl ⟨rfl, by dsimp only⟩⟩
  · next r g b a =>
    obtain ⟨red, hred, h⟩ := bind_eq_ok.mp h
    obtain ⟨green, hgreen, h⟩ := bind_eq_ok.mp h
    obtain ⟨blue, hblue, h⟩ := bind_eq_ok.mp h
    obtain ⟨x, hx, h⟩ := bind_eq_ok.mp h
    obtain rfl := pure_eq_ok.mp h
    exact ⟨⟨channel?_byte hred, channel?_byte hgreen, channel?_byte hblue⟩,
      Or.inr ⟨r, g, b, a, x, rfl, number?_eq_ok.mp hx, rfl⟩⟩
  · cases h

theorem pairs_le {ds : List Nat} (h : ∀ d ∈ ds, d < 16) : ∀ n ∈ hexBytes.pairs ds, n ≤ 255 := by
  fun_induction hexBytes.pairs ds with
  | case1 a b rest ih =>
    obtain ⟨ha, hb, hrest⟩ : a < 16 ∧ b < 16 ∧ ∀ d ∈ rest, d < 16 := by simpa using h
    exact List.forall_mem_cons.mpr ⟨by omega, ih hrest⟩
  | case2 => nofun

theorem hexBytes_le {ds : List Nat} (h : ∀ d ∈ ds, d < 16) : ∀ n ∈ hexBytes ds, n ≤ 255 := by
  unfold hexBytes
  split
  · intro n hn
    obtain ⟨d, hd, rfl⟩ := List.mem_map.mp hn
    have := h d hd
    omega
  · exact pairs_le h

/-- A byte is a part of 255, to three places as well. -/
theorem isPart_of_byte {n : Nat} (hn : n ≤ 255) :
    ((Binary64.ofNat n / Binary64.ofNat 255).roundTo 3).IsPart := by
  obtain ⟨m, e, hm, hvalue⟩ := Binary64.ofNat_exact (n := n) (by omega)
  obtain ⟨k, f, hk, hvalue'⟩ := Binary64.ofNat_exact (n := 255) (by norm_num)
  have hne : k ≠ 0 := by
    rintro rfl
    norm_num at hvalue'
  have hle : (m : ℚ) * 2 ^ e ≤ k * 2 ^ f := by
    rw [hvalue, hvalue']
    exact_mod_cast hn
  obtain ⟨m', e', hquotient, hpart⟩ := Binary64.div_le_one hne hle
  obtain ⟨m'', e'', hrounded, hpart'⟩ := Binary64.roundTo_le_one 3 hpart
  rw [hm, hk, hquotient, hrounded]
  exact Binary64.isPart_of_le_one hpart'

/-- A hexadecimal colour has bytes and an alpha between zero and one. -/
theorem ofHex_inRange {ds : List Nat} (h : ∀ d ∈ ds, d < 16) :
    (ofHex ds).HasBytes ∧ (ofHex ds).alpha.IsPart := by
  have hbytes := hexBytes_le h
  have hchannel : ∀ i, 0 ≤ ((hexBytes ds).getD i 0 : Int) ∧ ((hexBytes ds).getD i 0 : Int) ≤ 255 := by
    intro i
    have hbyte : (hexBytes ds).getD i 0 ≤ 255 := by
      rw [List.getD_eq_getElem?_getD]
      cases hi : (hexBytes ds)[i]? with
      | none => simp
      | some n => exact hbytes n (List.mem_of_getElem? hi)
    omega
  refine ⟨⟨hchannel 0, hchannel 1, hchannel 2⟩, ?_⟩
  unfold ofHex
  dsimp only
  cases hi : (hexBytes ds)[3]? with
  | none => exact ⟨1, value?_bounds.2.1, by norm_num, by norm_num⟩
  | some n => exact isPart_of_byte (hbytes n (List.mem_of_getElem? hi))

/-- The alpha of a call is what is not a number exactly if its fourth argument spells that. -/
theorem alpha_of_call {inner : List Char}
    (h : ofArguments text (Text.wordsBetween isSeparator (Text.strip inner)) = .ok c) :
    (c.alpha.IsPart ∨ c.alpha = .nan) ∧ (c.alpha = .nan ↔ ∃ r g b a,
      Text.wordsBetween isSeparator (Text.strip inner) = [r, g, b, a] ∧ Number.SpellsNan a) := by
  obtain ⟨-, ⟨hthree, halpha⟩ | ⟨r, g, b, a, x, hparts, hx, halpha⟩⟩ := ofArguments_cases h
  · have hone : opaqueAlpha ≠ .nan := by decide
    rw [halpha]
    refine ⟨Or.inl (alphaOf_isPart hone), ?_⟩
    rw [alphaOf_eq_nan]
    refine ⟨fun hnan => absurd hnan hone, fun hfour => ?_⟩
    obtain ⟨r, g, b, a, hparts, -⟩ := hfour
    rw [hparts] at hthree
    cases hthree
  · have hspells : Number.SpellsNan a ↔ x = .nan := by
      have hread := Number.readFloat?_eq_nan (s := String.ofList a)
      rw [String.toList_ofList, strip_word hparts (by simp), hx, Option.some.injEq] at hread
      exact hread.symm
    rw [halpha, alphaOf_eq_nan, hparts]
    refine ⟨?_, ?_⟩
    · by_cases hnan : x = .nan
      · exact Or.inr hnan
      · exact Or.inl (alphaOf_isPart hnan)
    · rw [← hspells]
      simp

theorem read_hasBytes (h : read text = .ok c) : c.HasBytes := by
  rcases read_cases h with rfl | ⟨ds, hds, rfl⟩ | ⟨inner, -, hcolor⟩
  · constructor <;> norm_num
  · exact (ofHex_inRange (hexDigits?_lt hds)).1
  · exact (ofArguments_cases hcolor).1

/-- The range of a colour that is read. The channels are bytes. The alpha lies between zero and one,
or it is what is not a number; it is that exactly where the text gives it as that. -/
theorem read_inRange (h : read text = .ok c) : c.HasBytes ∧ (c.alpha.IsPart ∨ c.alpha = .nan) ∧
    (c.alpha = .nan ↔ AlphaIsNan text) := by
  -- What the text gives decides only where it is a call.
  have hgiven : AlphaIsNan text → c.alpha = .nan := by
    intro hnan
    obtain ⟨inner, r, g, b, a, hcall, hparts, ha⟩ := hnan
    rw [read_of_isCall hcall] at h
    exact (alpha_of_call h).2.mpr ⟨r, g, b, a, hparts, ha⟩
  refine ⟨read_hasBytes h, ?_⟩
  rcases read_cases h with rfl | ⟨ds, hds, rfl⟩ | ⟨inner, hcall, hcolor⟩
  · have hpart : (Binary64.ofNat 0).IsPart := ⟨0, value?_bounds.1, by norm_num, by norm_num⟩
    exact ⟨Or.inl hpart, fun hnan => absurd hnan hpart.ne_nan, hgiven⟩
  · have hpart := (ofHex_inRange (hexDigits?_lt hds)).2
    exact ⟨Or.inl hpart, fun hnan => absurd hnan hpart.ne_nan, hgiven⟩
  · obtain ⟨hpart, hnan⟩ := alpha_of_call hcolor
    refine ⟨hpart, fun halpha => ?_, hgiven⟩
    obtain ⟨r, g, b, a, hparts, ha⟩ := hnan.mp halpha
    exact ⟨inner, r, g, b, a, hcall, hparts, ha⟩

/-- Numbers far out of range, an infinite alpha and separators of all kinds. -/
theorem read_inRange_overflowing : ∃ c, read "RGBA( 3_00 -1,/ 1e0 / +iNF)" = .ok c ∧ c.HasBytes ∧
    (c.alpha.IsPart ∨ c.alpha = .nan) ∧
    (c.alpha = .nan ↔ AlphaIsNan "RGBA( 3_00 -1,/ 1e0 / +iNF)") := by
  have h : read "RGBA( 3_00 -1,/ 1e0 / +iNF)" = .ok ⟨255, 0, 1, .ofNat 1⟩ := by decide +kernel
  exact ⟨_, h, read_inRange h⟩

/-- An alpha that is what is not a number passes the bounds, so not every colour that is read has an
alpha between zero and one. -/
theorem read_outOfRange : read "rgba(0, 0, 0, nan)" = .ok ⟨0, 0, 0, .nan⟩ ∧
    ¬ ∀ text c, read text = .ok c → c.HasBytes ∧ c.alpha.IsPart := by
  have hread : read "rgba(0, 0, 0, nan)" = .ok ⟨0, 0, 0, .nan⟩ := by decide +kernel
  refine ⟨hread, fun h => ?_⟩
  exact (h _ _ hread).2.ne_nan rfl

end DesignTokens.Color
