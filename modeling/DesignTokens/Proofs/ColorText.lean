import DesignTokens.Proofs.ColorRange

/-! The canonical text of an opaque colour: a number sign and two lower-case hexadecimal digits for
each channel. Reading it gives the colour back, so an opaque colour has one canonical text. -/
namespace DesignTokens

/-- Numbers that are the same have the same value. -/
theorem Binary64.value?_of_same {x y : Binary64} {q : ℚ} (hy : y.value? = some q)
    (h : x.same y = true) : x.value? = some q := by
  cases x with
  | nan => cases h
  | infinite s =>
    cases y with
    | finite => cases s <;> cases h
    | _ => cases hy
  | finite s m e =>
    rw [same, compare?_of_value (p := signedValue s m e) rfl hy] at h
    have heq : compare (signedValue s m e) q = .eq := by simpa using h
    rw [value?, compare_eq_iff_eq.mp heq]

namespace Color

section Digits

/-- The two digits of a byte. -/
def byteDigits (n : Nat) : List Nat := [n / 16, n % 16]

/-- The hexadecimal digits in lower case. -/
def lowerDigits : List Char := "0123456789abcdef".toList

variable {d n : Nat}

/-- Each digit is written in lower case, is no white space and is read back. -/
theorem digitChar_facts (h : d < 16) : d.digitChar ∈ lowerDigits ∧
    Text.isBlank d.digitChar = false ∧ Json.hexNumber?.hexValue? d.digitChar = some d := by
  revert d
  decide

/-- A byte is written in two digits. -/
theorem channelText_byte (h : n < 256) :
    channelText n = String.ofList ((byteDigits n).map Nat.digitChar) := by
  have hsign : ¬ (n : Int) < 0 := by omega
  rw [channelText, if_neg hsign, Int.natAbs_natCast]
  by_cases hsmall : n < 16
  · rw [Nat.toDigits_of_lt_base hsmall, byteDigits, Nat.div_eq_of_lt hsmall,
      Nat.mod_eq_of_lt hsmall]
    rfl
  · rw [Nat.toDigits_of_base_le (by norm_num) (by omega), Nat.toDigits_of_lt_base (by omega)]
    rfl

theorem hexDigits?_of_digits {ds : List Nat} (hds : ∀ d ∈ ds, d < 16)
    (hlength : ds.length ∈ [3, 4, 6, 8]) :
    hexDigits? ('#' :: ds.map Nat.digitChar) = some ds := by
  have hread : (ds.map Nat.digitChar).mapM (fun c => Json.hexNumber? [c]) = some ds := by
    clear hlength
    induction ds with
    | nil => rfl
    | cons d rest ih =>
      obtain ⟨hd, hrest⟩ := List.forall_mem_cons.mp hds
      rw [List.map_cons, List.mapM_cons, hexNumber?_singleton, (digitChar_facts hd).2.2, ih hrest]
      rfl
  rw [hexDigits?, hread]
  exact if_pos (by simpa using hlength)

end Digits

/-- A canonical text: a number sign and six lower-case hexadecimal digits. -/
def IsCanonical (s : String) : Prop :=
  ∃ digits : List Char, digits.length = 6 ∧ (∀ d ∈ digits, d ∈ lowerDigits) ∧
    s = String.ofList ('#' :: digits)

section Opaque

variable {text : String} {c : Color}

/-- The digits of the three channels. -/
def channelDigits (c : Color) : List Nat :=
  byteDigits c.red.toNat ++ byteDigits c.green.toNat ++ byteDigits c.blue.toNat

theorem HasBytes.channelDigits_lt (h : c.HasBytes) : ∀ d ∈ c.channelDigits, d < 16 := by
  obtain ⟨hred, hgreen, hblue⟩ := h
  simp [channelDigits, byteDigits]
  omega

/-- The text of an opaque colour is a number sign and the digits of its channels. -/
theorem HasBytes.text_eq (h : c.HasBytes) (halpha : opaqueAlpha.le c.alpha = true) :
    c.text = String.ofList ('#' :: c.channelDigits.map Nat.digitChar) := by
  obtain ⟨hred, hgreen, hblue⟩ := h
  have hchannel : ∀ {n : Int}, 0 ≤ n ∧ n ≤ 255 →
      channelText n = String.ofList ((byteDigits n.toNat).map Nat.digitChar) := by
    intro n hn
    rw [← channelText_byte (by omega), Int.toNat_of_nonneg hn.1]
  rw [Color.text, if_pos halpha, hchannel hred, hchannel hgreen, hchannel hblue]
  apply String.toList_injective
  simp [channelDigits]

/-- Two digits each make up the channels again. -/
theorem HasBytes.ofHex_channelDigits (h : c.HasBytes) :
    ofHex c.channelDigits = ⟨c.red, c.green, c.blue, opaqueAlpha⟩ := by
  obtain ⟨hred, hgreen, hblue⟩ := h
  have hbytes : hexBytes c.channelDigits = [c.red.toNat, c.green.toNat, c.blue.toNat] := by
    simp [hexBytes, hexBytes.pairs, channelDigits, byteDigits, Nat.div_add_mod]
  simp only [ofHex, hbytes, List.getD_cons_zero, List.getD_cons_succ, Int.toNat_of_nonneg hred.1,
    Int.toNat_of_nonneg hgreen.1, Int.toNat_of_nonneg hblue.1]
  rfl

/-- Reading the text of an opaque colour gives it back. -/
theorem HasBytes.read_text (h : c.HasBytes) (halpha : opaqueAlpha.le c.alpha = true) :
    read c.text = .ok ⟨c.red, c.green, c.blue, opaqueAlpha⟩ := by
  have hdigits := h.channelDigits_lt
  have hblank : ∀ d ∈ '#' :: c.channelDigits.map Nat.digitChar, Text.isBlank d = false := by
    refine List.forall_mem_cons.mpr ⟨by decide, fun d hd => ?_⟩
    obtain ⟨n, hn, rfl⟩ := List.mem_map.mp hd
    exact (digitChar_facts (hdigits n hn)).2.1
  rw [← h.ofHex_channelDigits]
  apply read_of_hexDigits?
  rw [h.text_eq halpha, String.toList_ofList, Text.strip_of_forall hblank]
  exact hexDigits?_of_digits hdigits (by simp [channelDigits, byteDigits])

/-- The canonical form of an opaque colour. However it is written, its text is a number sign and six
lower-case hexadecimal digits, reading that gives the colour back, and so the text of what is read is
the same text again. -/
theorem read_canonical (h : read text = .ok c) (halpha : c.alpha.same (.ofNat 1) = true) :
    IsCanonical c.text ∧ read c.text = .ok ⟨c.red, c.green, c.blue, .ofNat 1⟩ ∧
      (read c.text).map Color.text = .ok c.text := by
  have hbytes := read_hasBytes h
  have hone := value?_bounds.2.1
  have hopaque : opaqueAlpha.le c.alpha = true := by
    rw [opaqueAlpha, Binary64.le_iff_of_value hone (Binary64.value?_of_same hone halpha)]
  have hread := hbytes.read_text hopaque
  have htext := hbytes.text_eq hopaque
  refine ⟨⟨c.channelDigits.map Nat.digitChar, by simp [channelDigits, byteDigits], ?_, htext⟩,
    hread, ?_⟩
  · intro d hd
    obtain ⟨n, hn, rfl⟩ := List.mem_map.mp hd
    exact (digitChar_facts (hbytes.channelDigits_lt n hn)).1
  · have hself : opaqueAlpha.le opaqueAlpha = true := Binary64.le_refl (by decide)
    -- The alpha does not show in the text of an opaque colour.
    have hagain := HasBytes.text_eq (c := ⟨c.red, c.green, c.blue, opaqueAlpha⟩)
      ⟨hbytes.red, hbytes.green, hbytes.blue⟩ hself
    rw [hread, Except.map, hagain, htext]
    rfl

/-- Digits in both cases, white space around them and an alpha in the short notation. -/
theorem read_canonical_short : ∃ c, read " #AbCF\n" = .ok c ∧ c.alpha.same (.ofNat 1) = true ∧
    IsCanonical c.text ∧ read c.text = .ok ⟨c.red, c.green, c.blue, .ofNat 1⟩ ∧
      (read c.text).map Color.text = .ok c.text := by
  have h : read " #AbCF\n" = .ok ⟨170, 187, 204, .ofNat 1⟩ := by decide +kernel
  have halpha : (Binary64.ofNat 1).same (.ofNat 1) = true := by decide +kernel
  exact ⟨_, h, halpha, read_canonical h halpha⟩

end Opaque

end Color

end DesignTokens
