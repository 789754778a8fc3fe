import DesignTokens.Number.Binary64
import Mathlib

/-! Floating-point numbers as rational numbers. Finite numbers compare as their values do. Rounding
does not lead across an integer, and the number nearest to a part of one is a part of one. -/
namespace DesignTokens

section Integers

variable {num den k : Nat}

/-- Rounding a quotient does not lead above an integer that it is not above. -/
theorem roundHalfEven_le (h : num ≤ k * den) : roundHalfEven num den ≤ k := by
  rcases Nat.eq_zero_or_pos den with rfl | hden
  · obtain rfl : num = 0 := by simpa using h
    simp [roundHalfEven]
  have hquotient : num / den ≤ k := Nat.div_le_of_le_mul (by rwa [Nat.mul_comm])
  rcases hquotient.lt_or_eq with hlt | heq
  · unfold roundHalfEven
    dsimp only
    split_ifs <;> omega
  · -- The quotient is the integer itself, so nothing is left over.
    have hrest : num % den = 0 := by
      have hsum := Nat.div_add_mod num den
      rw [heq, Nat.mul_comm] at hsum
      omega
    simp [roundHalfEven, hrest, hden, heq]

theorem roundHalfEven_one (n : Nat) : roundHalfEven n 1 = n := by
  simp [roundHalfEven, Nat.mod_one]

end Integers

namespace Binary64

/-- A power of two as a fraction: what its exponent has above zero over what it has below. -/
theorem zpow_eq_toNat (e : Int) : (2 : ℚ) ^ e * 2 ^ (-e).toNat = 2 ^ e.toNat := by
  rw [← zpow_natCast, ← zpow_natCast, ← zpow_add₀ (by norm_num : (2 : ℚ) ≠ 0)]
  congr 1
  omega

/-- The value of a sign, a mantissa and an exponent. -/
def signedValue (negative : Bool) (mantissa : Nat) (exponent : Int) : ℚ :=
  (if negative then -(mantissa : ℚ) else mantissa) * 2 ^ exponent

/-- The rational number that a number is; only a finite number is one. -/
def value? : Binary64 → Option ℚ
  | .finite s m e => some (signedValue s m e)
  | _ => none

theorem signedAt_cast {e low : Int} (s : Bool) (m : Nat) (h : low ≤ e) :
    (signedAt s m e low : ℚ) = signedValue s m e * 2 ^ (-low) := by
  have hpow : (2 : ℚ) ^ (e - low).toNat = 2 ^ e * 2 ^ (-low) := by
    rw [← zpow_natCast, ← zpow_add₀ (by norm_num : (2 : ℚ) ≠ 0)]
    congr 1
    omega
  cases s <;> simp [signedAt, signedValue, hpow, mul_assoc]

/-- A number between zero and one. -/
def IsPart (x : Binary64) : Prop := ∃ q, x.value? = some q ∧ 0 ≤ q ∧ q ≤ 1

theorem IsPart.ne_nan {x : Binary64} (h : x.IsPart) : x ≠ .nan := by
  rintro rfl
  obtain ⟨q, hq, -⟩ := h
  cases hq

section Order

variable {x y low high : Binary64} {p q : ℚ}

theorem compare_of_cast_eq {a b : Int} {r : ℚ} (hr : 0 < r) (ha : (a : ℚ) = p * r)
    (hb : (b : ℚ) = q * r) : compare a b = compare p q := by
  calc compare a b = cmp (a : ℚ) b := by
        rw [Int.cast_strictMono.cmp_map_eq a b, cmp_eq_compare]
    _ = compare p q := by rw [ha, hb, cmp_mul_pos_right hr, cmp_eq_compare]

/-- Finite numbers compare as their values do. -/
theorem compare?_of_value (hx : x.value? = some p) (hy : y.value? = some q) :
    compare? x y = some (compare p q) := by
  cases x with
  | finite s m e =>
    cases y with
    | finite t n f =>
      obtain rfl : signedValue s m e = p := Option.some.inj hx
      obtain rfl : signedValue t n f = q := Option.some.inj hy
      have hpos : (0 : ℚ) < 2 ^ (-Min.min e f) := by positivity
      exact congrArg some (compare_of_cast_eq hpos (signedAt_cast s m (min_le_left e f))
        (signedAt_cast t n (min_le_right e f)))
    | _ => cases hy
  | _ => cases hx

theorem le_iff_of_value (hx : x.value? = some p) (hy : y.value? = some q) :
    x.le y = true ↔ p ≤ q := by
  rw [le, compare?_of_value hx hy, ← compare_le_iff_le]
  cases compare p q <;> simp

theorem le_refl (hx : x ≠ .nan) : x.le x = true := by
  cases x with
  | nan => exact absurd rfl hx
  | infinite s => simp [le, compare?]
  | finite s m e => simp [le, compare?]

/-- Of two numbers that can be compared one is at most the other. -/
theorem le_of_lt_eq_false (hx : x ≠ .nan) (hy : y ≠ .nan) (h : x.lt y = false) :
    y.le x = true := by
  cases x with
  | nan => exact absurd rfl hx
  | infinite s =>
    cases y with
    | nan => exact absurd rfl hy
    | infinite t =>
      revert h
      cases s <;> cases t <;> decide
    | finite t n f => cases s <;> simp [lt, le, compare?] at h ⊢
  | finite s m e =>
    cases y with
    | nan => exact absurd rfl hy
    | infinite t => cases t <;> simp [lt, le, compare?] at h ⊢
    | finite t n f =>
      rw [le_iff_of_value (p := signedValue t n f) (q := signedValue s m e) rfl rfl]
      by_contra hlt
      rw [lt, compare?_of_value (p := signedValue s m e) (q := signedValue t n f) rfl rfl,
        compare_lt_iff_lt.mpr (not_le.mp hlt)] at h
      cases h

/-- What is not a number is brought nowhere. -/
@[simp] theorem clamp_nan (low high : Binary64) : clamp .nan low high = .nan := by
  cases high <;> rfl

/-- A number that is brought between two bounds lies between them. -/
theorem clamp_between (hbounds : low.le high = true) (hx : x ≠ .nan) :
    low.le (x.clamp low high) = true ∧ (x.clamp low high).le high = true := by
  have hlow : low ≠ .nan := by
    rintro rfl
    cases hbounds
  have hhigh : high ≠ .nan := by
    rintro rfl
    cases low <;> cases hbounds
  -- The first bound is kept by the greater of two, the second one by the lesser.
  have hraised : low.le (x.max low) = true ∧ x.max low ≠ .nan := by
    rw [Binary64.max]
    split
    · exact ⟨le_refl hlow, hlow⟩
    · next hlt => exact ⟨le_of_lt_eq_false hx hlow (by simpa using hlt), hx⟩
  rw [clamp, Binary64.min]
  split
  · exact ⟨hbounds, le_refl hhigh⟩
  · next hlt => exact ⟨hraised.1, le_of_lt_eq_false hhigh hraised.2 (by simpa using hlt)⟩

/-- What lies between two finite numbers is finite, with a value between theirs. -/
theorem exists_value_of_between (hlow : low.value? = some p) (hhigh : high.value? = some q)
    (hl : low.le x = true) (hh : x.le high = true) :
    ∃ r, x.value? = some r ∧ p ≤ r ∧ r ≤ q := by
  cases x with
  | nan => cases low <;> cases hl
  | infinite s =>
    cases low with
    | finite =>
      cases high with
      | finite => cases s with
        | false => cases hh
        | true => cases hl
      | _ => cases hhigh
    | _ => cases hlow
  | finite s m e =>
    exact ⟨_, rfl, (le_iff_of_value hlow rfl).mp hl, (le_iff_of_value rfl hhigh).mp hh⟩

end Order

section Nearest

variable {num den n k : Nat} {x : Binary64} {q : ℚ}

theorem ratio_cast (m : Nat) (e : Int) :
    ((ratio m e).1 : ℚ) = m * 2 ^ e * (ratio m e).2 := by
  simp only [ratio, Nat.pow_eq, Nat.cast_mul, Nat.cast_pow, Nat.cast_ofNat]
  rw [mul_assoc, zpow_eq_toNat]

theorem ratio_den_pos (m : Nat) (e : Int) : 0 < (ratio m e).2 := by
  simp [ratio]

theorem round?_finite (s : Bool) (m : Nat) (e : Int) : (finite s m e).round? =
    some (if s then -(roundHalfEven (ratio m e).1 (ratio m e).2 : Int)
      else roundHalfEven (ratio m e).1 (ratio m e).2) := rfl

/-- A number between zero and a whole number has a nearest integer between them. -/
theorem round?_between (hx : x.value? = some q) (hlow : 0 ≤ q) (hhigh : q ≤ k) {i : Int}
    (h : x.round? = some i) : 0 ≤ i ∧ i ≤ k := by
  cases x with
  | finite s m e =>
    obtain rfl : signedValue s m e = q := Option.some.inj hx
    rw [round?_finite] at h
    obtain rfl := Option.some.inj h
    have hden : (0 : ℚ) < (ratio m e).2 := by exact_mod_cast ratio_den_pos m e
    have hpow : (0 : ℚ) < 2 ^ e := by positivity
    cases s with
    | false =>
      have hratio : (ratio m e).1 ≤ k * (ratio m e).2 := by
        have hscaled := mul_le_mul_of_nonneg_right hhigh hden.le
        rw [signedValue, if_neg Bool.false_ne_true, ← ratio_cast] at hscaled
        exact_mod_cast hscaled
      have hround := roundHalfEven_le hratio
      simp only [Bool.false_eq_true, if_false]
      omega
    | true =>
      -- What is negative and not below zero is a zero.
      have hzero : m = 0 := by
        rw [signedValue, if_pos rfl] at hlow
        have hneg := nonneg_of_mul_nonneg_left hlow hpow
        have hm : (m : ℚ) ≤ 0 := by linarith
        exact Nat.le_zero.mp (by exact_mod_cast hm)
      have hround : roundHalfEven (ratio m e).1 (ratio m e).2 ≤ 0 :=
        roundHalfEven_le (by simp [ratio, hzero])
      simp only [if_true]
      omega
  | _ => cases hx

/-- The nearest number below the largest exponent has the value of the rounded mantissa, also where
the mantissa is carried to the next exponent. -/
theorem ofRatio_value (negative : Bool) (hnum : num ≠ 0) (he : exponentOf num den < maxExponent) :
    ∃ m f, ofRatio negative num den = .finite negative m f ∧
      (m : ℚ) * 2 ^ f = roundHalfEven (scaled num den (exponentOf num den)).1
        (scaled num den (exponentOf num den)).2 * 2 ^ exponentOf num den := by
  rw [ofRatio, if_neg hnum]
  dsimp only
  generalize exponentOf num den = e at he ⊢
  generalize roundHalfEven (scaled num den e).1 (scaled num den e).2 = m
  by_cases hcarry : m = Nat.pow 2 53
  · rw [if_pos hcarry]
    dsimp only
    rw [if_neg (by omega)]
    refine ⟨_, _, rfl, ?_⟩
    rw [hcarry, zpow_add₀ (by norm_num)]
    push_cast
    ring
  · rw [if_neg hcarry]
    dsimp only
    rw [if_neg (by omega)]
    exact ⟨m, e, rfl, rfl⟩

theorem zpow_neg_toNat {e : Int} (he : e ≤ 0) : (2 : ℚ) ^ (-e).toNat * 2 ^ e = 1 := by
  have h := zpow_eq_toNat e
  rwa [Int.toNat_of_nonpos he, pow_zero, mul_comm] at h

theorem scaled_of_nonpos {e : Int} (he : e ≤ 0) :
    scaled num den e = (num * 2 ^ (-e).toNat, den) := by
  simp [scaled, Int.toNat_of_nonpos he]

/-- The exponent for a number of at most one is at most that of one. -/
theorem exponentOf_le_of_le (h : num ≤ den) : exponentOf num den ≤ -52 := by
  have hlog : num.log2 ≤ den.log2 := by
    rw [Nat.log2_eq_log_two, Nat.log2_eq_log_two]
    exact Nat.log_mono_right h
  unfold exponentOf minExponent
  dsimp only
  split <;> omega

/-- The number nearest to a part of one is a part of one. -/
theorem ofRatio_le_one (h : num ≤ den) : ∃ m e, ofRatio false num den = .finite false m e ∧
    (m : ℚ) * 2 ^ e ≤ 1 := by
  by_cases hnum : num = 0
  · rw [ofRatio, if_pos hnum]
    exact ⟨0, minExponent, rfl, by simp⟩
  have he := exponentOf_le_of_le h
  obtain ⟨m, f, hfinite, hvalue⟩ :=
    ofRatio_value false hnum (he.trans_lt (by decide : (-52 : Int) < maxExponent))
  refine ⟨m, f, hfinite, ?_⟩
  rw [hvalue, scaled_of_nonpos (by omega), ← zpow_neg_toNat (by omega : exponentOf num den ≤ 0)]
  have hround : roundHalfEven (num * 2 ^ (-exponentOf num den).toNat) den ≤
      2 ^ (-exponentOf num den).toNat :=
    roundHalfEven_le (by rw [Nat.mul_comm num]; exact Nat.mul_le_mul_left _ h)
  gcongr
  exact_mod_cast hround

theorem ofNat_eq_ofRatio (n : Nat) : ofNat n = ofRatio false n 1 := by
  have hsign : ¬ (n : Int) < 0 := by omega
  simp [ofNat, ofInt, ofScaled, ratio, hsign]

/-- The exponent for an integer of at most 53 bits moves its highest bit to the 53rd. -/
theorem exponentOf_one (hn : n ≠ 0) (hlog : n.log2 ≤ 52) :
    exponentOf n 1 = (n.log2 : Int) - 52 := by
  have hone : Nat.log2 1 = 0 := by decide
  have hexponent : (-((n.log2 : Int) - 52)).toNat = 52 - n.log2 := by omega
  have hnormal : ¬ n * 2 ^ (52 - n.log2) < Nat.pow 2 52 * 1 := by
    have hpow : 2 ^ n.log2 * 2 ^ (52 - n.log2) = Nat.pow 2 52 := by
      rw [← Nat.pow_add, Nat.add_sub_cancel' hlog]
    have hscaled := Nat.mul_le_mul_right (2 ^ (52 - n.log2)) (Nat.log2_self_le hn)
    omega
  rw [exponentOf, hone, Nat.cast_zero, sub_zero]
  dsimp only
  rw [scaled_of_nonpos (by omega), hexponent]
  dsimp only
  rw [if_neg hnormal]
  unfold minExponent
  omega

/-- Integers of at most 53 bits are exact. -/
theorem ofNat_exact (h : n < 2 ^ 53) : ∃ m e, ofNat n = .finite false m e ∧
    (m : ℚ) * 2 ^ e = n := by
  rw [ofNat_eq_ofRatio]
  by_cases hn : n = 0
  · rw [ofRatio, if_pos hn]
    exact ⟨0, minExponent, rfl, by simp [hn]⟩
  have hlog : n.log2 ≤ 52 := Nat.lt_succ_iff.mp ((Nat.log2_lt hn).mpr h)
  have he := exponentOf_one hn hlog
  have hnonpos : exponentOf n 1 ≤ 0 := by omega
  have hsmall : exponentOf n 1 < maxExponent := hnonpos.trans_lt (by decide)
  obtain ⟨m, f, hfinite, hvalue⟩ := ofRatio_value false hn hsmall
  refine ⟨m, f, hfinite, ?_⟩
  rw [hvalue, scaled_of_nonpos hnonpos, roundHalfEven_one]
  push_cast
  rw [mul_assoc, zpow_neg_toNat hnonpos, mul_one]

theorem isPart_of_le_one {m : Nat} {e : Int} (h : (m : ℚ) * 2 ^ e ≤ 1) :
    (finite false m e).IsPart := by
  refine ⟨m * 2 ^ e, ?_, by positivity, h⟩
  rw [value?, signedValue, if_neg Bool.false_ne_true]

theorem value?_ofNat (h : n < 2 ^ 53) : (ofNat n).value? = some (n : ℚ) := by
  obtain ⟨m, e, hfinite, hvalue⟩ := ofNat_exact h
  rw [hfinite, value?, signedValue, if_neg Bool.false_ne_true, hvalue]

/-- A quotient by at least as much is a part of one. -/
theorem div_le_one {m n : Nat} {e f : Int} (hn : n ≠ 0) (h : (m : ℚ) * 2 ^ e ≤ n * 2 ^ f) :
    ∃ m' e', finite false m e / finite false n f = .finite false m' e' ∧
      (m' : ℚ) * 2 ^ e' ≤ 1 := by
  have hdiv : finite false m e / finite false n f =
      ofRatio false (ratio m (e - f)).1 ((ratio m (e - f)).2 * n) := by
    simp [HDiv.hDiv, Div.div, div, hn]
  have hpow : (0 : ℚ) < 2 ^ f := by positivity
  have hquotient : (m : ℚ) * 2 ^ (e - f) ≤ n := by
    rw [zpow_sub₀ (by norm_num), ← mul_div_assoc, div_le_iff₀ hpow]
    exact h
  have hratio : (ratio m (e - f)).1 ≤ (ratio m (e - f)).2 * n := by
    have hscaled := mul_le_mul_of_nonneg_right hquotient (Nat.cast_nonneg (ratio m (e - f)).2)
    rw [← ratio_cast, mul_comm] at hscaled
    exact_mod_cast hscaled
  rw [hdiv]
  exact ofRatio_le_one hratio

/-- A part of one that is rounded to decimal places is a part of one. -/
theorem roundTo_le_one {m : Nat} {e : Int} (places : Nat) (h : (m : ℚ) * 2 ^ e ≤ 1) :
    ∃ m' e', (finite false m e).roundTo places = .finite false m' e' ∧ (m' : ℚ) * 2 ^ e' ≤ 1 := by
  have hden : (0 : ℚ) < (ratio m e).2 := by exact_mod_cast ratio_den_pos m e
  have hratio : (ratio m e).1 ≤ (ratio m e).2 := by
    have hscaled := mul_le_mul_of_nonneg_right h hden.le
    rw [← ratio_cast, one_mul] at hscaled
    exact_mod_cast hscaled
  exact ofRatio_le_one (roundHalfEven_le (by rw [Nat.mul_comm]; exact Nat.mul_le_mul_left _ hratio))

end Nearest

end Binary64

end DesignTokens
