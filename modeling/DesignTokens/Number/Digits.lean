import DesignTokens.Number.Binary64

/-! Decimal digits of floating-point numbers: the fewest that read back, so many significant ones,
and so many places. -/
namespace DesignTokens

/-- Decimal digits with the place of the point: the number is `0.d₁d₂…` times ten to `point`. -/
structure Digits where
  digits : List Char
  point : Int
  deriving DecidableEq

namespace Digits

/-- The digits of `n` times ten to `exponent`, without trailing zeros. -/
def ofNat (n : Nat) (exponent : Int) : Digits :=
  let ds := Nat.toDigits 10 n
  let kept := (ds.reverse.dropWhile (· == '0')).reverse
  ⟨if kept.isEmpty then ['0'] else kept, exponent + ds.length⟩

/-- The first `p` from `start` on with `num / den < 10 ^ p`, tried at most `fuel` times. -/
def pointFrom (num den : Nat) (start : Int) : Nat → Int
  | 0 => start
  | fuel + 1 =>
    if num * Nat.pow 10 (-start).toNat < den * Nat.pow 10 start.toNat then start
    else pointFrom num den (start + 1) fuel

/-- The place of the point of `num / den`: the least `p` with `num / den < 10 ^ p`. -/
def pointOf (num den : Nat) : Int :=
  let bits : Int := (num.log2 : Int) - den.log2 - 1
  pointFrom num den (bits * 30103 / 100000) 5

/-- `num / den` counted in units of ten to `unit`, as a fraction. -/
def inUnits (num den : Nat) (unit : Int) : Nat × Nat :=
  (num * Nat.pow 10 (-unit).toNat, den * Nat.pow 10 unit.toNat)

/-- The neighbours of `num / den` on the grid of `count` digits that read back as `x`, the nearer
one if both do, the even one if they are equally near. -/
def onGrid? (x : Binary64) (num den : Nat) (unit : Int) : Option Nat :=
  let (n, d) := inUnits num den unit
  let low := n / d
  let back (q : Nat) : Bool := Binary64.ofDecimal false q unit == x
  match back low, back (low + 1) with
  | true, true => some (roundHalfEven n d)
  | true, false => some low
  | false, true => some (low + 1)
  | false, false => none

/-- The first grid from `count` digits on that holds a decimal which reads back as `x`. -/
def shortestFrom (x : Binary64) (num den : Nat) (point : Int) (count : Nat) : Nat → Digits
  | 0 => ofNat (roundHalfEven (inUnits num den (point - 17)).1 (inUnits num den (point - 17)).2)
      (point - 17)
  | fuel + 1 =>
    let unit := point - count
    match onGrid? x num den unit with
    | some q => ofNat q unit
    | none => shortestFrom x num den point (count + 1) fuel

/-- The fewest digits that read back as the positive number, the nearest of those. -/
def shortest (mantissa : Nat) (exponent : Int) : Digits :=
  let (num, den) := Binary64.ratio mantissa exponent
  shortestFrom (.finite false mantissa exponent) num den (pointOf num den) 1 17

/-- So many significant digits of a positive number, trailing zeros kept. -/
def significant (count : Nat) (mantissa : Nat) (exponent : Int) : Digits :=
  let (num, den) := Binary64.ratio mantissa exponent
  let point := pointOf num den
  let (n, d) := inUnits num den (point - count)
  let q := roundHalfEven n d
  if q = Nat.pow 10 count then ⟨'1' :: List.replicate (count - 1) '0', point + 1⟩
  else ⟨Nat.toDigits 10 q, point⟩

/-- The digits before and after the point of a number with so many places. -/
def fixed (places : Nat) (mantissa : Nat) (exponent : Int) : List Char × List Char :=
  let (num, den) := Binary64.ratio mantissa exponent
  let q := roundHalfEven (num * Nat.pow 10 places) den
  let ds := Nat.toDigits 10 q
  let padded := List.replicate (places + 1 - ds.length) '0' ++ ds
  (padded.take (padded.length - places), padded.drop (padded.length - places))

end Digits

end DesignTokens
