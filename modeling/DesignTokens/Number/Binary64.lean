/-! Binary floating-point numbers with 53 significant bits, held as exact data. Every operation is
the exact result rounded once to the nearest number, a tie going to the even neighbour. -/
namespace DesignTokens

/-- A floating-point number. A finite one is its mantissa times two to its exponent; zero keeps
its sign. -/
inductive Binary64 where
  | nan
  | infinite (negative : Bool)
  | finite (negative : Bool) (mantissa : Nat) (exponent : Int)
  deriving DecidableEq, Inhabited

/-- The quotient rounded to the nearest integer, a half going to the even neighbour. -/
def roundHalfEven (num den : Nat) : Nat :=
  let q := num / den
  let r := num % den
  if 2 * r < den then q else if den < 2 * r then q + 1 else q + q % 2

namespace Binary64

def minExponent : Int := -1074

def maxExponent : Int := 971

def zero (negative : Bool) : Binary64 := .finite negative 0 minExponent

def scaled (num den : Nat) (e : Int) : Nat × Nat :=
  (num * Nat.pow 2 (-e).toNat, den * Nat.pow 2 e.toNat)

/-- The exponent at which `num / den` has a mantissa of 53 bits, but no less than the smallest. -/
def exponentOf (num den : Nat) : Int :=
  let guess : Int := (num.log2 : Int) - den.log2 - 52
  let (n, d) := scaled num den guess
  max (if n < Nat.pow 2 52 * d then guess - 1 else guess) minExponent

/-- The number nearest to `num / den`; beyond the largest number it is infinite. -/
def ofRatio (negative : Bool) (num den : Nat) : Binary64 :=
  if num = 0 then zero negative else
  let e := exponentOf num den
  let (n, d) := scaled num den e
  let m := roundHalfEven n d
  let (m, e) := if m = Nat.pow 2 53 then (Nat.pow 2 52, e + 1) else (m, e)
  if maxExponent < e then .infinite negative else .finite negative m e

def ratio (mantissa : Nat) (exponent : Int) : Nat × Nat :=
  (mantissa * Nat.pow 2 exponent.toNat, Nat.pow 2 (-exponent).toNat)

def ofScaled (i : Int) (e : Int) : Binary64 :=
  let (num, den) := ratio i.natAbs e
  ofRatio (i < 0) num den

/-- The number nearest to `digits` times ten to `exponent`. Magnitudes far outside the range are
settled without computing the power. -/
def ofDecimal (negative : Bool) (digits : Nat) (exponent : Int) : Binary64 :=
  if digits = 0 then zero negative else
  let top : Int := exponent + (Nat.toDigits 10 digits).length
  if 400 < top then .infinite negative
  else if top < -400 then zero negative
  else ofRatio negative (digits * Nat.pow 10 exponent.toNat) (Nat.pow 10 (-exponent).toNat)

def ofInt (i : Int) : Binary64 := ofScaled i 0

def ofNat (n : Nat) : Binary64 := ofInt n

/-- The signed mantissa of a finite number, brought to the exponent `e`. -/
def signedAt (negative : Bool) (mantissa : Nat) (exponent e : Int) : Int :=
  let m : Int := Int.ofNat (mantissa * Nat.pow 2 (exponent - e).toNat)
  if negative then -m else m

def neg : Binary64 → Binary64
  | .nan => .nan
  | .infinite s => .infinite (!s)
  | .finite s m e => .finite (!s) m e

/-- The sum. Opposite infinities have none; an exact zero is positive unless both terms are
negative. -/
def add : Binary64 → Binary64 → Binary64
  | .nan, _ => .nan
  | _, .nan => .nan
  | .infinite s, .infinite t => if s = t then .infinite s else .nan
  | .infinite s, .finite .. => .infinite s
  | .finite .., .infinite t => .infinite t
  | .finite s m e, .finite t n f =>
    let low := min e f
    let i := signedAt s m e low + signedAt t n f low
    if i = 0 then zero (s && t) else ofScaled i low

def sub (x y : Binary64) : Binary64 := add x (neg y)

/-- The product. Zero times infinity has none. -/
def mul : Binary64 → Binary64 → Binary64
  | .nan, _ => .nan
  | _, .nan => .nan
  | .infinite s, .infinite t => .infinite (s != t)
  | .infinite s, .finite t n _ => if n = 0 then .nan else .infinite (s != t)
  | .finite s m _, .infinite t => if m = 0 then .nan else .infinite (s != t)
  | .finite s m e, .finite t n f =>
    let (num, den) := ratio (m * n) (e + f)
    ofRatio (s != t) num den

/-- The quotient. A number over zero is infinite, zero over zero has no value. -/
def div : Binary64 → Binary64 → Binary64
  | .nan, _ => .nan
  | _, .nan => .nan
  | .infinite _, .infinite _ => .nan
  | .infinite s, .finite t _ _ => .infinite (s != t)
  | .finite s _ _, .infinite t => zero (s != t)
  | .finite s m e, .finite t n f =>
    if n = 0 then (if m = 0 then .nan else .infinite (s != t)) else
    let (a, b) := ratio m (e - f)
    ofRatio (s != t) a (b * n)

instance : Neg Binary64 := ⟨neg⟩

instance : Add Binary64 := ⟨add⟩

instance : Sub Binary64 := ⟨sub⟩

instance : Mul Binary64 := ⟨mul⟩

instance : Div Binary64 := ⟨div⟩

/-- The order of two numbers; none if one of them is not a number. Zeros of both signs are
equal. -/
def compare? : Binary64 → Binary64 → Option Ordering
  | .nan, _ => none
  | _, .nan => none
  | .infinite s, .infinite t => some (compare t.toNat s.toNat)
  | .infinite s, .finite .. => some (if s then .lt else .gt)
  | .finite .., .infinite t => some (if t then .gt else .lt)
  | .finite s m e, .finite t n f =>
    let low := min e f
    some (compare (signedAt s m e low) (signedAt t n f low))

/-- Whether the first number is below the second; never so for what is not a number. -/
def lt (x y : Binary64) : Bool := compare? x y == some .lt

/-- Whether the first number is at most the second. -/
def le (x y : Binary64) : Bool := compare? x y == some .lt || compare? x y == some .eq

def same (x y : Binary64) : Bool := compare? x y == some .eq

/-- The greater number; the first one where neither is greater. -/
def max (x y : Binary64) : Binary64 := if lt x y then y else x

/-- The lesser number; the first one where neither is lesser. -/
def min (x y : Binary64) : Binary64 := if lt y x then y else x

/-- The number brought between two bounds. What is not a number stays so. -/
def clamp (x low high : Binary64) : Binary64 := (x.max low).min high

/-- The part of a number above the next lower integer, rounded; zero is positive. -/
def fract : Binary64 → Binary64
  | .finite s m e =>
    let r := if 0 ≤ e then 0 else m % Nat.pow 2 (-e).toNat
    if r = 0 then zero false
    else if s then ofScaled (-r) e + ofNat 1 else ofScaled r e
  | _ => .nan

/-- The nearest integer, a half going to the even neighbour; only a finite number has one. -/
def round? : Binary64 → Option Int
  | .finite s m e =>
    let (num, den) := ratio m e
    let n : Int := roundHalfEven num den
    some (if s then -n else n)
  | _ => none

/-- The number rounded to so many decimal places, a half going to the even digit. -/
def roundTo (places : Nat) : Binary64 → Binary64
  | .finite s m e =>
    let (num, den) := ratio m e
    ofRatio s (roundHalfEven (num * Nat.pow 10 places) den) (Nat.pow 10 places)
  | x => x

def isZero : Binary64 → Bool
  | .finite _ m _ => m == 0
  | _ => false

end Binary64

end DesignTokens
