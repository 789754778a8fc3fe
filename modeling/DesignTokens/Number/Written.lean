import DesignTokens.Number.Digits

/-! The written forms of floating-point numbers: the shortest one that reads back, and the general,
exponent and fixed forms with a given precision. -/
namespace DesignTokens.Binary64

def exponentText (e : Int) : List Char :=
  let ds := Nat.toDigits 10 e.natAbs
  (if e < 0 then '-' else '+') :: (if ds.length < 2 then '0' :: ds else ds)

/-- Digits with the point in its place, zeros filling the gaps; no point after an integer. -/
def positional (d : Digits) : List Char × List Char :=
  if d.point ≤ 0 then (['0'], List.replicate (-d.point).toNat '0' ++ d.digits)
  else
    let n := d.point.toNat
    (d.digits.take n ++ List.replicate (n - d.digits.length) '0', d.digits.drop n)

/-- Digits with the point after the first one, and the exponent. -/
def scientific (d : Digits) : List Char × List Char × Int :=
  (d.digits.take 1, d.digits.drop 1, d.point - 1)

def joinPoint (whole fraction : List Char) : List Char :=
  if fraction.isEmpty then whole else whole ++ '.' :: fraction

def trimZeros (ds : List Char) : List Char := (ds.reverse.dropWhile (· == '0')).reverse

/-- A finite positive number in its shortest form: positional from `0.0001` up to sixteen digits
before the point, and with at least one place. -/
def shortestText (mantissa : Nat) (exponent : Int) : List Char :=
  if mantissa = 0 then ['0', '.', '0'] else
  let d := Digits.shortest mantissa exponent
  if -4 < d.point ∧ d.point ≤ 16 then
    let (whole, fraction) := positional d
    joinPoint whole (if fraction.isEmpty then ['0'] else fraction)
  else
    let (whole, fraction, e) := scientific d
    joinPoint whole fraction ++ 'e' :: exponentText e

def written : Binary64 → String
  | .nan => "nan"
  | .infinite s => if s then "-inf" else "inf"
  | .finite s m e => String.ofList ((if s then ['-'] else []) ++ shortestText m e)

/-- So many significant digits of a number that is not negative. -/
def significantDigits (count mantissa : Nat) (exponent : Int) : Digits :=
  if mantissa = 0 then ⟨List.replicate count '0', 1⟩ else Digits.significant count mantissa exponent

/-- The general form of a number that is not negative: so many significant digits, without trailing
zeros unless they are kept. Digits stand around the point from `0.0001` up to `limit` digits before
the point; beyond that the exponent is written out. -/
def generalText (precision limit : Nat) (keepZeros : Bool) (mantissa : Nat) (exponent : Int) :
    List Char × List Char × List Char :=
  let trim (ds : List Char) := if keepZeros then ds else trimZeros ds
  let d := significantDigits precision mantissa exponent
  if -4 < d.point ∧ d.point ≤ limit then
    let (whole, fraction) := positional d
    (whole, trim fraction, [])
  else
    let (whole, fraction, e) := scientific d
    (whole, trim fraction, 'e' :: exponentText e)

/-- The number with at most six significant digits. -/
def general : Binary64 → String
  | .nan => "nan"
  | .infinite s => if s then "-inf" else "inf"
  | .finite s m e =>
    let (whole, fraction, tail) := generalText 6 6 false m e
    String.ofList ((if s then ['-'] else []) ++ joinPoint whole fraction ++ tail)

end DesignTokens.Binary64
