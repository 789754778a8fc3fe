import DesignTokens.Number.Binary64
import DesignTokens.Text.Blank
import DesignTokens.Text.Digit

/-! Reading numbers from text: integers and floating-point numbers in decimal digits of any script,
white space around them, single underscores between digits. -/
namespace DesignTokens.Number

open Text

/-- Takes the underscores out; each has to stand between two digits. -/
def withoutUnderscores? (afterDigit : Bool) : List Char → Option (List Char)
  | [] => some []
  | '_' :: c :: rest =>
    if afterDigit && (digitValue? c).isSome then
      (withoutUnderscores? true rest).map (c :: ·)
    else none
  | ['_'] => none
  | c :: rest => (withoutUnderscores? (digitValue? c).isSome rest).map (c :: ·)

def ofDigits (ds : List Nat) : Nat := ds.foldl (fun n d => 10 * n + d) 0

def leadingDigits : List Char → List Nat × List Char
  | [] => ([], [])
  | c :: rest =>
    match digitValue? c with
    | some d =>
      let (ds, after) := leadingDigits rest
      (d :: ds, after)
    | none => ([], c :: rest)

/-- Takes a sign off; true for a minus. -/
def leadingSign : List Char → Bool × List Char
  | '-' :: rest => (true, rest)
  | '+' :: rest => (false, rest)
  | s => (false, s)

/-- The most decimal digits that are read or written as an integer. -/
def maxDigits : Nat := 4300

def length (i : Int) : Nat := (Nat.toDigits 10 i.natAbs).length

def isWritable (i : Int) : Bool := length i ≤ maxDigits

/-- How many decimal digits a text begins with, behind its sign. -/
def digitCount (s : String) : Nat := (leadingDigits (leadingSign (strip s.toList)).2).1.length

def readInt? (s : String) : Option Int := do
  let cs ← withoutUnderscores? false (strip s.toList)
  let (negative, cs) := leadingSign cs
  match leadingDigits cs with
  | ([], _) => none
  | (ds, []) =>
    if maxDigits < ds.length then none
    else if negative then some (-ofDigits ds) else some (ofDigits ds)
  | _ => none

/-- The value of a digit in a base: a decimal digit of any script or a letter. -/
def digitIn? (base : Nat) (c : Char) : Option Nat :=
  let value? := match digitValue? c with
    | some d => some d
    | none =>
      let c := c.toLower
      if 'a' ≤ c ∧ c ≤ 'z' then some (c.toNat - 87) else none
  value?.filter (· < base)

/-- The mark that may stand before the digits in a base, by its letter. -/
def baseLetter? : Nat → Option Char
  | 2 => some 'b'
  | 8 => some 'o'
  | 16 => some 'x'
  | _ => none

def withoutBaseMark (base : Nat) : List Char → List Char
  | '0' :: c :: rest => if baseLetter? base = some c.toLower then rest else '0' :: c :: rest
  | s => s

/-- The integer that a text without underscores spells in a base; decimal digits are limited. -/
def readIntIn? (base : Nat) (s : String) : Option Int := do
  let (negative, cs) := leadingSign (strip s.toList)
  let cs := withoutBaseMark base cs
  if cs.isEmpty then none else
  let ds ← cs.mapM (digitIn? base)
  if base = 10 ∧ maxDigits < ds.length then none else
  let n := ds.foldl (fun n d => base * n + d) 0
  some (if negative then -n else n)

def readExponent? : List Char → Option Int
  | [] => some 0
  | c :: rest =>
    if c = 'e' ∨ c = 'E' then
      let (negative, rest) := leadingSign rest
      match leadingDigits rest with
      | ([], _) => none
      | (ds, []) => some (if negative then -ofDigits ds else ofDigits ds)
      | _ => none
    else none

/-- An unsigned decimal number: digits with an optional point and an optional exponent. -/
def readDecimal? (negative : Bool) (cs : List Char) : Option Binary64 := do
  let (whole, rest) := leadingDigits cs
  let (fraction, rest) :=
    match rest with
    | '.' :: rest => leadingDigits rest
    | _ => ([], rest)
  if whole.isEmpty && fraction.isEmpty then none else
  let e ← readExponent? rest
  some (.ofDecimal negative (ofDigits (whole ++ fraction)) (e - fraction.length))

/-- The floating-point number that a text spells; the words for infinity and for what is not a
number are known in any case. -/
def readFloat? (s : String) : Option Binary64 := do
  let cs ← withoutUnderscores? false (strip s.toList)
  let (negative, cs) := leadingSign cs
  match String.ofList (cs.map Char.toLower) with
  | "inf" => some (.infinite negative)
  | "infinity" => some (.infinite negative)
  | "nan" => some .nan
  | _ => readDecimal? negative cs

end DesignTokens.Number
