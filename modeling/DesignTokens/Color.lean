import DesignTokens.Failure
import DesignTokens.Number.Reading

/-! Colours of style sheets: hexadecimal notation, `rgb` notation and the word for transparency. A
colour is read into three channels and an alpha, and written in one canonical form. -/
namespace DesignTokens

/-- A colour: red, green and blue, and how opaque it is. -/
structure Color where
  red : Int
  green : Int
  blue : Int
  alpha : Binary64
  deriving DecidableEq

namespace Color

def opaqueAlpha : Binary64 := .ofNat 1

def hexDigits? : List Char → Option (List Nat)
  | '#' :: rest =>
    match rest.mapM (fun c => Json.hexNumber? [c]) with
    | some ds => if [3, 4, 6, 8].contains ds.length then some ds else none
    | none => none
  | _ => none

/-- The bytes of a hexadecimal colour; in the short notation each digit counts twice. -/
def hexBytes (ds : List Nat) : List Nat :=
  if ds.length < 5 then ds.map (17 * ·) else pairs ds
where
  pairs : List Nat → List Nat
    | a :: b :: rest => (16 * a + b) :: pairs rest
    | _ => []

def ofHex (ds : List Nat) : Color :=
  let bytes := hexBytes ds
  let channel (i : Nat) : Int := bytes.getD i 0
  let alpha := match bytes[3]? with
    | some n => (Binary64.ofNat n / Binary64.ofNat 255).roundTo 3
    | none => opaqueAlpha
  ⟨channel 0, channel 1, channel 2, alpha⟩

/-- The arguments of the `rgb` notation, white space around them taken off. -/
def arguments? (s : List Char) : Option (List Char) :=
  let name := (s.takeWhile (· != '(')).map Char.toLower
  if name = ['r', 'g', 'b'] ∨ name = ['r', 'g', 'b', 'a'] then
    match (s.drop (name.length + 1)).reverse with
    | ')' :: inner => if inner.contains ')' then none else some (Text.strip inner.reverse)
    | _ => none
  else none

def isSeparator (c : Char) : Bool := Text.isBlank c || c == ',' || c == '/'

def number? (part : List Char) : Except ValueFault Binary64 :=
  match Number.readFloat? (String.ofList part) with
  | some x => .ok x
  | none => .error (.notANumber (String.ofList part))

/-- A channel: the number brought into the range of a byte and rounded. -/
def channel? (part : List Char) : Except ValueFault Int := do
  let x ← number? part
  match (x.clamp (.ofNat 0) (.ofNat 255)).round? with
  | some n => return n
  | none => throw .channelNotANumber

/-- A colour of three channels and an alpha; without one it is opaque. -/
def ofArguments (text : String) : List (List Char) → Except ValueFault Color
  | [r, g, b] => do return ⟨← channel? r, ← channel? g, ← channel? b, alphaOf opaqueAlpha⟩
  | [r, g, b, a] => do
    let red ← channel? r
    let green ← channel? g
    let blue ← channel? b
    return ⟨red, green, blue, alphaOf (← number? a)⟩
  | _ => .error (.invalidColor text)
where
  /-- An alpha brought between zero and one. -/
  alphaOf (x : Binary64) : Binary64 := x.clamp (.ofNat 0) (.ofNat 1)

def read (text : String) : Except ValueFault Color :=
  let s := Text.strip text.toList
  if String.ofList (s.map Char.toLower) = "transparent" then .ok ⟨0, 0, 0, .ofNat 0⟩
  else match hexDigits? s with
    | some ds => .ok (ofHex ds)
    | none =>
      match arguments? s with
      | some inner => ofArguments text (Text.wordsBetween isSeparator inner)
      | none => .error (.unsupportedColor text)

def isColor : Value → Bool
  | .text s => (read s).isOk
  | _ => false

/-- A channel in two hexadecimal digits, more if it needs them. -/
def channelText (n : Int) : String :=
  let ds := Nat.toDigits 16 n.natAbs
  if n < 0 then "-" ++ String.ofList ds
  else String.ofList (List.replicate (2 - ds.length) '0' ++ ds)

/-- The canonical text: hexadecimal for an opaque colour, else with its alpha to three places. -/
def text (c : Color) : String :=
  if opaqueAlpha.le c.alpha then
    "#" ++ channelText c.red ++ channelText c.green ++ channelText c.blue
  else s!"rgba({c.red}, {c.green}, {c.blue}, {(c.alpha.roundTo 3).general})"

def withAlpha (c : Color) (amount : Binary64) : Color :=
  { c with alpha := amount.clamp (.ofNat 0) (.ofNat 1) }

end Color

end DesignTokens
