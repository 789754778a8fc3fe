import DesignTokens.Number.Reading
import DesignTokens.Number.Written
import DesignTokens.Template.Platform
import DesignTokens.Value.Amount

/-! Formats of template slots: fill and alignment, sign, width, grouping, precision and a code for
the notation. -/
namespace DesignTokens

structure Format where
  fill : Char
  align : Char
  sign : Option Char
  coerceZero : Bool
  alternate : Bool
  width : Nat
  separator : Option Char
  precision : Option Nat
  code : Option Char

namespace Format

def isAlign (c : Char) : Bool := c == '<' || c == '>' || c == '=' || c == '^'

/-- A count in decimal digits at the start of a text; none if there are no digits. -/
def count? (s : List Char) : Except TemplateFault (Option Nat × List Char) :=
  match Number.leadingDigits s with
  | ([], _) => .ok (none, s)
  | (ds, rest) =>
    let n := Number.ofDigits ds
    if Nat.pow 2 63 ≤ n then .error .tooManyDigits else .ok (some n, rest)

def flag (c : Char) (s : List Char) : Bool × List Char :=
  match s with
  | d :: rest => if d = c then (true, rest) else (false, s)
  | [] => (false, s)

/-- The fill and the alignment at the start of a format, as far as they are given. -/
def fillAndAlign (s : List Char) : Option Char × Option Char × List Char :=
  match s with
  | a :: b :: rest =>
    if isAlign b then (some a, some b, rest)
    else if isAlign a then (none, some a, b :: rest)
    else (none, none, s)
  | [a] => if isAlign a then (none, some a, []) else (none, none, s)
  | [] => (none, none, s)

def separator? (s : List Char) : Except TemplateFault (Option Char × List Char) :=
  let (comma, s) := flag ',' s
  let (underscore, s) := flag '_' s
  if comma && underscore then .error .bothSeparators
  else if underscore && (flag ',' s).1 then .error .bothSeparators
  else .ok (if comma then some ',' else if underscore then some '_' else none, s)

/-- Whether digits in the notation of a code can be grouped by a separator. -/
def groups (separator : Char) (code : Option Char) : Bool :=
  match code with
  | none => true
  | some c =>
    ['d', 'e', 'f', 'g', 'E', 'G', '%', 'F'].contains c ||
      (separator == '_' && ['b', 'o', 'x', 'X'].contains c)

/-- Reads a format of values of a kind that are aligned by `usual` and written in the notation
`usualCode` if nothing else is said. -/
def read (kind : String) (usual : Char) (usualCode : Option Char) (text : List Char) :
    Except TemplateFault Format := do
  let (fill, align, s) := fillAndAlign text
  let (sign, s) : Option Char × List Char := match s with
    | c :: rest => if c = ' ' ∨ c = '+' ∨ c = '-' then (some c, rest) else (none, s)
    | [] => (none, s)
  let (coerceZero, s) := flag 'z' s
  let (alternate, s) := flag '#' s
  let (zero, s) := if fill.isNone then flag '0' s else (false, s)
  let (width, s) ← count? s
  let (separator, s) ← separator? s
  let (precision, s) ← match s with
    | '.' :: rest => do
      let (n, rest) ← count? rest
      if n.isNone then throw .precisionMissing
      pure (n, rest)
    | _ => pure (none, s)
  let code ← match s with
    | [] => pure usualCode
    | [c] => pure (some c)
    | _ => throw (.invalidFormat (String.ofList text) kind)
  if let some sep := separator then
    if !groups sep code then throw (.separatorWith sep (code.getD '\x00'))
  let zeroAlign := if zero && usual == '>' then '=' else usual
  return ⟨fill.getD (if zero then '0' else ' '), align.getD zeroAlign, sign, coerceZero, alternate,
    width.getD 0, separator, precision, code⟩

/-- The blanks before and after a text of `length` characters. -/
def margins (f : Format) (length : Nat) : Nat × Nat :=
  let n := f.width - length
  if f.align = '>' then (n, 0) else if f.align = '^' then (n / 2, n - n / 2) else (0, n)

def filling (f : Format) (n : Nat) : List Char := List.replicate n f.fill

/-- A text, cut to the precision and filled up to the width. -/
def text (f : Format) (s : List Char) : Except TemplateFault (List Char) :=
  if f.code ≠ some 's' then .error (.unknownCode (f.code.getD 's') "str")
  else if f.sign = some ' ' then .error .spaceInText
  else if f.sign.isSome then .error .signInText
  else if f.coerceZero then .error (.zeroCoercion .text)
  else if f.alternate then .error .alternateInText
  else if f.align = '=' then .error .equalsInText
  else
    let s := match f.precision with
      | some n => s.take n
      | none => s
    let (before, after) := f.margins s.length
    .ok (f.filling before ++ s ++ f.filling after)

/-- Digits from the last one on, in groups with separators between them, and zeros behind until
`least` characters are reached. -/
def groupsFrom (separator : Char) (size : Nat) (first : Bool) (ds : List Char) (least : Int) :
    Nat → List Char
  | 0 => ds
  | fuel + 1 =>
    let n := min size (max (max ds.length least.toNat) 1)
    let taken := ds.take n
    let block := (if first then [] else [separator]) ++ taken ++
      List.replicate (n - taken.length) '0'
    let rest := ds.drop n
    if rest.isEmpty ∧ least - n ≤ 0 then block
    else block ++ groupsFrom separator size false rest (least - n - 1) fuel

/-- Digits with separators, and zeros in front until `least` characters are reached. -/
def grouped (f : Format) (ds : List Char) (least : Nat) : List Char :=
  match f.separator with
  | none => List.replicate (least - ds.length) '0' ++ ds
  | some sep =>
    let size := if (f.code.map fun c => ['b', 'o', 'x', 'X'].contains c) = some true then 4 else 3
    (groupsFrom sep size true ds.reverse least (ds.length + least + 1)).reverse

def signText (f : Format) (negative : Bool) : List Char :=
  if negative then ['-'] else
  match f.sign with
  | some '+' => ['+']
  | some ' ' => [' ']
  | _ => []

/-- A number put together from its sign, the mark of its base, its digits and what follows. -/
def number (f : Format) (negative : Bool) (mark digits tail : List Char) : List Char :=
  let sign := f.signText negative
  let fixed := sign.length + mark.length + tail.length
  let least := if f.fill = '0' ∧ f.align = '=' then f.width - fixed else 0
  let body := if digits.isEmpty then [] else f.grouped digits least
  let length := fixed + body.length
  if f.align = '=' then
    sign ++ mark ++ f.filling (f.width - length) ++ body ++ tail
  else
    let (before, after) := f.margins length
    f.filling before ++ sign ++ mark ++ body ++ tail ++ f.filling after

/-- The digits of a number that is not negative, in the notation of a code, and what follows them
from the point on. -/
def floatParts (f : Format) (code : Option Char) (mantissa : Nat) (exponent : Int) :
    List Char × List Char :=
  let withPoint (fraction : List Char) :=
    if fraction.isEmpty ∧ !f.alternate then [] else '.' :: fraction
  let precision := f.precision.getD 6
  match code with
  | some 'f' =>
    let (whole, fraction) := Digits.fixed precision mantissa exponent
    (whole, withPoint fraction)
  | some 'e' =>
    let d := Binary64.significantDigits (precision + 1) mantissa exponent
    let (whole, fraction, e) := Binary64.scientific d
    (whole, withPoint fraction ++ 'e' :: Binary64.exponentText e)
  | some _ =>
    let p := max precision 1
    let (whole, fraction, tail) := Binary64.generalText p p f.alternate mantissa exponent
    (whole, withPoint fraction ++ tail)
  | none =>
    match f.precision with
    | none =>
      let s := Binary64.shortestText mantissa exponent
      let tail := s.dropWhile Char.isDigit
      let point := if f.alternate && tail.head? != some '.' then ['.'] else []
      (s.takeWhile Char.isDigit, point ++ tail)
    | some n =>
      let p := max n 1
      let (whole, fraction, tail) := Binary64.generalText p (p - 1) f.alternate mantissa exponent
      let fraction := if fraction.isEmpty ∧ tail.isEmpty then ['0'] else fraction
      (whole, withPoint fraction ++ tail)

/-- The codes that write floating-point numbers, each with its plain form and whether it writes
capitals. -/
def floatCode? : Option Char → Option (Option Char × Bool)
  | none => some (none, false)
  | some 'e' => some (some 'e', false)
  | some 'E' => some (some 'e', true)
  | some 'f' => some (some 'f', false)
  | some 'F' => some (some 'f', true)
  | some 'g' => some (some 'g', false)
  | some 'G' => some (some 'g', true)
  | some 'n' => some (some 'g', false)
  | some '%' => some (some 'f', false)
  | _ => none

def maxPrecision : Nat := Nat.pow 2 31 - 1

/-- A floating-point number; percentages are a hundred times the number. -/
def float (f : Format) (kind : String) (x : Binary64) : Except TemplateFault (List Char) :=
  match floatCode? f.code with
  | none => .error (.unknownCode (f.code.getD ' ') kind)
  | some (code, capitals) =>
    if maxPrecision < f.precision.getD 0 then .error .precisionTooBig else
    let percent := f.code == some '%'
    let x := if percent then x * .ofNat 100 else x
    let (negative, digits, tail) : Bool × List Char × List Char := match x with
      | .nan => (false, [], ['n', 'a', 'n'])
      | .infinite s => (s, [], ['i', 'n', 'f'])
      | .finite s m e =>
        let (digits, tail) := f.floatParts code m e
        let mantissa := tail.takeWhile (· != 'e')
        let isZero := (digits ++ mantissa).all fun c => c == '0' || c == '.'
        (s && !(f.coerceZero && isZero), digits, tail)
    let tail := if capitals then tail.map Char.toUpper else tail
    .ok (f.number negative [] digits (tail ++ if percent then ['%'] else []))

/-- The base of an integer code and the mark that the alternate form puts in front. -/
def base? : Option Char → Option (Nat × List Char)
  | some 'd' => some (10, [])
  | some 'n' => some (10, [])
  | some 'b' => some (2, ['0', 'b'])
  | some 'o' => some (8, ['0', 'o'])
  | some 'x' => some (16, ['0', 'x'])
  | some 'X' => some (16, ['0', 'X'])
  | _ => none

def lift {α : Type} : Except TemplateFault α → Except Failure α
  | .ok a => .ok a
  | .error e => .error (.value (.template e))

/-- An integer: in a base, as a character, or as a floating-point number. Only decimal digits are
limited. -/
def integer (f : Format) (kind : String) (i : Int) : Except Failure (List Char) :=
  match base? f.code with
  | some (base, mark) =>
    if f.precision.isSome then lift (.error .precisionInInteger)
    else if f.coerceZero then lift (.error (.zeroCoercion .integer))
    else if base = 10 ∧ !Number.isWritable i then .error (.value .unwritableInteger)
    else
      let ds := Nat.toDigits base i.natAbs
      let ds := if f.code = some 'X' then ds.map Char.toUpper else ds
      .ok (f.number (i < 0) (if f.alternate then mark else []) ds [])
  | none =>
    if f.code = some 'c' then
      if f.precision.isSome then lift (.error .precisionInInteger)
      else if f.coerceZero then lift (.error (.zeroCoercion .integer))
      else if f.sign.isSome then lift (.error .signWithCharacter)
      else if f.alternate then lift (.error .alternateWithCharacter)
      else if i < 0 ∨ 0x110000 ≤ i then .error (.fault .overflow)
      else .ok (f.number false [] [] [Char.ofNat i.toNat])
    else if (floatCode? f.code).isSome then
      match Value.amountOfInt i with
      | .ok x => lift (f.float kind x)
      | .error e => .error e
    else lift (.error (.unknownCode (f.code.getD ' ') kind))

/-- A value in a format. Texts and numbers take formats of their own, dates those of the platform. -/
def apply [Platform] (format : List Char) (v : Value) : Except Failure (List Char) :=
  if format.isEmpty then v.plain?.map String.toList else
  match v with
  | .text s => lift do (← read "str" '<' (some 's') format).text s.toList
  | .int i => do (← lift (read "int" '>' (some 'd') format)).integer "int" i
  | .bool b => do (← lift (read "bool" '>' (some 'd') format)).integer "bool" b.toInt
  | .float x => lift do (← read "float" '>' none format).float "float" x
  | .date _ | .time _ | .moment _ => (Platform.dateText v format).mapError .fault
  | v => .error (.kind (.noFormat v.kind))

end Format

end DesignTokens
