import DesignTokens.Number.Reading
import DesignTokens.Value

/-! Reading JSON. Beyond the standard it knows infinities and what is not a number; a repeated key
keeps its place and takes the last value. An integer of too many digits is JSON and yet cannot be
read. How deep a text may nest is not limited, and half of a surrogate pair, which no text of Unicode
characters can hold, is read as the character that stands for others. -/
namespace DesignTokens

/-- Why a text is not JSON. Only a missing colon is located: line and column count from one, the
offset from zero. -/
inductive JsonFault where
  | malformed
  | colonMissing (line column offset : Nat)
  deriving DecidableEq

namespace Json

/-- A failure while reading, with the number of characters that are left where a colon misses. -/
inductive Stop where
  | malformed
  | colonMissing (left : Nat)
  | overlong (digits : Nat)

/-- Why a text cannot be read: it is no JSON, or it holds an integer of too many digits. -/
inductive Refusal where
  | invalid (fault : JsonFault)
  | overlong (digits : Nat)
  deriving DecidableEq

def isSpace (c : Char) : Bool := c == ' ' || c == '\t' || c == '\n' || c == '\r'

/-- The text from its first token on. -/
def skipSpace (s : List Char) : List Char := s.dropWhile isSpace

def hexNumber? : List Char → Option Nat
  | cs => cs.foldlM (fun n c => (hexValue? c).map (16 * n + ·)) 0
where
  hexValue? (c : Char) : Option Nat :=
    if '0' ≤ c ∧ c ≤ '9' then some (c.toNat - 48)
    else if 'a' ≤ c ∧ c ≤ 'f' then some (c.toNat - 87)
    else if 'A' ≤ c ∧ c ≤ 'F' then some (c.toNat - 55)
    else none

def escaped? : Char → Option Char
  | '"' => some '"'
  | '\\' => some '\\'
  | '/' => some '/'
  | 'b' => some '\x08'
  | 'f' => some '\x0c'
  | 'n' => some '\n'
  | 'r' => some '\r'
  | 't' => some '\t'
  | _ => none

/-- The units of a string after its opening quote, up to the closing one, and what follows. A unit
is a code point or a four-digit escape. -/
def stringUnits : List Char → Option (List Nat × List Char)
  | [] => none
  | '"' :: rest => some ([], rest)
  | '\\' :: 'u' :: a :: b :: c :: d :: rest =>
    match hexNumber? [a, b, c, d], stringUnits rest with
    | some n, some (units, after) => some (n :: units, after)
    | _, _ => none
  | '\\' :: e :: rest =>
    match escaped? e, stringUnits rest with
    | some c, some (units, after) => some (c.toNat :: units, after)
    | _, _ => none
  | c :: rest =>
    if c.toNat < 32 then none
    else (stringUnits rest).map fun (units, after) => (c.toNat :: units, after)

/-- The text of units; a high and a low surrogate in a row are one character. -/
def joinUnits : List Nat → List Char
  | high :: low :: rest =>
    if 0xd800 ≤ high ∧ high < 0xdc00 ∧ 0xdc00 ≤ low ∧ low < 0xe000 then
      Char.ofNat (0x10000 + (high - 0xd800) * 0x400 + (low - 0xdc00)) :: joinUnits rest
    else unit high :: joinUnits (low :: rest)
  | [n] => [unit n]
  | [] => []
where
  /-- A unit by itself; half a pair is shown as the replacement character. -/
  unit (n : Nat) : Char := if 0xd800 ≤ n ∧ n < 0xe000 then '\ufffd' else Char.ofNat n

def string? (s : List Char) : Option (String × List Char) :=
  (stringUnits s).map fun (units, rest) => (String.ofList (joinUnits units), rest)

def spanDigits (s : List Char) : List Char × List Char :=
  (s.takeWhile Char.isDigit, s.dropWhile Char.isDigit)

/-- The integer part of a number: one zero, or digits that start with none. -/
def integerPart? (s : List Char) : Option (List Char × List Char) :=
  match s with
  | '0' :: rest => some (['0'], rest)
  | _ =>
    match spanDigits s with
    | ([], _) => none
    | found => some found

/-- The fraction of a number, without its point; a point needs a digit behind it. -/
def fractionPart (s : List Char) : Option (List Char) × List Char :=
  match s with
  | '.' :: rest =>
    match spanDigits rest with
    | ([], _) => (none, s)
    | (ds, after) => (some ds, after)
  | _ => (none, s)

/-- The exponent of a number; a letter without digits is left alone. -/
def exponentPart (s : List Char) : Option Int × List Char :=
  match s with
  | c :: rest =>
    if c = 'e' ∨ c = 'E' then
      let (negative, digits) := Number.leadingSign rest
      match spanDigits digits with
      | ([], _) => (none, s)
      | (ds, after) =>
        let n : Int := natOf ds
        (some (if negative then -n else n), after)
    else (none, s)
  | [] => (none, s)
where
  natOf (ds : List Char) : Nat := Number.ofDigits (ds.map fun c => c.toNat - 48)

/-- A number: an integer, or a floating-point number if it has a fraction or an exponent. -/
def number? (s : List Char) : Option (Value × List Char) := do
  let (negative, s) : Bool × List Char := match s with
    | '-' :: rest => (true, rest)
    | _ => (false, s)
  let (whole, s) ← integerPart? s
  let (fraction, s) := fractionPart s
  let (exponent, s) := exponentPart s
  let digits := whole ++ fraction.getD []
  let n := exponentPart.natOf digits
  if fraction.isNone && exponent.isNone then
    some (.int (if negative then -(n : Int) else n), s)
  else
    some (.float (.ofDecimal negative n (exponent.getD 0 - (fraction.getD []).length)), s)

def words : List (String × Value) :=
  [("null", .null), ("true", .bool true), ("false", .bool false), ("NaN", .float .nan),
    ("Infinity", .float (.infinite false)), ("-Infinity", .float (.infinite true))]

def scalar? (s : List Char) : Option (Value × List Char) :=
  match words.find? fun (w, _) => w.toList.isPrefixOf s with
  | some (w, v) => some (v, s.drop w.length)
  | none => number? s

mutual

def value (fuel : Nat) (s : List Char) : Except Stop (Value × List Char) :=
  match fuel with
  | 0 => .error .malformed
  | fuel + 1 =>
    match s with
    | '"' :: rest =>
      match string? rest with
      | some (t, rest) => .ok (.text t, rest)
      | none => .error .malformed
    | '[' :: rest =>
      match skipSpace rest with
      | ']' :: rest => .ok (.list [], rest)
      | rest => do
        let (vs, rest) ← items fuel rest
        return (.list vs, rest)
    | '\x7b' :: rest =>
      match skipSpace rest with
      | '\x7d' :: rest => .ok (.map [], rest)
      | rest => do
        let (es, rest) ← entries fuel rest
        return (.map (Value.ofEntries es), rest)
    | s =>
      match scalar? s with
      | some (.int i, rest) =>
        if Number.isWritable i then .ok (.int i, rest)
        else .error (.overlong (Number.length i))
      | some found => .ok found
      | none => .error .malformed

/-- The items of an array from one item on, up to the closing bracket. -/
def items (fuel : Nat) (s : List Char) : Except Stop (List Value × List Char) :=
  match fuel with
  | 0 => .error .malformed
  | fuel + 1 => do
    let (v, rest) ← value fuel s
    match skipSpace rest with
    | ']' :: rest => return ([v], rest)
    | ',' :: rest => do
      let (vs, rest) ← items fuel (skipSpace rest)
      return (v :: vs, rest)
    | _ => throw .malformed

/-- The entries of an object from one key on, up to the closing brace. -/
def entries (fuel : Nat) (s : List Char) : Except Stop (List (Value × Value) × List Char) :=
  match fuel with
  | 0 => .error .malformed
  | fuel + 1 =>
    match s with
    | '"' :: rest =>
      match string? rest with
      | none => .error .malformed
      | some (key, rest) =>
        match skipSpace rest with
        | ':' :: rest => do
          let (v, rest) ← value fuel (skipSpace rest)
          match skipSpace rest with
          | '\x7d' :: rest => return ([(.text key, v)], rest)
          | ',' :: rest => do
            let (es, rest) ← entries fuel (skipSpace rest)
            return ((.text key, v) :: es, rest)
          | _ => throw .malformed
        | rest => .error (.colonMissing rest.length)
    | _ => .error .malformed

end

/-- The place of the character at `offset`: its line and column, both from one. -/
def place (s : List Char) (offset : Nat) : Nat × Nat :=
  let before := s.take offset
  (before.count '\n' + 1, (before.reverse.takeWhile (· != '\n')).length + 1)

def read (text : String) : Except Refusal Value :=
  let s := text.toList
  match value (2 * s.length + 2) (skipSpace s) with
  | .ok (v, rest) => if (skipSpace rest).isEmpty then .ok v else .error (.invalid .malformed)
  | .error .malformed => .error (.invalid .malformed)
  | .error (.overlong digits) => .error (.overlong digits)
  | .error (.colonMissing left) =>
    let offset := s.length - left
    let (line, column) := place s offset
    .error (.invalid (.colonMissing line column offset))

end Json

end DesignTokens
