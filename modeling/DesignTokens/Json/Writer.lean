import DesignTokens.Failure

/-! Writing JSON in ASCII, on one line or indented by two blanks. Infinities and what is not a
number are written as words. Values that are no data have no form, and neither have integers of too
many digits. -/
namespace DesignTokens.Json

def unitEscape (n : Nat) : List Char := '\\' :: 'u' :: Text.hexDigits 4 n

def escapeChar (c : Char) : List Char :=
  if c = '"' then ['\\', '"']
  else if c = '\\' then ['\\', '\\']
  else if c = '\n' then ['\\', 'n']
  else if c = '\r' then ['\\', 'r']
  else if c = '\t' then ['\\', 't']
  else if c = '\x08' then ['\\', 'b']
  else if c = '\x0c' then ['\\', 'f']
  else
    let n := c.toNat
    if 32 ≤ n ∧ n < 127 then [c]
    else if n < 0x10000 then unitEscape n
    else unitEscape (0xd800 + (n - 0x10000) / 0x400) ++ unitEscape (0xdc00 + (n - 0x10000) % 0x400)

def stringText (s : String) : String :=
  String.ofList ('"' :: s.toList.flatMap escapeChar ++ ['"'])

def floatText : Binary64 → String
  | .nan => "NaN"
  | .infinite s => if s then "-Infinity" else "Infinity"
  | x => x.written

/-- A value without parts; other values are refused. -/
def scalarText (refused : KindFault) : Value → Except Failure String
  | .null => .ok "null"
  | .bool b => .ok (if b then "true" else "false")
  | .int i => if Number.isWritable i then .ok (toString i) else .error (.value .unwritableInteger)
  | .float x => .ok (floatText x)
  | .text s => .ok (stringText s)
  | _ => .error (.kind refused)

/-- The text of a key; only a value without parts may be one. -/
def keyText : Value → Except Failure String
  | .text s => .ok (stringText s)
  | v => (scalarText (.notADataKey v.kind) v).map fun t => "\"" ++ t ++ "\""

/-- How parts are set apart: on one line, or each on a line of its own at a depth. -/
inductive Layout where
  | line
  | indented (depth : Nat)

namespace Layout

def inner : Layout → Layout
  | line => line
  | indented n => indented (n + 1)

/-- What stands before the first part and after the last one. -/
def brk : Layout → String
  | line => ""
  | indented n => "\n" ++ String.ofList (List.replicate (2 * n) ' ')

def separator : Layout → String
  | line => ", "
  | indented n => "," ++ (indented n).brk

/-- Parts between brackets; without parts the brackets touch. -/
def enclose (layout : Layout) (opening closing : String) (parts : List String) : String :=
  if parts.isEmpty then opening ++ closing
  else opening ++ layout.inner.brk ++ layout.inner.separator.intercalate parts ++ layout.brk ++
    closing

end Layout

mutual

/-- The text of a value in a layout. The first part that has none tells why there is none. -/
def textIn (layout : Layout) : Value → Except Failure String
  | .list xs => do return layout.enclose "[" "]" (← textsIn layout.inner xs)
  | .tuple xs => do return layout.enclose "[" "]" (← textsIn layout.inner xs)
  | .map es => do return layout.enclose "\x7b" "\x7d" (← entriesIn layout.inner es)
  | v => scalarText (.notData v.kind) v

def textsIn (layout : Layout) : List Value → Except Failure (List String)
  | [] => .ok []
  | v :: vs => do return (← textIn layout v) :: (← textsIn layout vs)

def entriesIn (layout : Layout) : List (Value × Value) → Except Failure (List String)
  | [] => .ok []
  | (k, v) :: rest => do
    return ((← keyText k) ++ ": " ++ (← textIn layout v)) :: (← entriesIn layout rest)

end

def compact (v : Value) : Except Failure String := textIn .line v

def indented (v : Value) : Except Failure String := textIn (.indented 0) v

def compact? (v : Value) : Option String := (compact v).toOption

end DesignTokens.Json
