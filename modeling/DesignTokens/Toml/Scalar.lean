import DesignTokens.Json.Reader
import DesignTokens.Number.Reading
import DesignTokens.Value

/-! The values of TOML that have no parts: strings in four notations, numbers, truth values, days
and times. A reader takes a value off the start of a text; whether what follows fits is for others
to tell. A decimal integer of too many digits stops the reading at once. -/
namespace DesignTokens.Toml

inductive Stop where
  | malformed
  | tooLong (digits : String)
  deriving DecidableEq

def required {α : Type} : Option α → Except Stop α
  | some a => .ok a
  | none => .error .malformed

/-- Whether the character may not stand in a comment or a string as it is. -/
def isForbidden (c : Char) : Bool := (c.toNat < 32 || c.toNat == 127) && c != '\t'

/-- Whether the character may not stand in a string of several lines as it is. -/
def isForbiddenInLines (c : Char) : Bool := isForbidden c && c != '\n'

def isGap (c : Char) : Bool := c == ' ' || c == '\t'

def isGapOrLine (c : Char) : Bool := isGap c || c == '\n'

def skipGap (s : List Char) : List Char := s.dropWhile isGap

def behind? (start : String) (s : List Char) : Option (List Char) :=
  let mark := start.toList
  if mark.isPrefixOf s then some (s.drop mark.length) else none

/-- The character behind a backslash and a letter. -/
def shortEscape? : Char → Option Char
  | 'b' => some '\x08'
  | 't' => some '\t'
  | 'n' => some '\n'
  | 'f' => some '\x0c'
  | 'r' => some '\r'
  | '"' => some '"'
  | '\\' => some '\\'
  | _ => none

/-- The character with a number that is written in a given count of hexadecimal digits, and the text
behind it. Halves of pairs are no characters. -/
def hexChar? (count : Nat) (s : List Char) : Option (Char × List Char) := do
  let ds := s.take count
  let n ← Json.hexNumber? ds
  if ds.length = count ∧ n.isValidChar then some (Char.ofNat n, s.drop count) else none

/-- The text behind a backslash that joins lines: a line end with only blanks before it, and all
white space after it. -/
def joinedLine? (s : List Char) : Option (List Char) :=
  match skipGap s with
  | '\n' :: rest => some (rest.dropWhile isGapOrLine)
  | _ => none

/-- The text of a basic string behind its opening quotes, and what follows its closing ones. -/
def basicText? (lines : Bool) (s : List Char) : Nat → Option (List Char × List Char)
  | 0 => none
  | fuel + 1 =>
    let following (c : Char) (rest : List Char) :=
      (basicText? lines rest fuel).map fun (text, after) => (c :: text, after)
    match s with
    | [] => none
    | '"' :: rest =>
      if !lines then some ([], rest)
      else match behind? "\"\"" rest with
        | some after => some ([], after)
        | none => following '"' rest
    | '\\' :: c :: rest =>
      match if lines && isGapOrLine c then joinedLine? (c :: rest) else none with
      | some rest => basicText? lines rest fuel
      | none =>
        if c = 'u' ∨ c = 'U' then do
          let (found, rest) ← hexChar? (if c = 'u' then 4 else 8) rest
          following found rest
        else do following (← shortEscape? c) rest
    | c :: rest =>
      if if lines then isForbiddenInLines c else isForbidden c then none else following c rest

/-- The text before the first occurrence of a mark and the text behind it, if the former holds no
forbidden character. -/
def literalText? (forbidden : Char → Bool) (mark : String) :
    List Char → Option (List Char × List Char)
  | [] => none
  | c :: rest =>
    match behind? mark (c :: rest) with
    | some after => some ([], after)
    | none =>
      if forbidden c then none
      else (literalText? forbidden mark rest).map fun (text, after) => (c :: text, after)

/-- Up to two more quotes that belong to a string of several lines. -/
def extraQuotes (quote : Char) (s : List Char) : List Char × List Char :=
  let extra := (s.take 2).takeWhile (· == quote)
  (extra, s.drop extra.length)

/-- The text behind a line feed that follows the opening quotes at once. -/
def withoutFirstLine : List Char → List Char
  | '\n' :: rest => rest
  | s => s

def lineString? (s : List Char) : Option (List Char × List Char) :=
  match s with
  | '"' :: rest => basicText? false rest (rest.length + 1)
  | '\'' :: rest => literalText? isForbidden "'" rest
  | _ => none

def linesString? (s : List Char) : Option (List Char × List Char) :=
  match s with
  | '"' :: '"' :: '"' :: rest => do
    let rest := withoutFirstLine rest
    let (text, after) ← basicText? true rest (rest.length + 1)
    let (extra, after) := extraQuotes '"' after
    some (text ++ extra, after)
  | '\'' :: '\'' :: '\'' :: rest => do
    let (text, after) ← literalText? isForbiddenInLines "\x27\x27\x27" (withoutFirstLine rest)
    let (extra, after) := extraQuotes '\'' after
    some (text ++ extra, after)
  | _ => none

/-- Digits of a kind with single underscores between them, which are left out, and what follows
them. -/
def digitRun (p : Char → Bool) : List Char → List Char × List Char
  | [] => ([], [])
  | c :: rest =>
    if p c then
      let (ds, after) := digitRun p rest
      (c :: ds, after)
    else match c, rest with
      | '_', d :: _ => if p d then digitRun p rest else ([], c :: rest)
      | _, _ => ([], c :: rest)

def digits? (p : Char → Bool) (s : List Char) : Option (List Char × List Char) :=
  if s.head?.any p then some (digitRun p s) else none

def decimalValue (ds : List Char) : Nat := Number.ofDigits (ds.map fun d => d.toNat - 48)

/-- An integer in a base with the digits of a kind. -/
def inBase? (base : Nat) (p : Char → Bool) (s : List Char) : Option (Value × List Char) := do
  let (ds, after) ← digits? p s
  let places ← ds.mapM fun d => Json.hexNumber? [d]
  some (.int (places.foldl (fun (n : Nat) d => base * n + d) 0 : Nat), after)

/-- An integer in base sixteen, eight or two, by the letter behind its zero. -/
def basedInt? : List Char → Option (Value × List Char)
  | '0' :: 'x' :: rest => inBase? 16 (fun c => (Json.hexNumber? [c]).isSome) rest
  | '0' :: 'o' :: rest => inBase? 8 (fun c => '0' ≤ c && c ≤ '7') rest
  | '0' :: 'b' :: rest => inBase? 2 (fun c => c == '0' || c == '1') rest
  | _ => none

def sign : List Char → Bool × List Char
  | '-' :: rest => (true, rest)
  | '+' :: rest => (false, rest)
  | s => (false, s)

def exponent? : List Char → Option (Int × List Char)
  | e :: rest =>
    if e = 'e' ∨ e = 'E' then do
      let (negative, rest) := sign rest
      let (ds, after) ← digits? Char.isDigit rest
      let n : Int := decimalValue ds
      some (if negative then -n else n, after)
    else none
  | [] => none

def fraction? : List Char → Option (List Char × List Char)
  | '.' :: rest => digits? Char.isDigit rest
  | _ => none

/-- The digits before the point of a number: a single zero, or digits. -/
def whole? : List Char → Option (List Char × List Char)
  | '0' :: rest => some (['0'], rest)
  | s => digits? Char.isDigit s

/-- A decimal number, or that it is an integer of too many digits. A point or an exponent makes it a
floating-point number. -/
def decimal? (s : List Char) : Option (Except Stop (Value × List Char)) := do
  let (negative, s) := sign s
  let (whole, s) ← whole? s
  let fraction := fraction? s
  let s := (fraction.map (·.2)).getD s
  let exponent := exponent? s
  let s := (exponent.map (·.2)).getD s
  if fraction.isNone && exponent.isNone then
    if Number.maxDigits < whole.length then some (.error (.tooLong (String.ofList whole))) else
    let n : Int := decimalValue whole
    some (.ok (.int (if negative then -n else n), s))
  else
    let places := (fraction.map (·.1)).getD []
    let e := (exponent.map (·.1)).getD 0
    let digits := decimalValue (whole ++ places)
    some (.ok (.float (.ofDecimal negative digits (e - places.length)), s))

def bounded? (count low high : Nat) (s : List Char) : Option (Nat × List Char) :=
  let ds := s.take count
  if ds.length = count ∧ ds.all Char.isDigit then
    let n := decimalValue ds
    if low ≤ n ∧ n ≤ high then some (n, s.drop count) else none
  else none

/-- A time of day. Of a fraction the first six digits count. -/
def clockTime? (s : List Char) : Option (ClockTime × List Char) := do
  let (hour, s) ← bounded? 2 0 23 s
  let (minute, s) ← bounded? 2 0 59 (← behind? ":" s)
  let (second, s) ← bounded? 2 0 59 (← behind? ":" s)
  let places := match s with
    | '.' :: rest => rest.takeWhile Char.isDigit
    | _ => []
  let micro := decimalValue ((places ++ List.replicate 6 '0').take 6)
  let s := if places.isEmpty then s else s.drop (places.length + 1)
  some (⟨hour, minute, second, micro⟩, s)

def offset? (s : List Char) : Option (Int × List Char) :=
  match s with
  | [] => none
  | c :: rest =>
    if c = 'Z' ∨ c = 'z' then some (0, rest)
    else if c = '+' ∨ c = '-' then do
      let (hours, s) ← bounded? 2 0 23 rest
      let (minutes, s) ← bounded? 2 0 59 (← behind? ":" s)
      let span : Int := hours * 60 + minutes
      some (if c = '-' then -span else span, s)
    else none

def dayNumbers? (s : List Char) : Option ((Nat × Nat × Nat) × List Char) := do
  let (year, s) ← bounded? 4 0 9999 s
  let (month, s) ← bounded? 2 1 12 (← behind? "-" s)
  let (day, s) ← bounded? 2 1 31 (← behind? "-" s)
  some ((year, month, day), s)

/-- A time of day behind the letter or the blank that joins it to a day. -/
def joinedTime? : List Char → Option (ClockTime × List Char)
  | c :: rest => if c = 'T' ∨ c = 't' ∨ c = ' ' then clockTime? rest else none
  | [] => none

/-- A day, or a moment if a time of day follows; the day has to be in the calendar. -/
def dayOrMoment? (numbers : Nat × Nat × Nat) (s : List Char) : Option (Value × List Char) := do
  let (year, month, day) := numbers
  let date ← (Date.of? year month day).toOption
  match joinedTime? s with
  | none => some (.date date, s)
  | some (time, s) =>
    match offset? s with
    | none => some (.moment ⟨date, time, none⟩, s)
    | some (minutes, s) => some (.moment ⟨date, time, some minutes⟩, s)

/-- A word for infinity or for what is not a number. -/
def specialFloat? (s : List Char) : Option (Value × List Char) :=
  let (negative, body) := sign s
  match behind? "inf" body, behind? "nan" body with
  | some rest, _ => some (.float (.infinite negative), rest)
  | none, some rest => some (.float .nan, rest)
  | none, none => none

/-- A value without parts. What begins like a day is one, and times come before numbers. -/
def readScalar (s : List Char) : Except Stop (Value × List Char) :=
  let asText (found : List Char × List Char) := (Value.text (String.ofList found.1), found.2)
  match s with
  | '"' :: '"' :: '"' :: _ => required ((linesString? s).map asText)
  | '\'' :: '\'' :: '\'' :: _ => required ((linesString? s).map asText)
  | '"' :: _ => required ((lineString? s).map asText)
  | '\'' :: _ => required ((lineString? s).map asText)
  | _ =>
    match behind? "true" s, behind? "false" s, dayNumbers? s with
    | some rest, _, _ => .ok (.bool true, rest)
    | _, some rest, _ => .ok (.bool false, rest)
    | _, _, some (numbers, rest) => required (dayOrMoment? numbers rest)
    | none, none, none =>
      match clockTime? s, basedInt? s, decimal? s with
      | some (time, rest), _, _ => .ok (.time time, rest)
      | none, some found, _ => .ok found
      | none, none, some found => found
      | none, none, none => required (specialFloat? s)

end DesignTokens.Toml
