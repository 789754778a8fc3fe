import DesignTokens.Failure
import DesignTokens.Number.Reading
import DesignTokens.Text.Case

/-! The scalars of YAML 1.1. A plain scalar without a tag gets one from its text: truth values,
numbers in several bases and in base sixty, nothing, days and moments. -/
namespace DesignTokens.Yaml

def coreTag (name : String) : String := "tag:yaml.org,2002:" ++ name

def textTag : String := coreTag "str"

def nullTag : String := coreTag "null"

/-- The tag of the key that brings the entries of other mappings in. -/
def mergeTag : String := coreTag "merge"

/-- The tag of the key under which a mapping keeps its value as a scalar. -/
def valueTag : String := coreTag "value"

def truthWords : List (String × Bool) :=
  [("yes", true), ("no", false), ("true", true), ("false", false), ("on", true), ("off", false)]

/-- Whether the text is a word in small letters, in capitals, or with a first capital. -/
def isSpellingOf (word text : String) : Bool :=
  text == word || text == word.toUpper || text == word.capitalize

def isTruth (s : String) : Bool := truthWords.any fun (word, _) => isSpellingOf word s

def isNull (s : String) : Bool := s == "" || s == "~" || isSpellingOf "null" s

def isDigitOrBar (c : Char) : Bool := c.isDigit || c == '_'

/-- Whether the text is a digit and then digits or underscores. -/
def isSpacedDigits : List Char → Bool
  | c :: rest => c.isDigit && rest.all isDigitOrBar
  | [] => false

/-- Whether the text is a place in base sixty, with at most two digits. -/
def isSixtieth : List Char → Bool
  | [c] => c.isDigit
  | [c, d] => '0' ≤ c && c ≤ '5' && d.isDigit
  | _ => false

/-- Whether the text without its sign is an integer: binary, octal, decimal, hexadecimal, or in
base sixty with colons between the places. -/
def isUnsignedInt (s : List Char) : Bool :=
  match s with
  | '0' :: 'b' :: rest => !rest.isEmpty && rest.all fun c => c == '0' || c == '1' || c == '_'
  | '0' :: 'x' :: rest =>
    !rest.isEmpty && rest.all fun c => (Number.digitIn? 16 c).isSome && c.toNat < 128 || c == '_'
  | '0' :: rest => rest.all fun c => ('0' ≤ c && c ≤ '7') || c == '_'
  | _ =>
    match Text.splitWhere (· == ':') s with
    | head :: places => isSpacedDigits head && places.all isSixtieth
    | [] => false

def isInt (s : List Char) : Bool := isUnsignedInt (Number.leadingSign s).2

def isExponent : List Char → Bool
  | [] => true
  | e :: sign :: ds =>
    (e == 'e' || e == 'E') && (sign == '+' || sign == '-') && !ds.isEmpty && ds.all Char.isDigit
  | _ => false

/-- Whether the text is a floating-point number: it has a point, digits before it or else behind
it, and an exponent only outside base sixty. -/
def isFloat (s : List Char) : Bool :=
  let (_, body) := Number.leadingSign s
  match Text.cutAt? '.' body with
  | none => false
  | some ([], fraction) =>
    let signed := body.length ≠ s.length
    let word := String.ofList fraction
    word == "inf" || word == "Inf" || word == "INF" ||
      (!signed && (word == "nan" || word == "NaN" || word == "NAN" ||
        (isSpacedDigits (fraction.takeWhile isDigitOrBar) &&
          isExponent (fraction.dropWhile isDigitOrBar))))
  | some (whole, fraction) =>
    let after := fraction.dropWhile isDigitOrBar
    match Text.splitWhere (· == ':') whole with
    | head :: places =>
      isSpacedDigits head && places.all isSixtieth && isExponent after &&
        (places.isEmpty || after.isEmpty)
    | [] => false

/-- The parts of a moment as they are written. A zone is a number of minutes; the time may have no
zone. -/
structure Stamp where
  year : Nat
  month : Nat
  day : Nat
  time : Option (Nat × Nat × Nat × List Nat × Option Int)

/-- A number of at least `low` and at most `high` digits at the start of a text. -/
def someDigits? (low high : Nat) (s : List Char) : Option (Nat × List Char) :=
  let ds := (s.take high).takeWhile Char.isDigit
  if ds.length < low then none
  else some (Number.ofDigits (ds.map fun d => d.toNat - 48), s.drop ds.length)

def behind? (c : Char) : List Char → Option (List Char)
  | d :: rest => if d = c then some rest else none
  | [] => none

/-- A zone that takes up the whole text: nothing, the letter of universal time, or a signed
distance in hours and minutes. -/
def zone? (s : List Char) : Option (Option Int) :=
  match s with
  | [] => some none
  | _ =>
    match s.dropWhile fun c => c == ' ' || c == '\t' with
    | ['Z'] => some (some 0)
    | sign :: rest =>
      if sign ≠ '+' ∧ sign ≠ '-' then none else do
      let (hours, rest) ← someDigits? 1 2 rest
      let minutes ← match rest with
        | [] => some 0
        | _ => do
          let (minutes, rest) ← someDigits? 2 2 (← behind? ':' rest)
          if rest.isEmpty then some minutes else none
      let span : Int := hours * 60 + minutes
      some (some (if sign = '-' then -span else span))
    | [] => none

/-- A time of day behind its separator, up to the end of the text. -/
def stampTime? (s : List Char) : Option (Nat × Nat × Nat × List Nat × Option Int) := do
  let (hour, s) ← someDigits? 1 2 s
  let (minute, s) ← someDigits? 2 2 (← behind? ':' s)
  let (second, s) ← someDigits? 2 2 (← behind? ':' s)
  let (fraction, s) := match s with
    | '.' :: rest => (rest.takeWhile Char.isDigit, rest.dropWhile Char.isDigit)
    | _ => ([], s)
  let zone ← zone? s
  some (hour, minute, second, fraction.map fun d => d.toNat - 48, zone)

/-- The parts of a text that writes a day, or a day and a time. -/
def stamp? (s : List Char) : Option Stamp := do
  let (year, s) ← someDigits? 4 4 s
  let (month, s) ← someDigits? 1 2 (← behind? '-' s)
  let (day, s) ← someDigits? 1 2 (← behind? '-' s)
  match s with
  | [] => some ⟨year, month, day, none⟩
  | c :: rest =>
    let time := if c = 'T' ∨ c = 't' then rest else s.dropWhile fun c => c == ' ' || c == '\t'
    if time.length = s.length then none else
    some ⟨year, month, day, some (← stampTime? time)⟩

/-- Whether the text is a moment, or a day with two digits for month and day. -/
def isStamp (s : List Char) : Bool :=
  match stamp? s with
  | some stamp => stamp.time.isSome || s.length == 10
  | none => false

/-- The text without a line feed at its end, which the forms of scalars do not count. -/
def withoutLineFeed (s : String) : String :=
  if s.endsWith "\n" && s.length > 1 then String.ofList s.toList.dropLast else s

def implicitTag (s : String) : String :=
  let s := withoutLineFeed s
  let cs := s.toList
  if isTruth s then coreTag "bool"
  else if isFloat cs then coreTag "float"
  else if isInt cs then coreTag "int"
  else if s = "<<" then mergeTag
  else if isNull s then nullTag
  else if isStamp cs then coreTag "timestamp"
  else if s = "=" then valueTag
  else textTag

def truthOf (s : String) : Except Fault Value :=
  let word := String.ofList (s.toList.flatMap Text.lowerChar)
  match truthWords.lookup word with
  | some b => .ok (.bool b)
  | none => .error (.key word)

def intIn (base : Nat) (s : List Char) : Except Fault Int :=
  let text := String.ofList s
  match Number.readIntIn? base text with
  | some i => .ok i
  | none => .error (.value (.notAnInteger base text))

/-- The text without underscores and its sign; it may not be empty. -/
def unsignedText (s : List Char) : Except Fault (Bool × List Char) :=
  match s.filter (· != '_') with
  | [] => .error .index
  | cs => .ok (Number.leadingSign cs)

/-- The integer that a text spells, in the base that its start tells. -/
def intOf (s : String) : Except Fault Value := do
  let (negative, body) ← unsignedText s.toList
  let n ← match body with
    | [] => throw .index
    | ['0'] => pure 0
    | '0' :: 'b' :: rest => intIn 2 rest
    | '0' :: 'x' :: rest => intIn 16 rest
    | '0' :: _ => intIn 8 body
    | _ => do
      let places ← (Text.splitWhere (· == ':') body).mapM (intIn 10)
      pure (places.foldl (fun n d => 60 * n + d) 0)
  return .int (if negative then -n else n)

def floatIn (s : List Char) : Except Fault Binary64 :=
  let text := String.ofList s
  match Number.readFloat? text with
  | some x => .ok x
  | none => .error (.value (.notANumber text))

/-- The floating-point number that a text spells. In base sixty the places are added up from the
last one on. -/
def floatOf (s : String) : Except Fault Value := do
  let (negative, body) ← unsignedText (s.toList.flatMap Text.lowerChar)
  let x ← match String.ofList body with
    | ".inf" => pure (Binary64.infinite false)
    | ".nan" => pure .nan
    | _ =>
      if body.contains ':' then do
        let places ← (Text.splitWhere (· == ':') body).mapM floatIn
        let weighted := places.reverse.zipIdx.map fun (d, i) => d * Binary64.ofNat (Nat.pow 60 i)
        pure (weighted.foldl (· + ·) (Binary64.zero false))
      else floatIn body
  return .float (if negative then -x else x)

/-- The first six digits of a fraction, as a number of microseconds. -/
def microsOf (fraction : List Nat) : Nat :=
  Number.ofDigits ((fraction ++ List.replicate 6 0).take 6)

def stampOf (s : String) : Except Fault Value :=
  let inCalendar {α : Type} : Except CalendarFault α → Except Fault α
    | .ok v => .ok v
    | .error fault => .error (.value (.calendar fault))
  match stamp? (withoutLineFeed s).toList with
  | none => .error .noSuchPart
  | some ⟨year, month, day, none⟩ => do
    return .date (← inCalendar (Date.of? year month day))
  | some ⟨year, month, day, some (hour, minute, second, fraction, zone)⟩ => do
    if let some minutes := zone then
      if minutes.natAbs ≥ 1440 then throw (.value (.calendar (.offset minutes)))
    let date ← inCalendar (Date.of? year month day)
    let time ← inCalendar (ClockTime.of? hour minute second (microsOf fraction))
    return .moment ⟨date, time, zone⟩

end DesignTokens.Yaml
