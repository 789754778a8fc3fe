import DesignTokens.Template.Format

/-! Templates: texts with slots between braces. A slot names a part by its number or takes the next
one, may go on to an attribute or an item of it, and may have a conversion and a format. -/
namespace DesignTokens

inductive Segment where
  | text (s : List Char)
  | slot (name : List Char) (conversion : Option Char) (format : List Char)

/-- A template as far as it can be read: its pieces, and the fault behind them if there is one. -/
structure Template where
  segments : List Segment
  fault : Option TemplateFault

namespace Template

/-- The name of a slot, and the text from its end mark on. Between brackets end marks are part of
the name. -/
def slotName (inBrackets : Bool) : List Char → Except TemplateFault (List Char × List Char)
  | [] => .error .closingMissing
  | c :: rest =>
    if inBrackets then
      (slotName (c != ']') rest).map fun (name, after) => (c :: name, after)
    else if c = '\x7b' then .error .openingInName
    else if c = '\x7d' ∨ c = ':' ∨ c = '!' then .ok ([], c :: rest)
    else (slotName (c == '[') rest).map fun (name, after) => (c :: name, after)

/-- The format of a slot up to the brace that closes the slot, and the text after it. -/
def slotFormat (depth : Nat) : List Char → Except TemplateFault (List Char × List Char)
  | [] => .error .formatOpen
  | c :: rest =>
    if c = '\x7d' ∧ depth = 0 then .ok ([], rest)
    else
      let depth := if c = '\x7d' then depth - 1 else if c = '\x7b' then depth + 1 else depth
      (slotFormat depth rest).map fun (format, after) => (c :: format, after)

/-- A slot after its opening brace, and the text after it. -/
def slot (s : List Char) : Except TemplateFault (Segment × List Char) := do
  let (name, rest) ← slotName false s
  match rest with
  | '!' :: [] => throw .conversionMissing
  | '!' :: conversion :: '\x7d' :: rest => return (.slot name (some conversion) [], rest)
  | '!' :: conversion :: ':' :: rest => do
    let (format, rest) ← slotFormat 0 rest
    return (.slot name (some conversion) format, rest)
  | ['!', _] => throw .formatOpen
  | '!' :: _ => throw .colonMissing
  | ':' :: rest => do
    let (format, rest) ← slotFormat 0 rest
    return (.slot name none format, rest)
  | _ => return (.slot name none [], rest.drop 1)

/-- Reads the pieces of a template; each step takes at least one character of it. -/
def readFrom (fuel : Nat) (s : List Char) : Template :=
  match fuel with
  | 0 => ⟨[], none⟩
  | fuel + 1 =>
    let before := s.takeWhile fun c => c != '\x7b' && c != '\x7d'
    match s.drop before.length with
    | [] => ⟨[.text before], none⟩
    | '\x7d' :: '\x7d' :: rest => push (.text (before ++ ['\x7d'])) (readFrom fuel rest)
    | '\x7d' :: _ => ⟨[.text before], some .singleClosing⟩
    | '\x7b' :: '\x7b' :: rest => push (.text (before ++ ['\x7b'])) (readFrom fuel rest)
    | ['\x7b'] => ⟨[.text before], some .singleOpening⟩
    | _ :: rest =>
      match slot rest with
      | .ok (found, rest) => push (.text before) (push found (readFrom fuel rest))
      | .error fault => ⟨[.text before], some fault⟩
where
  /-- A piece in front of a template. -/
  push (segment : Segment) (t : Template) : Template := ⟨segment :: t.segments, t.fault⟩

def read (s : List Char) : Template := readFrom (s.length + 1) s

/-- How the slots so far chose their parts: not yet, each the next one, or by number. -/
inductive Numbering where
  | unset
  | automatic (next : Nat)
  | manual

def stop {α : Type} (fault : TemplateFault) : Except Failure α := .error (.value (.template fault))

/-- The number that a name is; none if it is empty or has anything but digits. -/
def number? (name : List Char) : Except Failure (Option Nat) :=
  match Format.count? name with
  | .ok (some n, []) => .ok (some n)
  | .ok _ => .ok none
  | .error fault =>
    if name.all fun c => (Text.digitValue? c).isSome then stop fault else .ok none

def part (parts : List Value) (n : Nat) : Except Failure Value :=
  match parts[n]? with
  | some v => .ok v
  | none => .error (.fault .index)

/-- The part that a slot names first. Slots without a name take the parts in turn and cannot be
mixed with numbered ones. -/
def choose (parts : List Value) (numbering : Numbering) (name : List Char) :
    Except Failure (Value × Numbering) := do
  match ← number? name with
  | some n =>
    match numbering with
    | .automatic _ => stop .automaticThenManual
    | _ => return (← part parts n, .manual)
  | none =>
    if name.isEmpty then
      match numbering with
      | .manual => stop .manualThenAutomatic
      | .automatic n => return (← part parts n, .automatic (n + 1))
      | .unset => return (← part parts 0, .automatic 1)
    else throw (.fault (.key (String.ofList name)))

def itemOf (items : List Value) (n : Nat) : Except Failure Value :=
  match items[n]? with
  | some v => .ok v
  | none => .error (.fault .index)

def itemOfValue (v : Value) (name : List Char) (number : Option Nat) : Except Failure Value :=
  let key := String.ofList name
  match v, number with
  | .list xs, some n => itemOf xs n
  | .tuple xs, some n => itemOf xs n
  | .text s, some n => itemOf (s.toList.map fun c => .text c.toString) n
  | .map es, some n =>
    match es.find? fun (k, _) => k.sameKey (.int n) with
    | some (_, found) => .ok found
    | none => .error (.fault (.key (toString n)))
  | .map es, none =>
    match Value.entry? key es with
    | some found => .ok found
    | none => .error (.fault (.key key))
  | .list _, none => .error (.kind (.textIndex "list"))
  | .tuple _, none => .error (.kind (.textIndex "tuple"))
  | .text _, none => .error (.kind (.textIndex "str"))
  | v, _ => .error (.kind (.noItems v.kind))

section Slots

variable [Platform]

def member (p : Part) (name : List Char) : Except Failure Part :=
  (Platform.member p (String.ofList name)).mapError .fault

def item (p : Part) (name : List Char) : Except Failure Part := do
  let number ← number? name
  match p with
  | .inl v => return .inl (← itemOfValue v name number)
  | .inr o =>
    let key := match number with
      | some n => .inl n
      | none => .inr (String.ofList name)
    (Platform.item o key).mapError .fault

/-- Goes from a part to what the rest of a slot's name tells: attributes after dots, items between
brackets. -/
def follow (fuel : Nat) (p : Part) (path : List Char) : Except Failure Part :=
  match fuel with
  | 0 => .ok p
  | fuel + 1 =>
    match path with
    | [] => .ok p
    | '.' :: rest => do
      let name := rest.takeWhile fun c => c != '.' && c != '['
      if name.isEmpty then stop .emptyAttribute
      follow fuel (← member p name) (rest.drop name.length)
    | '[' :: rest => do
      let name := rest.takeWhile (· != ']')
      if name.length = rest.length then stop .bracketOpen
      let _ ← number? name
      if name.isEmpty then stop .emptyAttribute
      follow fuel (← item p name) (rest.drop (name.length + 1))
    | _ => stop .strayAfterBracket

def find (parts : List Value) (numbering : Numbering) (name : List Char) :
    Except Failure (Part × Numbering) := do
  let first := name.takeWhile fun c => c != '.' && c != '['
  let (v, numbering) ← choose parts numbering first
  return (← follow (name.length + 1) (.inl v) (name.drop first.length), numbering)

def textOf (form : TextForm) : Part → Except Failure String
  | .inl v => if form = .plain then v.plain? else v.quoted?
  | .inr o => (Platform.text form o).mapError .fault

/-- A part after a conversion to text. -/
def convert (p : Part) : Option Char → Except Failure Part
  | none => .ok p
  | some 'r' => do return .inl (.text (← textOf .quoted p))
  | some 's' => do return .inl (.text (← textOf .plain p))
  | some 'a' => do return .inl (.text (Text.asciiOnly (← textOf .quoted p)))
  | some c => stop (.unknownConversion c)

def formatted (format : List Char) : Part → Except Failure (List Char)
  | .inl v => Format.apply format v
  | .inr o => (Platform.format o format).mapError .fault

/-- Fills pieces in turn; `expand` fills the formats that have slots themselves. -/
def fillSegments (parts : List Value)
    (expand : Numbering → List Char → Except Failure (List Char × Numbering))
    (fault : Option TemplateFault) (numbering : Numbering) :
    List Segment → Except Failure (List Char × Numbering)
  | [] =>
    match fault with
    | some fault => stop fault
    | none => .ok ([], numbering)
  | .text s :: rest => do
    let (after, numbering) ← fillSegments parts expand fault numbering rest
    return (s ++ after, numbering)
  | .slot name conversion format :: rest => do
    let (p, numbering) ← find parts numbering name
    let p ← convert p conversion
    let (format, numbering) ←
      if format.contains '\x7b' then expand numbering format else pure (format, numbering)
    let text ← formatted format p
    let (after, numbering) ← fillSegments parts expand fault numbering rest
    return (text ++ after, numbering)

/-- Fills a template whose formats may hold slots so many levels deep. -/
def fillAt (parts : List Value) : Nat → Numbering → List Char →
    Except Failure (List Char × Numbering)
  | 0, _, _ => stop .nestedTooDeep
  | depth + 1, numbering, s =>
    let t := read s
    fillSegments parts (fillAt parts depth) t.fault numbering t.segments

/-- The text of a template with its slots filled from the parts. Formats may hold slots, but not
those again. -/
def fill (template : String) (parts : List Value) : Except Failure String := do
  let (s, _) ← fillAt parts 2 .unset template.toList
  return String.ofList s

end Slots

end Template

end DesignTokens
