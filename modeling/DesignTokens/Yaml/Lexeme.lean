import DesignTokens.Yaml.Library

/-! The lexemes of YAML 1.1. Block structure is told by columns: a deeper column opens a block, a
shallower one closes it, and a colon may turn what stands before it into a key. -/
namespace DesignTokens.Yaml

/-- A lexeme. A tag without a handle is verbatim. A scalar is whole unless an escape in it is half of
a surrogate pair. -/
inductive Lexeme where
  | streamEnd
  | version (major minor : Nat)
  | tagHandle (handle meaning : String)
  | otherDirective
  | documentStart
  | documentEnd
  | blockSequence
  | blockMapping
  | blockEnd
  | flowSequence
  | flowSequenceEnd
  | flowMapping
  | flowMappingEnd
  | blockEntry
  | flowEntry
  | key
  | value
  | alias (name : String)
  | anchor (name : String)
  | tag (handle : Option String) (suffix : String)
  | scalar (text : String) (plain whole : Bool)
  deriving DecidableEq

def isBreak (c : Char) : Bool :=
  c == '\n' || c == '\r' || c == '\x85' || c == '\u2028' || c == '\u2029'

def isLineEnd (c : Char) : Bool := c == '\x00' || isBreak c

/-- Whether the character is a blank or ends a line or the text. -/
def isSpaceEnd (c : Char) : Bool := c == ' ' || isLineEnd c

/-- Whether the character is a blank or a tab or ends a line or the text. -/
def isGap (c : Char) : Bool := c == '\t' || isSpaceEnd c

/-- Whether a name of an anchor, a handle or a directive may hold the character. -/
def isNameChar (c : Char) : Bool := c.isAlphanum || c == '-' || c == '_'

/-- A place in a text. The line and the column are those of the next character. -/
structure Cursor where
  rest : List Char
  index : Nat
  line : Nat
  column : Nat

namespace Cursor

def start (s : List Char) : Cursor := ⟨s, 0, 0, 0⟩

/-- The character `n` places ahead; null beyond the end. -/
def peek (c : Cursor) (n : Nat) : Char := c.rest.getD n '\x00'

def head (c : Cursor) : Char := c.peek 0

/-- The place behind the next character. A byte order mark takes no column. -/
def next (c : Cursor) : Cursor :=
  match c.rest with
  | [] => c
  | ch :: rest =>
    if isBreak ch && !(ch == '\r' && rest.head? == some '\n') then
      ⟨rest, c.index + 1, c.line + 1, 0⟩
    else ⟨rest, c.index + 1, c.line, if ch = '\ufeff' then c.column else c.column + 1⟩

def skip (c : Cursor) : Nat → Cursor
  | 0 => c
  | n + 1 => c.next.skip n

def span (c : Cursor) (p : Char → Bool) : List Char := c.rest.takeWhile p

def skipWhile (c : Cursor) (p : Char → Bool) : Cursor := c.skip (c.span p).length

def skipBlanks (c : Cursor) : Cursor := c.skipWhile (· == ' ')

/-- A line end, as the text that it stands for, and the place behind it. -/
def lineBreak? (c : Cursor) : Option (Char × Cursor) :=
  match c.rest with
  | '\r' :: '\n' :: _ => some ('\n', c.skip 2)
  | ch :: _ =>
    if ch == '\r' || ch == '\n' || ch == '\x85' then some ('\n', c.next)
    else if ch == '\u2028' || ch == '\u2029' then some (ch, c.next)
    else none
  | [] => none

/-- Whether a document marker starts here: three hyphens or three dots before a gap. -/
def atMarker (c : Cursor) : Bool :=
  let mark := c.rest.take 3
  (mark == ['-', '-', '-'] || mark == ['.', '.', '.']) && isGap (c.peek 3)

/-- The place behind blanks, a comment and the line end, if there is nothing else on the line. -/
def skipLine? (c : Cursor) : Option Cursor :=
  let c := c.skipBlanks
  let c := if c.head = '#' then c.skipWhile (!isLineEnd ·) else c
  if isLineEnd c.head then
    match c.lineBreak? with
    | some (_, after) => some after
    | none => some c
  else none

end Cursor

/-- What may become a key if a colon follows: the number of its first lexeme, whether it has to
become one, and where it starts. -/
structure Candidate where
  number : Nat
  required : Bool
  index : Nat
  line : Nat
  column : Nat

/-- A scan as far as it has come. The lexemes stand in reverse; candidates for keys are kept by the
depth of flow collections, `indents` are the columns of the open blocks around the inmost one. -/
structure Scan where
  cursor : Cursor
  flow : Nat
  indent : Int
  indents : List Int
  keyAllowed : Bool
  candidates : List (Nat × Candidate)
  lexemes : List Lexeme
  count : Nat

namespace Scan

def start (s : List Char) : Scan := ⟨.start s, 0, -1, [], true, [], [], 0⟩

def push (s : Scan) (l : Lexeme) : Scan :=
  { s with lexemes := l :: s.lexemes, count := s.count + 1 }

/-- Puts a lexeme in before the lexeme with a number. -/
def insertAt (s : Scan) (number : Nat) (l : Lexeme) : Scan :=
  let later := s.count - number
  { s with
    lexemes := s.lexemes.take later ++ l :: s.lexemes.drop later
    count := s.count + 1 }

def moved (s : Scan) (c : Cursor) : Scan := { s with cursor := c }

def column (s : Scan) : Int := s.cursor.column

/-- Drops the candidates that are on an earlier line or too far back. -/
def dropStale (s : Scan) : Except Stop Scan :=
  let stale (k : Candidate) := k.line != s.cursor.line || s.cursor.index - k.index > 1024
  if s.candidates.any fun (_, k) => stale k && k.required then .error .malformed
  else .ok { s with candidates := s.candidates.filter fun (_, k) => !stale k }

/-- Drops the candidate of the present depth; one that has to become a key may not be dropped. -/
def dropCandidate (s : Scan) : Except Stop Scan :=
  match s.candidates.lookup s.flow with
  | none => .ok s
  | some k =>
    if k.required then .error .malformed
    else .ok { s with candidates := s.candidates.filter (·.1 != s.flow) }

/-- Makes what starts here a candidate, where a key may stand. -/
def saveCandidate (s : Scan) : Except Stop Scan :=
  if s.keyAllowed then do
    let required := s.flow == 0 && s.indent == s.column
    let s ← s.dropCandidate
    let k : Candidate :=
      ⟨s.count, required, s.cursor.index, s.cursor.line, s.cursor.column⟩
    return { s with candidates := (s.flow, k) :: s.candidates }
  else .ok s

/-- Closes the blocks that lie deeper than a column; flow collections know no columns. -/
def unwind (s : Scan) (column : Int) : Scan :=
  if s.flow ≠ 0 then s else go s s.indents
where
  /-- Closes blocks while the inmost one lies deeper. -/
  go (s : Scan) : List Int → Scan
    | [] => s
    | outer :: rest =>
      if column < s.indent then go { s.push .blockEnd with indent := outer, indents := rest } rest
      else s

/-- Opens a block at a column that lies deeper than the inmost one; tells whether it did. -/
def open? (s : Scan) (column : Int) : Option Scan :=
  if s.indent < column then some { s with indents := s.indent :: s.indents, indent := column }
  else none

/-- Opens a block of a kind at the present column, if that lies deeper. -/
def openHere (s : Scan) (l : Lexeme) : Scan :=
  match s.open? s.column with
  | some s => s.push l
  | none => s

/-- Goes to the next lexeme over blanks, comments and line ends; behind a line end outside flow
collections a key may stand. -/
def toNext (s : Scan) : Nat → Scan
  | 0 => s
  | fuel + 1 =>
    let c := s.cursor.skipBlanks
    let c := if c.head = '#' then c.skipWhile (!isLineEnd ·) else c
    match c.lineBreak? with
    | some (_, c) => toNext { s with cursor := c, keyAllowed := s.keyAllowed || s.flow == 0 } fuel
    | none => s.moved c

/-- The bytes that percent signs with two hexadecimal digits spell, and the place behind them. -/
def escapedBytes (c : Cursor) : Nat → Except Stop (List UInt8 × Cursor)
  | 0 => .ok ([], c)
  | fuel + 1 =>
    if c.head = '%' then do
      match Json.hexNumber? [c.peek 1, c.peek 2] with
      | none => throw .malformed
      | some n => do
        let (bytes, c) ← escapedBytes (c.skip 3) fuel
        return (UInt8.ofNat n :: bytes, c)
    else .ok ([], c)

/-- Whether the character may stand in a tag as it is. -/
def isTagChar (c : Char) : Bool :=
  c.isAlphanum || ("-;/?:@&=+$,_.!~*'()[]").toList.contains c

/-- The text of a tag or of the meaning of a handle, up to a character that it cannot hold. -/
def tagText (c : Cursor) (sofar : List Char) : Nat → Except Stop (List Char × Cursor)
  | 0 => .error .malformed
  | fuel + 1 =>
    let plain := c.span isTagChar
    let sofar := sofar ++ plain
    let c := c.skip plain.length
    if c.head = '%' then do
      let (bytes, c) ← escapedBytes c c.rest.length
      match String.fromUTF8? ⟨bytes.toArray⟩ with
      | none => throw .malformed
      | some s => tagText c (sofar ++ s.toList) fuel
    else if sofar.isEmpty then .error .malformed
    else .ok (sofar, c)

def uri (c : Cursor) : Except Stop (String × Cursor) :=
  (tagText c [] (c.rest.length + 1)).map fun (s, c) => (String.ofList s, c)

/-- A handle: an exclamation mark, or a name between two of them. -/
def handle (c : Cursor) : Except Stop (String × Cursor) :=
  if c.head ≠ '!' then .error .malformed
  else if c.peek 1 = ' ' then .ok ("!", c.next)
  else
    let name := (c.rest.drop 1).takeWhile isNameChar
    if c.peek (name.length + 1) = '!' then
      .ok (String.ofList ('!' :: name ++ ['!']), c.skip (name.length + 2))
    else .error .malformed

def versionNumber (c : Cursor) : Except Stop (Nat × Cursor) :=
  let ds := c.span Char.isDigit
  if ds.isEmpty then .error .malformed
  else .ok (Number.ofDigits (ds.map fun d => d.toNat - 48), c.skip ds.length)

def directive (c : Cursor) : Except Stop (Lexeme × Cursor) := do
  let c := c.next
  let name := c.span isNameChar
  if name.isEmpty then throw .malformed
  let c := c.skip name.length
  if !isSpaceEnd c.head then throw .malformed
  let (found, c) ← match String.ofList name with
    | "YAML" => do
      let (major, c) ← versionNumber c.skipBlanks
      if c.head ≠ '.' then throw .malformed
      let (minor, c) ← versionNumber c.next
      if !isSpaceEnd c.head then throw .malformed
      pure (Lexeme.version major minor, c)
    | "TAG" => do
      let (h, c) ← handle c.skipBlanks
      if c.head ≠ ' ' then throw .malformed
      let (meaning, c) ← uri c.skipBlanks
      if !isSpaceEnd c.head then throw .malformed
      pure (Lexeme.tagHandle h meaning, c)
    | _ => pure (Lexeme.otherDirective, c.skipWhile (!isLineEnd ·))
  match c.skipLine? with
  | some c => return (found, c)
  | none => throw .malformed

def anchorName (c : Cursor) : Except Stop (String × Cursor) :=
  let c := c.next
  let name := c.span isNameChar
  let c := c.skip name.length
  let ends := isGap c.head || ("?:,]\x7d%@\x60").toList.contains c.head
  if name.isEmpty || !ends then .error .malformed else .ok (String.ofList name, c)

/-- A tag: verbatim between angle brackets, a lone exclamation mark, or a handle and a suffix. -/
def tag (c : Cursor) : Except Stop (Lexeme × Cursor) := do
  let (found, c) ←
    if c.peek 1 = '<' then do
      let (suffix, c) ← uri (c.skip 2)
      if c.head ≠ '>' then throw .malformed
      pure (Lexeme.tag none suffix, c.next)
    else if isGap (c.peek 1) then pure (Lexeme.tag none "!", c.next)
    else do
      let word := (c.rest.drop 1).takeWhile (!isSpaceEnd ·)
      let (h, c) ← if word.contains '!' then handle c else pure ("!", c.next)
      let (suffix, c) ← uri c
      pure (Lexeme.tag (some h) suffix, c)
  if isSpaceEnd c.head then return (found, c) else throw .malformed

/-- What happens to the line ends at the end of a block scalar: all but one fall, all stay, or all
fall. -/
inductive Chomping where
  | clip
  | keep
  | strip
  deriving DecidableEq

def chomping? (c : Char) : Option Chomping :=
  if c = '+' then some .keep else if c = '-' then some .strip else none

def increment? (c : Char) : Except Stop (Option Nat) :=
  if c.isDigit then
    if c = '0' then .error .malformed else .ok (some (c.toNat - 48))
  else .ok none

/-- The indicators behind the mark of a block scalar, in either order. -/
def indicators (c : Cursor) : Except Stop (Chomping × Option Nat × Cursor) := do
  let (chomp, depth, c) ← match chomping? c.head with
    | some chomp => do
      let depth ← increment? (c.peek 1)
      pure (chomp, depth, c.skip (if depth.isSome then 2 else 1))
    | none => do
      match ← increment? c.head with
      | none => pure (Chomping.clip, none, c)
      | some depth =>
        match chomping? (c.peek 1) with
        | some chomp => pure (chomp, some depth, c.skip 2)
        | none => pure (Chomping.clip, some depth, c.next)
  if isSpaceEnd c.head then return (chomp, depth, c) else throw .malformed

/-- The empty lines before the text of a block scalar, and the deepest column among them. -/
def leadingLines (c : Cursor) (deepest : Nat) : Nat → List Char × Nat × Cursor
  | 0 => ([], deepest, c)
  | fuel + 1 =>
    if c.head = ' ' then
      let c := c.next
      leadingLines c (max deepest c.column) fuel
    else match c.lineBreak? with
      | some (ch, c) =>
        let (breaks, deepest, c) := leadingLines c deepest fuel
        (ch :: breaks, deepest, c)
      | none => ([], deepest, c)

/-- The empty lines of a block scalar at a column, up to the next text. -/
def emptyLines (indent : Nat) (c : Cursor) : Nat → List Char × Cursor
  | 0 => ([], c)
  | fuel + 1 =>
    let blanks := c.span (· == ' ')
    let c := c.skip (min blanks.length (indent - c.column))
    match c.lineBreak? with
    | some (ch, c) =>
      let (breaks, c) := emptyLines indent c fuel
      (ch :: breaks, c)
    | none => ([], c)

/-- The lines of a block scalar from one line on. `breaks` are the empty lines before it; a folded
scalar joins lines that do not start with white space. -/
def blockLines (folded : Bool) (chomp : Chomping) (indent : Nat) (c : Cursor)
    (breaks : List Char) : Nat → List Char × Cursor
  | 0 => ([], c)
  | fuel + 1 =>
    let line := c.span (!isLineEnd ·)
    let after := c.skip line.length
    let (ended, after) : List Char × Cursor := match after.lineBreak? with
      | some (ch, after) => ([ch], after)
      | none => ([], after)
    let (empties, after) := emptyLines indent after (after.rest.length + 1)
    if after.column = indent ∧ after.head ≠ '\x00' then
      let starts (ch : Char) := ch != ' ' && ch != '\t'
      let joint :=
        if folded && ended == ['\n'] && starts c.head && starts after.head then
          (if empties.isEmpty then [' '] else [])
        else ended
      let (rest, last) := blockLines folded chomp indent after empties fuel
      (breaks ++ line ++ joint ++ rest, last)
    else
      let tail := match chomp with
        | .clip => ended
        | .keep => ended ++ empties
        | .strip => []
      (breaks ++ line ++ tail, after)

/-- A block scalar. Its text starts at the column that its indicator tells, or that its first line
has. -/
def blockScalar (s : Scan) (folded : Bool) : Except Stop (String × Cursor) := do
  let (chomp, depth, c) ← indicators s.cursor.next
  let c ← match c.skipLine? with
    | some c => pure c
    | none => throw .malformed
  let least := (max (s.indent + 1) 1).toNat
  let fuel := c.rest.length + 1
  let (breaks, indent, c) := match depth with
    | none =>
      let (breaks, deepest, c) := leadingLines c 0 fuel
      (breaks, max least deepest, c)
    | some n =>
      let indent := least + n - 1
      let (breaks, c) := emptyLines indent c fuel
      (breaks, indent, c)
  let (text, c) :=
    if c.column = indent ∧ c.head ≠ '\x00' then blockLines folded chomp indent c breaks fuel
    else (if chomp = .keep then breaks else [], c)
  return (String.ofList text, c)

def escape? (c : Char) : Option Char :=
  match c with
  | '0' => some '\x00'
  | 'a' => some '\x07'
  | 'b' => some '\x08'
  | 't' => some '\t'
  | '\t' => some '\t'
  | 'n' => some '\n'
  | 'v' => some '\x0b'
  | 'f' => some '\x0c'
  | 'r' => some '\r'
  | 'e' => some '\x1b'
  | ' ' => some ' '
  | '"' => some '"'
  | '\\' => some '\\'
  | '/' => some '/'
  | 'N' => some '\x85'
  | '_' => some '\xa0'
  | 'L' => some '\u2028'
  | 'P' => some '\u2029'
  | _ => none

def codeLength? (c : Char) : Option Nat :=
  match c with
  | 'x' => some 2
  | 'u' => some 4
  | 'U' => some 8
  | _ => none

/-- A character by its number. Halves of pairs are shown as the replacement character. -/
def charOf (n : Nat) : Except Stop Char :=
  if 0x80000000 ≤ n then .error (.fault .overflow)
  else if 0x110000 ≤ n then .error (.fault (.value .codePoint))
  else if 0xd800 ≤ n ∧ n < 0xe000 then .ok '\ufffd'
  else .ok (Char.ofNat n)

/-- Whether the source of a scalar in double quotes holds an escape for half of a surrogate pair. -/
def holdsHalf : List Char → Bool
  | '\\' :: 'u' :: a :: b :: c :: d :: rest => isHalf [a, b, c, d] || holdsHalf rest
  | '\\' :: 'U' :: a :: b :: c :: d :: e :: f :: g :: h :: rest =>
    isHalf [a, b, c, d, e, f, g, h] || holdsHalf rest
  | '\\' :: _ :: rest => holdsHalf rest
  | _ :: rest => holdsHalf rest
  | [] => false
where
  isHalf (digits : List Char) : Bool :=
    match Json.hexNumber? digits with
    | some n => 0xd800 ≤ n && n < 0xe000
    | none => false

/-- The empty lines within a quoted scalar, and the place of the text behind them. -/
def quotedBreaks (c : Cursor) : Nat → Except Stop (List Char × Cursor)
  | 0 => .ok ([], c)
  | fuel + 1 =>
    if c.atMarker then .error .malformed else
    let c := c.skipWhile fun ch => ch == ' ' || ch == '\t'
    match c.lineBreak? with
    | some (ch, c) => do
      let (breaks, c) ← quotedBreaks c fuel
      return (ch :: breaks, c)
    | none => .ok ([], c)

/-- The text of a quoted scalar behind its opening quote, up to the closing one. Single line ends
become blanks; double quotes know escapes, single quotes only their own doubling. -/
def quotedText (double : Bool) (c : Cursor) : Nat → Except Stop (List Char × Cursor)
  | 0 => .error .malformed
  | fuel + 1 =>
    let fuelOf (c : Cursor) := c.rest.length + 1
    let ch := c.head
    let quote := if double then '"' else '\''
    if c.rest.isEmpty then .error .malformed
    else if ch = quote then
      if !double && c.peek 1 == '\'' then do
        let (rest, last) ← quotedText double (c.skip 2) fuel
        return ('\'' :: rest, last)
      else .ok ([], c.next)
    else if double && ch == '\\' then
      let e := c.peek 1
      match escape? e, codeLength? e with
      | some found, _ => do
        let (rest, last) ← quotedText double (c.skip 2) fuel
        return (found :: rest, last)
      | none, some n =>
        let ds := (c.rest.drop 2).take n
        match Json.hexNumber? ds with
        | some code =>
          if ds.length < n then .error .malformed else do
          let found ← charOf code
          let (rest, last) ← quotedText double (c.skip (n + 2)) fuel
          return (found :: rest, last)
        | none => .error .malformed
      | none, none =>
        match c.next.lineBreak? with
        | some (_, c) => do
          let (breaks, c) ← quotedBreaks c (fuelOf c)
          let (rest, last) ← quotedText double c fuel
          return (breaks ++ rest, last)
        | none => .error .malformed
    else if ch == ' ' || ch == '\t' || isBreak ch then
      let blanks := c.span fun ch => ch == ' ' || ch == '\t'
      let c := c.skip blanks.length
      match c.lineBreak? with
      | some (ended, c) => do
        let (breaks, c) ← quotedBreaks c (fuelOf c)
        let joint := if ended ≠ '\n' then [ended] else if breaks.isEmpty then [' '] else []
        let (rest, last) ← quotedText double c fuel
        return (joint ++ breaks ++ rest, last)
      | none => do
        let (rest, last) ← quotedText double c fuel
        return (blanks ++ rest, last)
    else do
      let (rest, last) ← quotedText double c.next fuel
      return (ch :: rest, last)

/-- Whether the character has a meaning within flow collections. -/
def isFlowMark (c : Char) : Bool :=
  c == ',' || c == '[' || c == ']' || c == '\x7b' || c == '\x7d'

/-- The number of characters up to a gap or a mark that ends a plain scalar. -/
def plainLength (inFlow : Bool) : List Char → Nat
  | [] => 0
  | c :: rest =>
    let next := rest.headD '\x00'
    if isGap c then 0
    else if c == ':' && (isGap next || (inFlow && isFlowMark next)) then 0
    else if inFlow && (c == '?' || isFlowMark c) then 0
    else plainLength inFlow rest + 1

/-- The empty lines behind a line end within a plain scalar; none before a document marker. -/
def plainBreaks (c : Cursor) : Nat → Option (List Char) × Cursor
  | 0 => (some [], c)
  | fuel + 1 =>
    if c.head = ' ' then plainBreaks c.next fuel
    else match c.lineBreak? with
      | some (ch, c) =>
        if c.atMarker then (none, c) else
        let (breaks, c) := plainBreaks c fuel
        (breaks.map (ch :: ·), c)
      | none => (some [], c)

/-- What separates two pieces of a plain scalar, if another may follow, whether it holds a line
end, and the place behind it. -/
def plainGap (c : Cursor) : Option (List Char) × Bool × Cursor :=
  let blanks := c.span (· == ' ')
  let c := c.skip blanks.length
  match c.lineBreak? with
  | some (ended, c) =>
    if c.atMarker then (none, true, c) else
    match plainBreaks c (c.rest.length + 1) with
    | (none, c) => (none, true, c)
    | (some breaks, c) =>
      let joint := if ended ≠ '\n' then [ended] else if breaks.isEmpty then [' '] else []
      (some (joint ++ breaks), true, c)
  | none => (if blanks.isEmpty then none else some blanks, false, c)

/-- A plain scalar from one piece on, with the gap before it; tells whether a key may stand behind
it. -/
def plainText (inFlow : Bool) (indent : Int) (c : Cursor) (gap : List Char) (allowed : Bool) :
    Nat → List Char × Bool × Cursor
  | 0 => ([], allowed, c)
  | fuel + 1 =>
    let n := if c.head = '#' then 0 else plainLength inFlow c.rest
    if n = 0 then ([], allowed, c) else
    let piece := gap ++ c.rest.take n
    match plainGap (c.skip n) with
    | (none, broken, c) => (piece, broken, c)
    | (some gap, broken, c) =>
      if c.head = '#' ∨ (!inFlow ∧ (c.column : Int) < indent) then (piece, broken, c)
      else
        let (rest, allowed, c) := plainText inFlow indent c gap broken fuel
        (piece ++ rest, allowed, c)

def startsPlain (s : Scan) : Bool :=
  let c := s.cursor.head
  (!isGap c && !("-?:,[]\x7b\x7d#&*!|>'\"%@\x60").toList.contains c) ||
    (!isGap (s.cursor.peek 1) && (c == '-' || (s.flow == 0 && (c == '?' || c == ':'))))

def atEnd (s : Scan) : Except Stop Scan := do
  let s ← (s.unwind (-1)).dropCandidate
  return { s with keyAllowed := false, candidates := [] }.push .streamEnd

def marker (s : Scan) (l : Lexeme) : Except Stop Scan := do
  let s ← (s.unwind (-1)).dropCandidate
  return { s with keyAllowed := false, cursor := s.cursor.skip 3 }.push l

def flowOpen (s : Scan) (l : Lexeme) : Except Stop Scan := do
  let s ← s.saveCandidate
  return { s with flow := s.flow + 1, keyAllowed := true, cursor := s.cursor.next }.push l

def flowClose (s : Scan) (l : Lexeme) : Except Stop Scan := do
  let s ← s.dropCandidate
  return { s with flow := s.flow - 1, keyAllowed := false, cursor := s.cursor.next }.push l

/-- The hyphen of a block entry, which may open a sequence. -/
def blockEntry (s : Scan) : Except Stop Scan := do
  if s.flow = 0 ∧ !s.keyAllowed then throw .malformed
  let s := if s.flow = 0 then s.openHere .blockSequence else s
  let s ← { s with keyAllowed := true }.dropCandidate
  return (s.moved s.cursor.next).push .blockEntry

/-- The question mark of a key, which may open a mapping. -/
def keyMark (s : Scan) : Except Stop Scan := do
  if s.flow = 0 ∧ !s.keyAllowed then throw .malformed
  let s := if s.flow = 0 then s.openHere .blockMapping else s
  let s ← { s with keyAllowed := s.flow == 0 }.dropCandidate
  return (s.moved s.cursor.next).push .key

/-- The colon of a value. It turns the candidate of its depth into a key, which may open a
mapping. -/
def valueMark (s : Scan) : Except Stop Scan := do
  let s ← match s.candidates.lookup s.flow with
    | some k =>
      let s := { s with
        candidates := s.candidates.filter (·.1 != s.flow), keyAllowed := false }
      let s := s.insertAt k.number .key
      match if s.flow = 0 then s.open? k.column else none with
      | some s => pure (s.insertAt k.number .blockMapping)
      | none => pure s
    | none => do
      if s.flow = 0 ∧ !s.keyAllowed then throw .malformed
      let s := if s.flow = 0 then s.openHere .blockMapping else s
      { s with keyAllowed := s.flow == 0 }.dropCandidate
  return (s.moved s.cursor.next).push .value

/-- A lexeme that may start a key, read at the present place. -/
def node (s : Scan) (read : Cursor → Except Stop (Lexeme × Cursor)) : Except Stop Scan := do
  let s ← s.saveCandidate
  let (l, c) ← read s.cursor
  return { s with keyAllowed := false, cursor := c }.push l

/-- A block scalar, behind which a key may stand. -/
def block (s : Scan) (folded : Bool) : Except Stop Scan := do
  let s ← { s with keyAllowed := true }.dropCandidate
  let (text, c) ← s.blockScalar folded
  return (s.moved c).push (.scalar text false true)

def quotedScalar (double : Bool) (c : Cursor) : Except Stop (Lexeme × Cursor) :=
  (quotedText double c.next (c.rest.length + 1)).map fun (s, last) =>
    let source := c.rest.take (c.rest.length - last.rest.length)
    (.scalar (String.ofList s) false !(double && holdsHalf source), last)

def plain (s : Scan) : Except Stop Scan := do
  let s ← s.saveCandidate
  let (text, allowed, c) :=
    plainText (s.flow != 0) (s.indent + 1) s.cursor [] false (s.cursor.rest.length + 1)
  return { s with keyAllowed := allowed, cursor := c }.push (.scalar (String.ofList text) true true)

def fetch (s : Scan) : Except Stop Scan := do
  let s := s.toNext (s.cursor.rest.length + 1)
  let s ← s.dropStale
  let s := s.unwind s.column
  let c := s.cursor
  let gapNext := isGap (c.peek 1)
  let inFlow := s.flow != 0
  if c.rest.isEmpty then s.atEnd
  else match c.head with
    | '[' => s.flowOpen .flowSequence
    | '\x7b' => s.flowOpen .flowMapping
    | ']' => s.flowClose .flowSequenceEnd
    | '\x7d' => s.flowClose .flowMappingEnd
    | ',' => do
      let s ← { s with keyAllowed := true }.dropCandidate
      return (s.moved s.cursor.next).push .flowEntry
    | '*' => s.node fun c => (anchorName c).map fun (name, c) => (.alias name, c)
    | '&' => s.node fun c => (anchorName c).map fun (name, c) => (.anchor name, c)
    | '!' => s.node tag
    | '\'' => s.node (quotedScalar false)
    | '"' => s.node (quotedScalar true)
    | ch =>
      if ch = '%' ∧ c.column = 0 then do
        let s ← (s.unwind (-1)).dropCandidate
        let (l, c) ← directive s.cursor
        return { s with keyAllowed := false, cursor := c }.push l
      else if c.column = 0 ∧ c.atMarker then
        s.marker (if ch = '-' then .documentStart else .documentEnd)
      else if ch = '-' ∧ gapNext then s.blockEntry
      else if ch = '?' ∧ (inFlow ∨ gapNext) then s.keyMark
      else if ch = ':' ∧ (inFlow ∨ gapNext) then s.valueMark
      else if ch = '|' ∧ !inFlow then s.block false
      else if ch = '>' ∧ !inFlow then s.block true
      else if s.startsPlain then s.plain
      else throw .malformed

def run (s : Scan) : Nat → Scan × Option Stop
  | 0 => (s, some .malformed)
  | fuel + 1 =>
    match s.fetch with
    | .error stop => (s, some stop)
    | .ok s =>
      match s.lexemes with
      | .streamEnd :: _ => (s, none)
      | _ => s.run fuel

end Scan

def isAllowed (c : Char) : Bool :=
  let n := c.toNat
  n == 9 || n == 10 || n == 13 || (32 ≤ n && n ≤ 126) || n == 0x85 ||
    (0xa0 ≤ n && n ≤ 0xfffd) || 0x10000 ≤ n

/-- The lexemes of a text up to its end or to the first fault, which is told too. -/
def lexemes (text : String) : List Lexeme × Option Stop :=
  let s := text.toList
  if !s.all isAllowed then ([], some .malformed) else
  let first : Scan := .start s
  let first := if s.head? == some '\ufeff' then first.moved first.cursor.next else first
  let (scan, stop) := first.run (s.length + 2)
  (scan.lexemes.reverse, stop)

end DesignTokens.Yaml
