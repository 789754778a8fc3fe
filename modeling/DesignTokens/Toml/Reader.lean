import DesignTokens.Toml.Scalar

/-! Reading TOML as token values. Tables grow statement by statement; which of them may still be
declared or extended is told by their paths. How deep a text may nest is not limited. -/
namespace DesignTokens.Toml

abbrev Entries := List (Value × Value)

abbrev KeyPath := List String

/-- The text behind a comment, if one starts here. -/
def skipComment? (s : List Char) : Option (List Char) :=
  match s with
  | '#' :: rest =>
    let comment := rest.takeWhile (· != '\n')
    if comment.any isForbidden then none else some (rest.drop comment.length)
  | _ => some s

/-- The text behind white space and comments within an array. -/
def skipFiller? (s : List Char) : Nat → Option (List Char)
  | 0 => some s
  | fuel + 1 =>
    let rest := s.dropWhile isGapOrLine
    match rest with
    | '#' :: _ => do skipFiller? (← skipComment? rest) fuel
    | _ => some rest

def isBare (c : Char) : Bool := c.isAlphanum || c == '-' || c == '_'

def keyName? (s : List Char) : Option (String × List Char) :=
  let bare := s.takeWhile isBare
  if bare.isEmpty then (lineString? s).map fun (text, rest) => (String.ofList text, rest)
  else some (String.ofList bare, s.drop bare.length)

/-- A key, which is never empty: its last name and the names before it; blanks may stand around the
dots and behind it. -/
def key? (s : List Char) : Nat → Option ((KeyPath × String) × List Char)
  | 0 => none
  | fuel + 1 => do
    let (name, rest) ← keyName? s
    match skipGap rest with
    | '.' :: rest => do
      let ((path, last), rest) ← key? (skipGap rest) fuel
      some ((name :: path, last), rest)
    | rest => some (([], name), rest)

/-- Whether a path starts with one of several. -/
def isBelow (paths : List KeyPath) (path : KeyPath) : Bool := paths.any (·.isPrefixOf path)

/-- Changes the table at a path. Tables on the way that are not there are made; `lists` lets the
way lead through the last table of an array. -/
def changeTable (lists : Bool) (change : Entries → Option Entries) :
    KeyPath → Entries → Option Entries
  | [], es => change es
  | k :: path, es => do
    let found ← match Value.entry? k es with
      | none => (changeTable lists change path []).map .map
      | some (.map inner) => (changeTable lists change path inner).map .map
      | some (.list items) =>
        match lists, items.getLast? with
        | true, some (.map inner) => do
          let inner ← changeTable lists change path inner
          some (.list (items.dropLast ++ [.map inner]))
        | _, _ => none
      | some _ => none
    some (Value.insertEntry (.text k) found es)

def addEntry (k : String) (v : Value) (es : Entries) : Option Entries :=
  if (Value.entry? k es).isSome then none else some (Value.insertEntry (.text k) v es)

/-- Adds a table to an array of tables, which is made if it is not there. -/
def addTable (k : String) (es : Entries) : Option Entries :=
  match Value.entry? k es with
  | none => some (Value.insertEntry (.text k) (.list [.map []]) es)
  | some (.list items) => some (Value.insertEntry (.text k) (.list (items ++ [.map []])) es)
  | some _ => none

/-- Whether the value has parts, which are closed to later statements. -/
def hasParts : Value → Bool
  | .map _ => true
  | .list _ => true
  | _ => false

mutual

def readValue (s : List Char) : Nat → Except Stop (Value × List Char)
  | 0 => .error .malformed
  | fuel + 1 =>
    match s with
    | '[' :: rest => do
      let (items, rest) ← readItems (← required (skipFiller? rest rest.length)) fuel
      return (.list items, rest)
    | '\x7b' :: rest => do
      let rest := skipGap rest
      match behind? "\x7d" rest with
      | some rest => return (.map [], rest)
      | none => do
        let (es, rest) ← readFields [] [] rest fuel
        return (.map es, rest)
    | _ => readScalar s

/-- The items of an array up to its end. A comma may follow the last one. -/
def readItems (s : List Char) : Nat → Except Stop (List Value × List Char)
  | 0 => .error .malformed
  | fuel + 1 =>
    match s with
    | ']' :: rest => .ok ([], rest)
    | _ => do
      let (item, rest) ← readValue s fuel
      match ← required (skipFiller? rest rest.length) with
      | ']' :: rest => return ([item], rest)
      | ',' :: rest => do
        let (items, rest) ← readItems (← required (skipFiller? rest rest.length)) fuel
        return (item :: items, rest)
      | _ => throw .malformed

def readField (s : List Char) :
    Nat → Except Stop (((KeyPath × String) × Value) × List Char)
  | 0 => .error .malformed
  | fuel + 1 => do
    let (key, rest) ← required (key? s (s.length + 1))
    match rest with
    | '=' :: rest => do
      let (v, rest) ← readValue (skipGap rest) fuel
      return ((key, v), rest)
    | _ => throw .malformed

/-- The entries of an inline table up to its end, behind those that are there. Values with parts
among them are closed. -/
def readFields (closed : List KeyPath) (es : Entries) (s : List Char) :
    Nat → Except Stop (Entries × List Char)
  | 0 => .error .malformed
  | fuel + 1 => do
    let (((path, last), v), rest) ← readField s fuel
    let full := path ++ [last]
    if isBelow closed full then throw .malformed
    let es ← required (changeTable false (addEntry last v) path es)
    match skipGap rest with
    | '\x7d' :: rest => return (es, rest)
    | ',' :: rest =>
      readFields (if hasParts v then full :: closed else closed) es (skipGap rest) fuel
    | _ => throw .malformed

end

/-- A document as far as it has been read: its entries, the table that statements extend, the paths
that are closed with all below them, those that may not be declared any more, and those that may not
be once the present table ends. -/
structure Document where
  entries : Entries
  header : KeyPath
  closed : List KeyPath
  declared : List KeyPath
  pending : List KeyPath

namespace Document

def empty : Document := ⟨[], [], [], [], []⟩

/-- Adds a key with its value to the present table. Tables that a dotted key opens may not have
been declared and may not be declared later. -/
def assign (d : Document) (path : KeyPath) (last : String) (v : Value) : Option Document := do
  let opened := (List.range path.length).map fun i => d.header ++ path.take (i + 1)
  let parent := d.header ++ path
  if opened.any d.declared.contains || isBelow d.closed parent then none else
  let es ← changeTable true (addEntry last v) parent d.entries
  some { d with
    entries := es
    pending := d.pending ++ opened
    closed := if hasParts v then (parent ++ [last]) :: d.closed else d.closed }

def settle (d : Document) : Document :=
  { d with declared := d.declared ++ d.pending, pending := [] }

/-- Declares a table, which may be done once. -/
def declare (d : Document) (path : KeyPath) : Option Document :=
  if d.declared.contains path || isBelow d.closed path then none else do
  let es ← changeTable true some path d.entries
  some { d with entries := es, declared := path :: d.declared, header := path }

/-- Begins a further table of an array; what is known of the table before it is forgotten. -/
def declareItem (d : Document) (parent : KeyPath) (last : String) : Option Document :=
  let path := parent ++ [last]
  if isBelow d.closed path then none else do
  let es ← changeTable true (addTable last) parent d.entries
  let keep (q : KeyPath) := !path.isPrefixOf q
  some { d with
    entries := es
    closed := d.closed.filter keep
    declared := path :: d.declared.filter keep
    header := path }

/-- The document with one more statement, and the text behind it. -/
def statement (d : Document) (s : List Char) : Except Stop (Document × List Char) :=
  let fuel := s.length + 1
  match s with
  | '[' :: '[' :: rest => required do
    let ((parent, last), rest) ← key? (skipGap rest) fuel
    let d ← d.settle.declareItem parent last
    some (d, ← behind? "]]" rest)
  | '[' :: rest => required do
    let ((parent, last), rest) ← key? (skipGap rest) fuel
    let d ← d.settle.declare (parent ++ [last])
    some (d, ← behind? "]" rest)
  | '#' :: _ => .ok (d, s)
  | _ => do
    let (((path, last), v), rest) ← readField s (2 * fuel)
    return (← required (d.assign path last v), rest)

/-- The document with the statements of a text, each on lines of its own. -/
def statements (d : Document) (s : List Char) : Nat → Except Stop Document
  | 0 => .error .malformed
  | fuel + 1 =>
    match skipGap s with
    | [] => .ok d
    | '\n' :: rest => d.statements rest fuel
    | s => do
      let (d, rest) ← d.statement s
      match ← required (skipComment? (skipGap rest)) with
      | [] => return d
      | '\n' :: rest => d.statements rest fuel
      | _ => throw .malformed

end Document

def read (text : String) : Except Stop Value := do
  let s := text.toList
  let d ← Document.empty.statements s (s.length + 1)
  return .map d.entries

end DesignTokens.Toml
