import DesignTokens.Yaml.Lexeme
import DesignTokens.Yaml.Scalar

/-! The nodes of a YAML document. Aliases are replaced by what they name, every node has a tag, and
a mapping begins with the entries that its merge keys bring in. -/
namespace DesignTokens.Yaml

/-- A node. A scalar is whole unless it holds half of a surrogate pair; a mapping is unsound if one of
its merge keys has a value that cannot be merged. -/
inductive Node where
  | scalar (tag text : String) (whole : Bool)
  | sequence (tag : String) (items : List Node)
  | mapping (tag : String) (entries : List (Node × Node)) (sound : Bool)

namespace Node

def tag : Node → String
  | scalar tag _ _ => tag
  | sequence tag _ => tag
  | mapping tag _ _ => tag

def absent : Node := .scalar nullTag "" true

/-- The entries that a mapping brings in, if they are sound. -/
def merged? : Node → Option (List (Node × Node))
  | mapping _ entries true => some entries
  | _ => none

/-- The entries that the value of a merge key brings in: those of a mapping, or those of a row of
mappings, the last mapping first. -/
def broughtIn? : Node → Option (List (Node × Node))
  | sequence _ items => (items.mapM merged?).map fun rows => rows.reverse.flatten
  | node => node.merged?

/-- The mapping of entries as they are written. -/
def ofEntries (tag : String) (entries : List (Node × Node)) : Node :=
  let (merges, own) := entries.partition fun (k, _) => k.tag = mergeTag
  match merges.mapM fun (_, v) => v.broughtIn? with
  | some rows => .mapping tag (rows.flatten ++ own) true
  | none => .mapping tag own false

end Node

structure Properties where
  anchor : Option String
  tag : Option String

namespace Properties

def isEmpty (p : Properties) : Bool := p.anchor.isNone && p.tag.isNone

/-- Whether the tag is left to the content. A lone exclamation mark leaves it, too. -/
def isOpen (p : Properties) : Bool := p.tag.isNone || p.tag == some "!"

def tagOr (p : Properties) (kind : String) : String :=
  if p.isOpen then coreTag kind else p.tag.getD ""

def scalar (p : Properties) (text : String) (plain whole : Bool) : Node :=
  match p.tag with
  | none => .scalar (if plain then implicitTag text else textTag) text whole
  | some "!" => .scalar (implicitTag text) text whole
  | some tag => .scalar tag text whole

end Properties

/-- A document as far as it has been read: the lexemes that follow, why they may end early, the
meanings of handles, and the nodes of the anchors, which are unknown until the node is complete. -/
structure Composer where
  rest : List Lexeme
  stop : Stop
  handles : List (String × String)
  anchors : List (String × Option Node)

def plainHandles : List (String × String) := [("!", "!"), ("!!", coreTag "")]

namespace Composer

def peek (r : Composer) : Except Stop Lexeme :=
  match r.rest with
  | l :: _ => .ok l
  | [] => .error r.stop

def next (r : Composer) : Composer := { r with rest := r.rest.tail }

def meets (r : Composer) (ls : List Lexeme) : Except Stop Bool := do return ls.contains (← r.peek)

def expect (r : Composer) (l : Lexeme) : Except Stop Composer := do
  if (← r.peek) = l then return r.next else throw .malformed

def fullTag (r : Composer) (handle : Option String) (suffix : String) : Except Stop String :=
  match handle with
  | none => .ok suffix
  | some h =>
    match r.handles.lookup h with
    | some meaning => .ok (meaning ++ suffix)
    | none => .error .malformed

/-- The anchor and the tag before a node, in either order. -/
def properties (r : Composer) : Except Stop (Properties × Composer) := do
  match ← r.peek with
  | .anchor name =>
    match ← r.next.peek with
    | .tag handle suffix => return (⟨some name, ← r.fullTag handle suffix⟩, r.next.next)
    | _ => return (⟨some name, none⟩, r.next)
  | .tag handle suffix =>
    match ← r.next.peek with
    | .anchor name => return (⟨some name, ← r.fullTag handle suffix⟩, r.next.next)
    | _ => return (⟨none, ← r.fullTag handle suffix⟩, r.next)
  | _ => return (⟨none, none⟩, r)

/-- Takes an anchor note of; a document may use each name once. -/
def announce (r : Composer) : Option String → Except Stop Composer
  | none => .ok r
  | some name =>
    if (r.anchors.lookup name).isSome then .error .malformed
    else .ok { r with anchors := (name, none) :: r.anchors }

def tie (r : Composer) (anchor : Option String) (node : Node) : Composer :=
  match anchor with
  | none => r
  | some name => { r with anchors := (name, some node) :: r.anchors }

/-- Where a node stands. Block collections are not allowed in flow collections, and only the key or
value of a block mapping may be a sequence without a column of its own. -/
inductive Place where
  | flow
  | block
  | entry
  deriving DecidableEq

mutual

def node (place : Place) (r : Composer) : Nat → Except Stop (Node × Composer)
  | 0 => .error .malformed
  | fuel + 1 => do
    if let .alias name := ← r.peek then
      match r.anchors.lookup name with
      | some (some found) => return (found, r.next)
      | _ => throw .malformed
    let (p, r) ← r.properties
    let r ← r.announce p.anchor
    let (found, r) ← content place p r fuel
    return (found, r.tie p.anchor found)

/-- The content of a node behind its properties. A node with properties may be without content. -/
def content (place : Place) (p : Properties) (r : Composer) : Nat → Except Stop (Node × Composer)
  | 0 => .error .malformed
  | fuel + 1 => do
    match ← r.peek with
    | .scalar text plain whole => return (p.scalar text plain whole, r.next)
    | .flowSequence => do
      let (items, r) ← flowItems true r.next fuel
      return (.sequence (p.tagOr "seq") items, r)
    | .flowMapping => do
      let (entries, r) ← flowEntries true r.next fuel
      return (.ofEntries (p.tagOr "map") entries, r)
    | l =>
      if l = .blockEntry ∧ place = .entry then do
        let (items, r) ← blockItems [.blockEntry, .key, .value, .blockEnd] r fuel
        return (.sequence (p.tagOr "seq") items, r)
      else if l = .blockSequence ∧ place ≠ .flow then do
        let (items, r) ← blockItems [.blockEntry, .blockEnd] r.next fuel
        return (.sequence (p.tagOr "seq") items, ← r.expect .blockEnd)
      else if l = .blockMapping ∧ place ≠ .flow then do
        let (entries, r) ← blockEntries r.next fuel
        return (.ofEntries (p.tagOr "map") entries, ← r.expect .blockEnd)
      else if p.isEmpty then throw .malformed
      else return (p.scalar "" true true, r)

/-- A node, or its absence before one of some lexemes. -/
def nodeUnless (ends : List Lexeme) (place : Place) (r : Composer) :
    Nat → Except Stop (Node × Composer)
  | 0 => .error .malformed
  | fuel + 1 => do
    if ← r.meets ends then return (.absent, r) else node place r fuel

def blockItems (ends : List Lexeme) (r : Composer) : Nat → Except Stop (List Node × Composer)
  | 0 => .error .malformed
  | fuel + 1 => do
    if ← r.meets [.blockEntry] then
      let (item, r) ← nodeUnless ends .block r.next fuel
      let (items, r) ← blockItems ends r fuel
      return (item :: items, r)
    else return ([], r)

/-- The entries of a block mapping. A key may be without a value. -/
def blockEntries (r : Composer) : Nat → Except Stop (List (Node × Node) × Composer)
  | 0 => .error .malformed
  | fuel + 1 => do
    let ends := [.key, .value, .blockEnd]
    if ← r.meets [.key] then
      let (key, r) ← nodeUnless ends .entry r.next fuel
      let (value, r) ← valueAfter ends .entry r fuel
      let (entries, r) ← blockEntries r fuel
      return ((key, value) :: entries, r)
    else return ([], r)

/-- The value behind a key, if there is a colon. -/
def valueAfter (ends : List Lexeme) (place : Place) (r : Composer) :
    Nat → Except Stop (Node × Composer)
  | 0 => .error .malformed
  | fuel + 1 => do
    if ← r.meets [.value] then nodeUnless ends place r.next fuel else return (.absent, r)

/-- The items of a flow sequence and its end. A key among them makes a mapping of one entry. -/
def flowItems (first : Bool) (r : Composer) : Nat → Except Stop (List Node × Composer)
  | 0 => .error .malformed
  | fuel + 1 => do
    if ← r.meets [.flowSequenceEnd] then return ([], r.next)
    let r ← if first then pure r else r.expect .flowEntry
    let ends := [.flowEntry, .flowSequenceEnd]
    if ← r.meets [.flowSequenceEnd] then return ([], r.next)
    let (item, r) ←
      if ← r.meets [.key] then do
        let (key, r) ← nodeUnless (.value :: ends) .flow r.next fuel
        let (value, r) ← valueAfter ends .flow r fuel
        pure (Node.ofEntries (coreTag "map") [(key, value)], r)
      else node .flow r fuel
    let (items, r) ← flowItems false r fuel
    return (item :: items, r)

/-- The entries of a flow mapping and its end. A node alone is a key without a value. -/
def flowEntries (first : Bool) (r : Composer) : Nat → Except Stop (List (Node × Node) × Composer)
  | 0 => .error .malformed
  | fuel + 1 => do
    if ← r.meets [.flowMappingEnd] then return ([], r.next)
    let r ← if first then pure r else r.expect .flowEntry
    let ends := [.flowEntry, .flowMappingEnd]
    if ← r.meets [.flowMappingEnd] then return ([], r.next)
    let (entry, r) ←
      if ← r.meets [.key] then do
        let (key, r) ← nodeUnless (.value :: ends) .flow r.next fuel
        let (value, r) ← valueAfter ends .flow r fuel
        pure ((key, value), r)
      else do
        let (key, r) ← node .flow r fuel
        pure ((key, Node.absent), r)
    let (entries, r) ← flowEntries false r fuel
    return (entry :: entries, r)

end

/-- Enough fuel for what follows: between two lexemes the functions nest a few deep at most. -/
def fuel (r : Composer) : Nat := 6 * r.rest.length + 8

/-- Directives: at most one version, which has to be of the first major number, and handles with
different names. -/
def directives (r : Composer) (version : Bool) : Nat → Except Stop Composer
  | 0 => .ok r
  | fuel + 1 => do
    match ← r.peek with
    | .version major _ =>
      if version ∨ major ≠ 1 then throw .malformed else directives r.next true fuel
    | .tagHandle handle meaning =>
      if (r.handles.lookup handle).isSome then throw .malformed
      else directives { r.next with handles := (handle, meaning) :: r.handles } version fuel
    | .otherDirective => directives r.next version fuel
    | _ => return r

def skipEnds (r : Composer) : Nat → Except Stop Composer
  | 0 => .ok r
  | fuel + 1 => do
    if ← r.meets [.documentEnd] then r.next.skipEnds fuel else return r

/-- The start of a document, unless the text ends: its directives and its mark. -/
def documentStart? (r : Composer) : Except Stop (Option Composer) := do
  let r ← r.skipEnds r.rest.length
  if ← r.meets [.streamEnd] then return none
  let r ← { r with handles := [] }.directives false r.rest.length
  let r ← r.expect .documentStart
  return some { r with handles := r.handles ++ plainHandles }

/-- Whether the next lexeme is a directive or marks the start of a document or the end of the
text. -/
def atStart (r : Composer) : Except Stop Bool := do
  match ← r.peek with
  | .version .. => return true
  | .tagHandle .. => return true
  | .otherDirective => return true
  | .documentStart => return true
  | .streamEnd => return true
  | _ => return false

/-- The node of the first document, if there is one. -/
def first? (r : Composer) : Except Stop (Option (Node × Composer)) := do
  if ← r.atStart then
    match ← r.documentStart? with
    | none => return none
    | some r => do
      let atEnd := (← r.atStart) || (← r.meets [.documentEnd])
      if atEnd then return some (.absent, r) else return some (← r.node .block r.fuel)
  else return some (← { r with handles := plainHandles }.node .block r.fuel)

end Composer

/-- The node of a text that holds one document, or none. -/
def document? (text : String) : Except Stop (Option Node) := do
  let (ls, stop) := lexemes text
  match ← Composer.first? ⟨ls, stop.getD .malformed, [], []⟩ with
  | none => return none
  | some (node, r) => do
    let r ← if ← r.meets [.documentEnd] then pure r.next else pure r
    match ← r.documentStart? with
    | none => return some node
    | some _ => throw .malformed

end DesignTokens.Yaml
