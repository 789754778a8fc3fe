import DesignTokens.Name
import DesignTokens.Number.Reading
import DesignTokens.Theme

/-! The variables of one mode. Trees of tokens are flattened into named variables one after the
other; references are resolved at once, against the variables that are already there. -/
namespace DesignTokens

structure Variable where
  name : String
  value : Value
  path : List String
  mode : String

namespace Variable

def isDeferred (v : Variable) : Bool :=
  match v.value with
  | .deferred _ => true
  | _ => false

def dotted (v : Variable) : String := dottedPath v.path

end Variable

abbrev Leaf := List String × Value

mutual

/-- The leaves of a value that stands at a path, in order. Groups without leaves leave nothing. -/
def leavesAt (path : List String) : Value → List Leaf
  | .map es => leavesOf path es
  | .group cs => leavesOf path cs
  | v => [(path, v)]

/-- The leaves of the entries of a group that stands at a path, in order. -/
def leavesOf (path : List String) : List (Value × Value) → List Leaf
  | [] => []
  | (k, v) :: rest => leavesAt (path ++ [k.plain]) v ++ leavesOf path rest

end

mutual

/-- How many leaves stand in front of the first key without a text, if there is such a key in the
value. A key stands in front of all that is under it. -/
def textlessIn? : Value → Option Nat
  | .map es => textlessAmong? es
  | .group cs => textlessAmong? cs
  | _ => none

def textlessAmong? : List (Value × Value) → Option Nat
  | [] => none
  | (k, v) :: rest =>
    if k.hasText then
      match textlessIn? v with
      | some n => some n
      | none => (textlessAmong? rest).map ((leavesAt [] v).length + ·)
    else some 0

end

/-- The leaves of the entries of a tree up to the first key without a text. -/
def readableLeaves (es : List (Value × Value)) : List Leaf :=
  match textlessAmong? es with
  | none => leavesOf [] es
  | some n => (leavesOf [] es).take n

/-- The proper prefixes of a path, the empty one left out. -/
def properPrefixes (path : List String) : List (List String) :=
  (List.range (path.length - 1)).map fun i => path.take (i + 1)

/-- The variables of one mode in the order of their names' first insertion, and all paths that
were ever groups. -/
structure VariableSet where
  mode : String
  typePrefix : String
  strict : Bool
  toList : List Variable
  groups : List (List String)
  finalized : Bool

namespace VariableSet

def empty (mode typePrefix : String) (strict : Bool) : VariableSet :=
  ⟨mode, typePrefix, strict, [], [], false⟩

def nameAt (s : VariableSet) (path : List String) : String := fullName s.typePrefix path

def get? (s : VariableSet) (name : String) : Option Variable :=
  s.toList.find? (·.name == name)

def getPath? (s : VariableSet) (dotted : String) : Option Variable :=
  s.get? (s.nameAt (splitPath dotted))

def names (s : VariableSet) : List String := s.toList.map (·.name)

def contains (s : VariableSet) (name : String) : Bool := (s.get? name).isSome

def size (s : VariableSet) : Nat := s.toList.length

def finalize (s : VariableSet) : VariableSet := { s with finalized := true }

/-- The item of nested rows at a row of places, if each segment is a place that is there. -/
def indexInto? (v : Value) : List String → Option Value
  | [] => some v
  | segment :: rest =>
    match v, Number.readInt? segment with
    | .list xs, some i => (itemAt? xs i).bind (indexInto? · rest)
    | .tuple xs, some i => (itemAt? xs i).bind (indexInto? · rest)
    | _, _ => none

/-- The longest proper start of a path that is the path of a variable's name, with the rest. -/
def base? (s : VariableSet) (segments : List String) : Option (Variable × List String) :=
  (properPrefixes segments).reverse.findSome? fun start =>
    (s.get? (s.nameAt start)).map fun v => (v, segments.drop start.length)

/-- The value that a reference has now: that of the variable it names, or an item of the row that
the longest start of its path names. -/
def resolveReference (s : VariableSet) (dotted referrer : String) : Except Failure Value :=
  let segments := splitPath dotted
  let name := s.nameAt segments
  let undefined : Except Failure Value :=
    .error (.of (.undefinedReference name s.mode (some referrer)))
  match s.get? name with
  | some v => .ok v.value
  | none =>
    match s.base? segments with
    | none => undefined
    | some (v, rest) =>
      match indexInto? v.value rest with
      | some found => .ok found
      | none => undefined

def resolve (s : VariableSet) (v : Value) (referrer : String) : Except Failure Value :=
  match Token.of v with
  | .literal v => .ok v
  | .deferred d => .ok (.deferred d)
  | .reference path => s.resolveReference path referrer
  | .group _ => .error (.kind (.unsuitable v.kind))

/-- The names of the variables on the way to a path. -/
def namesAbove (s : VariableSet) (path : List String) : List String :=
  (properPrefixes path).filterMap fun start =>
    match s.get? (s.nameAt start) with
    | some v => if v.path = start then some v.name else none
    | none => none

/-- The names of the variables inside a path, which are looked for if it was ever a group. -/
def namesInside (s : VariableSet) (path : List String) : List String :=
  if s.groups.contains path then
    (s.toList.filter fun v => path.length < v.path.length && path.isPrefixOf v.path).map (·.name)
  else []

/-- The names of the variables that a leaf at a path replaces. -/
def shadowedBy (s : VariableSet) (path : List String) : List String :=
  s.namesAbove path ++ s.namesInside path

/-- Stores a variable. A name that is there keeps its place. -/
def putVariable (v : Variable) : List Variable → List Variable
  | [] => [v]
  | w :: rest => if w.name = v.name then v :: rest else w :: putVariable v rest

/-- Stores a value at a path; what it replaces is dropped first. -/
def store (s : VariableSet) (path : List String) (value : Value) : VariableSet :=
  let shadowed := s.shadowedBy path
  let kept := s.toList.filter fun v => !shadowed.contains v.name
  { s with
    toList := putVariable ⟨s.nameAt path, value, path, s.mode⟩ kept
    groups := s.groups ++ (properPrefixes path).filter fun g => !s.groups.contains g }

/-- The flattening of one tree as far as it has come: the names it has declared, and what there is
to tell. -/
structure Flattening where
  set : VariableSet
  seen : List String
  warnings : List Warning

/-- Inserts a leaf. Within one tree a name may be declared once; a set that is not strict lets
the last declaration win. -/
def Flattening.insert (f : Flattening) (leaf : Leaf) : Flattening × Option Failure :=
  let name := f.set.nameAt leaf.1
  let again := f.seen.contains name
  if again && f.set.strict then (f, some (.of (.duplicateVariable name f.set.mode))) else
  let warnings := if again then f.warnings ++ [.declaredTwice name f.set.mode] else f.warnings
  let seen := name :: f.seen
  match f.set.resolve leaf.2 name with
  | .error failure => (⟨f.set, seen, warnings⟩, some failure)
  | .ok value => (⟨f.set.store leaf.1 value, seen, warnings⟩, none)

/-- Inserts leaves up to the first failure; what was inserted before it stays. -/
def Flattening.insertAll (f : Flattening) : List Leaf → Flattening × Option Failure
  | [] => (f, none)
  | leaf :: rest =>
    match f.insert leaf with
    | (f, none) => f.insertAll rest
    | stopped => stopped

/-- Inserts the leaves of a tree up to the first failure, which may be a key without a text. -/
def Flattening.insertTree (f : Flattening) (es : List (Value × Value)) :
    Flattening × Option Failure :=
  match f.insertAll (readableLeaves es) with
  | (f, none) =>
    (f, if (textlessAmong? es).isSome then some (.value .unwritableInteger) else none)
  | stopped => stopped

/-- The set after an addition, what there is to tell, and the failure that ended it, if any. -/
structure Outcome where
  set : VariableSet
  warnings : List Warning
  failure : Option Failure

def add (s : VariableSet) (tree : Value) : Outcome :=
  if s.finalized then ⟨s, [], some (.of (.variablesFinalized s.mode s.typePrefix))⟩ else
  match tree with
  | .map es =>
    let (f, failure) := Flattening.insertTree ⟨s, [], []⟩ es
    ⟨f.set, f.warnings, failure⟩
  | _ => ⟨s, [], some (.kind (.notAMapping s.mode))⟩

/-- Flattens trees from left to right, up to the first failure. -/
def addAll (s : VariableSet) : List Value → Outcome
  | [] => ⟨s, [], none⟩
  | tree :: rest =>
    let first := s.add tree
    match first.failure with
    | some _ => first
    | none =>
      let others := first.set.addAll rest
      { others with warnings := first.warnings ++ others.warnings }

/-- Puts a value at a path of a tree. It may neither pass through a leaf nor replace a group. -/
def plant (v : Variable) : List String → List (Value × Value) →
    Except Failure (List (Value × Value))
  | [], es => .ok es
  | [leaf], es =>
    match Value.entry? leaf es with
    | some (.map _) => .error (.of (.collidesWithGroup v.name v.mode))
    | _ => .ok (Value.insertEntry (.text leaf) v.value es)
  | segment :: rest, es =>
    match Value.entry? segment es with
    | none => (plant v rest []).map fun inner => Value.insertEntry (.text segment) (.map inner) es
    | some (.map inner) =>
      (plant v rest inner).map fun inner => Value.insertEntry (.text segment) (.map inner) es
    | some _ => .error (.of (.nestsUnderLeaf v.name segment v.mode))

def treeEntries (s : VariableSet) : Except Failure (List (Value × Value)) :=
  s.toList.foldlM (fun es v => plant v v.path es) []

/-- The tree in which each variable stands at its path. -/
def tree (s : VariableSet) : Except Failure Value := s.treeEntries.map .map

def summary (s : VariableSet) : String :=
  let mode := Text.quoted s.mode
  let typePrefix := Text.quoted s.typePrefix
  let state := if s.finalized then "finalized" else "building"
  s!"VariableCollection(mode={mode}, prefix={typePrefix}, variables={s.size}, {state})"

end VariableSet

end DesignTokens
