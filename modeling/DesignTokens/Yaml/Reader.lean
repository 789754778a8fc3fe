import DesignTokens.Yaml.Node

/-! A YAML library to run with. The collections of a document are built level by level, the parts of
a tag at once, and every tag calls when it is met. Bytes and sets are no token values: a document
that holds them is refused once all else in it is built, and so is an alias for what encloses it. -/
namespace DesignTokens.Yaml

namespace Reading

def bind {α β : Type} : Reading α → (α → Reading β) → Reading β
  | done a, next => next a
  | stopped stop, _ => .stopped stop
  | call c resume, next => .call c fun v => (resume v).bind next

instance : Monad Reading where
  pure := .done
  bind := bind

def ofExcept {α : Type} : Except Stop α → Reading α
  | .ok a => .done a
  | .error stop => .stopped stop

def ask (c : Call) : Reading Value := .call c .done

end Reading

def colorTag? : String → Option ColorTag
  | "!alpha" => some .alpha
  | "!lighten" => some .lighten
  | "!darken" => some .darken
  | _ => none

def callOf? (tag : String) (parts : List Value) : Option Call :=
  match colorTag? tag with
  | some color => some (.color color parts)
  | none => if tag = "!fmt" then some (.format parts) else none

/-- The value of a scalar under a tag that does not call. -/
def scalarValue (tag text : String) : Except Stop Value :=
  let faulty : Except Fault Value → Except Stop Value := Except.mapError .fault
  if tag = textTag then .ok (.text text)
  else if tag = nullTag then .ok .null
  else if tag = coreTag "bool" then faulty (truthOf text)
  else if tag = coreTag "int" then faulty (intOf text)
  else if tag = coreTag "float" then faulty (floatOf text)
  else if tag = coreTag "timestamp" then faulty (stampOf text)
  else .error .malformed

mutual

/-- The text of a node that is read as a scalar, and whether it is whole: a mapping gives what stands
under its value key. -/
def scalarText? : Node → Option (String × Bool)
  | .scalar _ text whole => some (text, whole)
  | .sequence _ _ => none
  | .mapping _ entries _ => entryText? entries

def entryText? : List (Node × Node) → Option (String × Bool)
  | [] => none
  | (k, v) :: rest => if k.tag = valueTag then scalarText? v else entryText? rest

end

def readScalar (expressions : Bool) (node : Node) : Reading Value :=
  match scalarText? node with
  | none => .stopped .malformed
  | some (text, whole) =>
    if expressions && node.tag == "!ref" then .ask (.reference (if whole then some text else none))
    else .ofExcept (scalarValue node.tag text)

/-- The text of a key that is read as it is written: a lone equals sign. -/
def plainKey? : Node → Option String
  | .scalar tag text _ => if tag = valueTag then some text else none
  | _ => none

def entryOf : Node → Reading (Node × Node)
  | .mapping _ [entry] _ => .done entry
  | _ => .stopped .malformed

section Build

variable (expressions : Bool)

mutual

/-- The value of a node with all its parts. -/
def build : Node → Reading Value
  | .scalar tag text whole => readScalar expressions (.scalar tag text whole)
  | .sequence tag items =>
    if tag = coreTag "seq" then do return .list (← buildItems items)
    else if tag = coreTag "omap" ∨ tag = coreTag "pairs" then do return .list (← buildPairs items)
    else if expressions && (callOf? tag []).isSome then do
      match callOf? tag (← buildItems items) with
      | some c => .ask c
      | none => .stopped .malformed
    else readScalar expressions (.sequence tag items)
  | .mapping tag entries sound =>
    if tag = coreTag "map" then do
      if !sound then .stopped .malformed
      return .map (Value.ofEntries (← buildEntries entries))
    else if tag = coreTag "set" then do
      let _ ← buildEntries entries
      .stopped .malformed
    else readScalar expressions (.mapping tag entries sound)

def buildItems : List Node → Reading (List Value)
  | [] => .done []
  | n :: rest => do return (← build n) :: (← buildItems rest)

def buildPairs : List Node → Reading (List Value)
  | [] => .done []
  | .mapping _ [(k, v)] _ :: rest => do
    let pair := Value.tuple [← build k, ← build v]
    return pair :: (← buildPairs rest)
  | _ :: _ => .stopped .malformed

def buildEntries : List (Node × Node) → Reading (List (Value × Value))
  | [] => .done []
  | (k, v) :: rest => do
    let key ← match plainKey? k with
      | some text => pure (.text text)
      | none => build k
    if !key.isKey then .stopped .malformed
    let value ← build v
    return (key, value) :: (← buildEntries rest)

end

/-- A value under construction. A collection stands as a node until its parts are built; what is no
token value is kept for the parts that it may hold. -/
inductive Draft where
  | value (v : Value)
  | node (n : Node)
  | list (items : List Draft)
  | pairs (items : List (Draft × Draft))
  | map (entries : List (Value × Draft))
  | foreign (parts : List Draft)

/-- A node as it is met on the way: collections are put off, all else is built. -/
def draft : Node → Reading Draft
  | .scalar tag text whole =>
    if tag = coreTag "binary" then .done (.foreign []) else
    if tag = coreTag "seq" ∨ tag = coreTag "omap" ∨ tag = coreTag "pairs" ∨ tag = coreTag "map" ∨
      tag = coreTag "set" then .done (.node (.scalar tag text whole))
    else do return .value (← build expressions (.scalar tag text whole))
  | n =>
    if n.tag = coreTag "seq" ∨ n.tag = coreTag "omap" ∨ n.tag = coreTag "pairs" ∨
      n.tag = coreTag "map" ∨ n.tag = coreTag "set" then .done (.node n)
    else do return .value (← build expressions n)

/-- The drafts of entries. A collection is no key. -/
def draftEntries : List (Node × Node) → Reading (List (Value × Draft))
  | [] => .done []
  | (k, v) :: rest => do
    let key ← match plainKey? k with
      | some text => pure (.value (.text text))
      | none => draft expressions k
    match key with
    | .value key => do
      if !key.isKey then .stopped .malformed
      let value ← draft expressions v
      return (key, value) :: (← draftEntries rest)
    | _ => .stopped .malformed

/-- The parts of a collection that was put off. -/
def draftParts : Node → Reading Draft
  | .sequence tag items =>
    if tag = coreTag "seq" then do return .list (← items.mapM (draft expressions))
    else if tag = coreTag "omap" ∨ tag = coreTag "pairs" then do
      return .pairs (← items.mapM fun item => do
        let (k, v) ← entryOf item
        return (← draft expressions k, ← draft expressions v))
    else .stopped .malformed
  | .mapping tag entries true => do
    if tag = coreTag "map" then return .map (← draftEntries expressions entries)
    else if tag = coreTag "set" then
      return .foreign ((← draftEntries expressions entries).map (·.2))
    else .stopped .malformed
  | _ => .stopped .malformed

mutual

def advance : Draft → Reading Draft
  | .value v => .done (.value v)
  | .node n => draftParts expressions n
  | .list items => do return .list (← advanceAll items)
  | .pairs items => do return .pairs (← advancePairs items)
  | .map entries => do return .map (← advanceEntries entries)
  | .foreign parts => do return .foreign (← advanceAll parts)

def advanceAll : List Draft → Reading (List Draft)
  | [] => .done []
  | d :: rest => do return (← advance d) :: (← advanceAll rest)

def advancePairs : List (Draft × Draft) → Reading (List (Draft × Draft))
  | [] => .done []
  | (k, v) :: rest => do return (← advance k, ← advance v) :: (← advancePairs rest)

def advanceEntries : List (Value × Draft) → Reading (List (Value × Draft))
  | [] => .done []
  | (k, v) :: rest => do return (k, ← advance v) :: (← advanceEntries rest)

end

mutual

def Draft.isComplete : Draft → Bool
  | .value _ => true
  | .node _ => false
  | .list items => areComplete items
  | .pairs items => pairsAreComplete items
  | .map entries => entriesAreComplete entries
  | .foreign parts => areComplete parts

def Draft.areComplete : List Draft → Bool
  | [] => true
  | d :: rest => d.isComplete && areComplete rest

def Draft.pairsAreComplete : List (Draft × Draft) → Bool
  | [] => true
  | (k, v) :: rest => k.isComplete && v.isComplete && pairsAreComplete rest

def Draft.entriesAreComplete : List (Value × Draft) → Bool
  | [] => true
  | (_, v) :: rest => v.isComplete && entriesAreComplete rest

end

mutual

def Draft.value? : Draft → Option Value
  | .value v => some v
  | .node _ => none
  | .list items => (values? items).map .list
  | .pairs items => (pairValues? items).map .list
  | .map entries => (entryValues? entries).map fun es => .map (Value.ofEntries es)
  | .foreign _ => none

def Draft.values? : List Draft → Option (List Value)
  | [] => some []
  | d :: rest => do return (← d.value?) :: (← values? rest)

def Draft.pairValues? : List (Draft × Draft) → Option (List Value)
  | [] => some []
  | (k, v) :: rest => do return .tuple [← k.value?, ← v.value?] :: (← pairValues? rest)

def Draft.entryValues? : List (Value × Draft) → Option (List (Value × Value))
  | [] => some []
  | (k, v) :: rest => do return (k, ← v.value?) :: (← entryValues? rest)

end

/-- The value of a draft, so many levels deep. -/
def settle (d : Draft) : Nat → Reading Value
  | 0 => .stopped .malformed
  | fuel + 1 => do
    if d.isComplete then .ofExcept ((d.value?.map .ok).getD (.error .malformed))
    else settle (← advance expressions d) fuel

/-- The reading of a text, which holds at most one document. -/
def readingOf (text : String) : Reading Value := do
  match ← .ofExcept (document? text) with
  | none => return .null
  | some node => settle expressions (← draft expressions node) (text.length + 2)

end Build

@[reducible] def Library.standard : Library where
  plain text := (readingOf false text).run
  tagged := readingOf true

instance : Library := .standard

end DesignTokens.Yaml
