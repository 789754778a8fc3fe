import DesignTokens.Calendar
import DesignTokens.Number.Binary64

/-! Token values. A tree of tokens mixes plain data, references to other tokens, and values whose
computation is deferred until a theme is known. -/
namespace DesignTokens

/-- A failure that a caller's own function of the theme announces. -/
inductive Announced where
  | value (text : String)
  | type (text : String)
  | key (text : String)
  | render (text : String)
  deriving DecidableEq

mutual

/-- A token value. The entries of a mapping stand in the order of their first insertion. -/
inductive Value where
  | null
  | bool (b : Bool)
  | int (i : Int)
  | float (x : Binary64)
  | text (s : String)
  | date (d : Date)
  | time (t : ClockTime)
  | moment (m : Moment)
  | list (items : List Value)
  | tuple (items : List Value)
  | map (entries : List (Value × Value))
  | ref (path : String)
  | deferred (d : Deferred)
  | function (name : String) (action : Action)
  | literal (value : Value)
  | group (children : List (Value × Value))

/-- A value to be computed from a theme: a colour with a given alpha, a lighter or darker colour, a
filled template, or a caller's function under a description. -/
inductive Deferred where
  | alpha (color amount : Value)
  | lighten (color amount : Value)
  | darken (color amount : Value)
  | format (template : String) (parts : List Value)
  | described (description name : String) (action : Action)

/-- What a caller's function does with a theme: answer a value, look up a path, answer itself, or
fail. -/
inductive Action where
  | give (value : Value)
  | find (path : String)
  | again
  | fail (failure : Announced)

end

instance : Inhabited Value := ⟨.null⟩

instance : Coe String Value := ⟨.text⟩

namespace Value

def kind : Value → String
  | null => "NoneType"
  | bool _ => "bool"
  | int _ => "int"
  | float _ => "float"
  | text _ => "str"
  | date _ => "date"
  | time _ => "time"
  | moment _ => "datetime"
  | list _ => "list"
  | tuple _ => "tuple"
  | map _ => "dict"
  | ref _ => "ReferenceValue"
  | deferred _ => "DeferredValue"
  | function _ _ => "function"
  | literal _ => "LiteralValue"
  | group _ => "NestedValue"

/-- The number that a value is for comparison; truth values count as one and zero. -/
def number? : Value → Option (Int ⊕ Binary64)
  | bool b => some (.inl b.toInt)
  | int i => some (.inl i)
  | float x => some (.inr x)
  | _ => none

def sameNumber : Int ⊕ Binary64 → Int ⊕ Binary64 → Bool
  | .inl i, .inl j => i == j
  | .inr x, .inr y => x.same y
  | .inl i, .inr x => equalsInt x i
  | .inr x, .inl i => equalsInt x i
where
  /-- Whether a floating-point number is exactly the integer. -/
  equalsInt (x : Binary64) (i : Int) : Bool :=
    match x with
    | .finite s m e =>
      let low := min e 0
      Binary64.signedAt s m e low == i * Int.ofNat (Nat.pow 2 (-low).toNat)
    | _ => false

mutual

/-- Whether two values are one key of a mapping. Numbers are compared as numbers, and computed
values are never one key. -/
def sameKey : Value → Value → Bool
  | null, null => true
  | text s, text t => s == t
  | date d, date d' => d == d'
  | time t, time t' => t == t'
  | moment m, moment m' => m == m'
  | ref p, ref p' => p == p'
  | tuple xs, tuple ys => sameKeys xs ys
  | literal v, literal w => sameKey v w
  | v, w =>
    match number? v, number? w with
    | some a, some b => sameNumber a b
    | _, _ => false

def sameKeys : List Value → List Value → Bool
  | [], [] => true
  | v :: vs, w :: ws => sameKey v w && sameKeys vs ws
  | _, _ => false

end

mutual

/-- Whether a value may be a key: nothing that holds a list or a mapping may. -/
def isKey : Value → Bool
  | list _ => false
  | map _ => false
  | group _ => false
  | tuple xs => areKeys xs
  | literal v => isKey v
  | _ => true

def areKeys : List Value → Bool
  | [] => true
  | v :: vs => isKey v && areKeys vs

end

/-- Adds an entry to a mapping. A key that is there keeps its place and takes the new value. -/
def insertEntry (key value : Value) : List (Value × Value) → List (Value × Value)
  | [] => [(key, value)]
  | (k, v) :: rest =>
    if sameKey k key then (k, value) :: rest else (k, v) :: insertEntry key value rest

def ofEntries (entries : List (Value × Value)) : List (Value × Value) :=
  entries.foldl (fun acc (k, v) => insertEntry k v acc) []

def entry? (key : String) : List (Value × Value) → Option Value
  | [] => none
  | (k, v) :: rest => if sameKey k (text key) then some v else entry? key rest

/-- Whether a value counts as true: all do but nothing, zero and what is empty. -/
def truthy : Value → Bool
  | null => false
  | bool b => b
  | int i => i != 0
  | float x => !x.isZero
  | text s => s != ""
  | list xs => !xs.isEmpty
  | tuple xs => !xs.isEmpty
  | map es => !es.isEmpty
  | _ => true

end Value

inductive Token where
  | literal (value : Value)
  | reference (path : String)
  | deferred (d : Deferred)
  | group (children : List (Value × Value))

/-- Tells a value apart. Mappings are groups, a caller's function is deferred under its name, and
everything else stands for itself. -/
def Token.of : Value → Token
  | .literal v => .literal v
  | .ref p => .reference p
  | .deferred d => .deferred d
  | .group cs => .group cs
  | .map es => .group es
  | .function name action => .deferred (.described name name action)
  | v => .literal v

def Token.toValue : Token → Value
  | .literal v => .literal v
  | .reference p => .ref p
  | .deferred d => .deferred d
  | .group cs => .group cs

end DesignTokens
