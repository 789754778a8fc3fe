import DesignTokens.Name
import DesignTokens.Number.Reading
import DesignTokens.Text.Digit

/-! Looking a dotted path up in a theme: names lead into mappings, whole numbers into rows. -/
namespace DesignTokens

/-- The item of a row at a place; negative places count from the end. -/
def itemAt? (items : List Value) (i : Int) : Option Value :=
  if 0 ≤ i then items[i.toNat]?
  else if -i ≤ items.length then items[(items.length + i).toNat]? else none

/-- Whether a segment looks like a place in a row: digits of any kind after any number of minus
signs. -/
def looksLikePlace (segment : String) : Bool :=
  let cs := segment.toList.dropWhile (· == '-')
  !cs.isEmpty && cs.all Text.isDigitLike

def step (path : String) (node : Value) (segment : String) : Except Failure Value :=
  let inRow (items : List Value) : Except Failure Value :=
    if looksLikePlace segment then
      match Number.readInt? segment with
      | none => .error (.value (.notAnInteger 10 segment))
      | some i =>
        match itemAt? items i with
        | some v => .ok v
        | none => .error (.render (.outOfRange segment path))
    else .error (.render (.noValue path))
  match node with
  | .map es =>
    match Value.entry? segment es with
    | some v => .ok v
    | none => .error (.render (.noValue path))
  | .list xs => inRow xs
  | .tuple xs => inRow xs
  | _ => .error (.render (.noValue path))

def lookup (theme : Value) (path : String) : Except Failure Value :=
  (splitPath path).foldlM (step path) theme

end DesignTokens
