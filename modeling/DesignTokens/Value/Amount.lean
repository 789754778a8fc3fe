import DesignTokens.Failure
import DesignTokens.Number.Reading

/-! Values as amounts: numbers, truth values and texts that spell a number. -/
namespace DesignTokens.Value

/-- The floating-point number of an integer, unless it is beyond all finite ones. -/
def amountOfInt (i : Int) : Except Failure Binary64 :=
  match Binary64.ofInt i with
  | .infinite _ => .error (.fault .overflow)
  | x => .ok x

def amount : Value → Except Failure Binary64
  | float x => .ok x
  | bool b => amountOfInt b.toInt
  | int i => amountOfInt i
  | text s =>
    match Number.readFloat? s with
    | some x => .ok x
    | none => .error (.value (.notANumber s))
  | v => .error (.kind (.notANumber v.kind))

/-- The value with its sign turned; texts and values without a number have no sign. -/
def negated : Value → Except Failure Value
  | float x => .ok (.float (-x))
  | bool b => .ok (.int (-b.toInt))
  | int i => .ok (.int (-i))
  | v => .error (.kind (.noNegation v.kind))

end DesignTokens.Value
