import DesignTokens.Color
import DesignTokens.Output.Css

/-! Modes as design token files of the community group's format: each leaf becomes an object that
holds its value, and its type if it is a colour or a number. -/
namespace DesignTokens

/-- The type of a value, if the format has one for it. -/
def dtcgType? (v : Value) : Option String :=
  if Color.isColor v then some "color"
  else match v with
    | .int _ => some "number"
    | .float _ => some "number"
    | _ => none

def dtcgLeaf (v : Value) : Value :=
  let type := match dtcgType? v with
    | some name => [(.text "$type", .text name)]
    | none => []
  .map ((.text "$value", v) :: type)

mutual

def toDtcg : Value → Value
  | .map es => .map (entriesToDtcg es)
  | v => dtcgLeaf v

def entriesToDtcg : List (Value × Value) → List (Value × Value)
  | [] => []
  | (k, v) :: rest => (k, toDtcg v) :: entriesToDtcg rest

end

namespace ModeSet

def dtcgTokens [Platform] (m : ModeSet) (mode : String) : Except Failure Value := do
  return toDtcg (← (← m.require mode).renderTree)

end ModeSet

end DesignTokens
