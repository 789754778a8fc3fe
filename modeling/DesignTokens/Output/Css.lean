import DesignTokens.ModeSet

/-! Modes as custom properties. Each mode is a mixin that declares one property for each variable,
by its full name. -/
namespace DesignTokens

mutual

/-- A rendered value as the value of a property. The items of lists are set apart by commas. Like
the plain text it is meant for values that have a text. -/
def cssText : Value → String
  | .bool b => if b then "true" else "false"
  | .list xs => ", ".intercalate (cssTexts xs)
  | .tuple xs => ", ".intercalate (cssTexts xs)
  | v => v.plain

def cssTexts : List Value → List String
  | [] => []
  | v :: vs => cssText v :: cssTexts vs

end

namespace ModeSet

def require (m : ModeSet) (mode : String) : Except Failure VariableSet :=
  match m.get? mode with
  | some s => .ok s
  | none => .error (.fault (.key s!"Type '{m.type}' has no mode '{mode}'"))

def propertyLine (name : String) (v : Value) : String := s!"    --{name}: {cssText v};"

def mixinText (m : ModeSet) (namespaceName mode : String) (properties : List (String × Value)) :
    String :=
  let lines := properties.map fun (name, v) => propertyLine name v
  "\n".intercalate <|
    s!"@mixin {namespaceName}-{m.type}-{mode} \x7b" :: "  & \x7b" :: lines ++
      ["  \x7d", "\x7d", ""]

def mixin [Platform] (m : ModeSet) (namespaceName : Value) (mode : String) :
    Except Failure String := do
  let s ← m.require mode
  let name ← namespaceName.plain?
  let properties ← s.renderVariables
  if !properties.all (·.2.hasText) then throw (.value .unwritableInteger)
  return m.mixinText name mode properties

end ModeSet

end DesignTokens
