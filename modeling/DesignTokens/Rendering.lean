import DesignTokens.Evaluation
import DesignTokens.VariableSet

/-! Rendering a mode: all its values are evaluated under its own tree. -/
namespace DesignTokens

variable [Platform]

mutual

def renderNode (theme : Value) : Value → Except Failure Value
  | .map es => (renderEntries theme es).map .map
  | v => evaluate theme v

def renderEntries (theme : Value) :
    List (Value × Value) → Except Failure (List (Value × Value))
  | [] => .ok []
  | (k, v) :: rest => do
    let v ← renderNode theme v
    return (k, v) :: (← renderEntries theme rest)

end

namespace VariableSet

def renderTree (s : VariableSet) : Except Failure Value := do
  let theme ← s.tree
  renderNode theme theme

def renderVariables (s : VariableSet) : Except Failure (List (String × Value)) := do
  let theme ← s.tree
  s.toList.mapM fun v => do return (v.name, ← evaluate theme v.value)

end VariableSet

end DesignTokens
