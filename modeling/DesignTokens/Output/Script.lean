import DesignTokens.Json.Writer
import DesignTokens.Output.Camel
import DesignTokens.Output.Css

/-! Modes as trees with keys in camel case, in JSON files and in script modules, and the indexes
that bind modules together. -/
namespace DesignTokens

def jsonText (v : Value) : Except Failure String := Json.indented v

def camelText (tree : Value) : Except Failure String :=
  if hasCamelForm tree then jsonText (camelizeKeys tree) else .error (.value .unwritableInteger)

namespace VariableSet

def camelJson [Platform] (s : VariableSet) : Except Failure String := do
  camelText (← s.renderTree)

end VariableSet

namespace ModeSet

def scriptModule [Platform] (m : ModeSet) (mode : String) : Except Failure String := do
  let tree ← (← m.require mode).camelJson
  return s!"export default {tree}\n"

end ModeSet

/-- The module that imports its siblings and exports them together. -/
def scriptIndex (modules : List String) : String :=
  let imports := modules.map fun m => s!"import {identifierOf m} from './{m}'"
  let names := ", ".intercalate (modules.map identifierOf)
  "\n".intercalate (imports ++ [s!"export default \x7b {names} \x7d"]) ++ "\n"

end DesignTokens
