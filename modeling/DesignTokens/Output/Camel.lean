import DesignTokens.Text.Blank
import DesignTokens.Text.Case
import DesignTokens.Text.Identifier
import DesignTokens.Value.Written

/-! Keys in camel case: words lose what separates them, and all but the first begin with a capital.
Only the first character of a word is changed. -/
namespace DesignTokens

def separatesWords (c : Char) : Bool := c == '-' || c == '_' || Text.isBlank c

def withFirst (change : Char → List Char) : List Char → List Char
  | [] => []
  | c :: rest => change c ++ rest

/-- The key in camel case. A key without words stays as it is. -/
def toCamel (key : String) : String :=
  match Text.wordsBetween separatesWords key.toList with
  | [] => key
  | first :: rest =>
    String.ofList (withFirst Text.lowerChar first ++ rest.flatMap (withFirst Text.upperChar))

mutual

/-- The value with the keys of its mappings in camel case, also within lists. Of keys that become
the same the first keeps its place and the last its value. -/
def camelizeKeys : Value → Value
  | .map es => .map (Value.ofEntries (camelizeEntries es))
  | .list xs => .list (camelizeItems xs)
  | v => v

def camelizeItems : List Value → List Value
  | [] => []
  | v :: vs => camelizeKeys v :: camelizeItems vs

def camelizeEntries : List (Value × Value) → List (Value × Value)
  | [] => []
  | (k, v) :: rest => (.text (toCamel k.plain), camelizeKeys v) :: camelizeEntries rest

end

mutual

/-- Whether the keys that are put in camel case have texts. -/
def hasCamelForm : Value → Bool
  | .map es => entriesHaveCamelForm es
  | .list xs => haveCamelForm xs
  | _ => true

def haveCamelForm : List Value → Bool
  | [] => true
  | v :: vs => hasCamelForm v && haveCamelForm vs

def entriesHaveCamelForm : List (Value × Value) → Bool
  | [] => true
  | (k, v) :: rest => k.hasText && hasCamelForm v && entriesHaveCamelForm rest

end

/-- The identifier for a name: the name in camel case, behind an underscore if it would be none. -/
def identifierOf (name : String) : String :=
  let camel := toCamel name
  if Text.isIdentifier camel.toList then camel else "_" ++ camel

end DesignTokens
