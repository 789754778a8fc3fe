/-! The output formats by name. -/
namespace DesignTokens

inductive OutputFormat where
  | scss
  | json
  | dtcg
  | ts
  deriving DecidableEq

namespace OutputFormat

/-- All formats, in the order in which they are named. -/
def all : List OutputFormat := [scss, json, dtcg, ts]

def name : OutputFormat → String
  | scss => "scss"
  | json => "json"
  | dtcg => "dtcg"
  | ts => "ts"

def ofName? (s : String) : Option OutputFormat := all.find? (·.name == s)

def unknownAmong (names : List String) : List String :=
  names.filter fun s => (ofName? s).isNone

end OutputFormat

end DesignTokens
