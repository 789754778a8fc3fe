import DesignTokens.Text.Blank

/-! File paths as rows of names. Empty names and single dots vanish when a path is read, double
dots stay until the path is resolved. -/
namespace DesignTokens

/-- A path: its root, which is empty for a relative path, and the names below it. -/
structure Path where
  root : String
  names : List String
  deriving DecidableEq, Inhabited

namespace Path

/-- The root of a path text: one slash, or exactly two, which are told apart from one. -/
def rootOf (s : List Char) : String :=
  match (s.takeWhile (· == '/')).length with
  | 0 => ""
  | 2 => "//"
  | _ => "/"

def ofText (s : String) : Path :=
  ⟨rootOf s.toList, (Text.splitOn '/' s).filter fun name => name != "" && name != "."⟩

/-- The text of a path; a relative path without names is a single dot. -/
def text (p : Path) : String :=
  if p.root = "" ∧ p.names = [] then "." else p.root ++ "/".intercalate p.names

/-- The path `q` seen from `p`; an absolute `q` stands alone. -/
def append (p q : Path) : Path := if q.root = "" then ⟨p.root, p.names ++ q.names⟩ else q

/-- The path that a text names, seen from `p`. -/
def join (p : Path) (s : String) : Path := p.append (ofText s)

instance : HDiv Path String Path := ⟨join⟩

def name (p : Path) : String := p.names.getLast?.getD ""

def parent (p : Path) : Path := ⟨p.root, p.names.dropLast⟩

/-- Cuts a file name before its last dot; a dot at either end does not count. -/
def splitSuffix (name : String) : String × String :=
  let cs := name.toList
  let tail := cs.reverse.takeWhile (· != '.')
  let stem := cs.take (cs.length - tail.length - 1)
  if tail.isEmpty || stem.isEmpty || tail.length == cs.length then (name, "")
  else (String.ofList stem, String.ofList ('.' :: tail.reverse))

def stem (p : Path) : String := (splitSuffix p.name).1

/-- The part of the last name from its last dot on. -/
def suffix (p : Path) : String := (splitSuffix p.name).2

/-- Names with each double dot taken together with the name before it. -/
def collapse (names : List String) : List String :=
  names.foldl (fun done name => if name = ".." then done.dropLast else done ++ [name]) []

/-- The absolute path that `p` names in the directory `here`, free of double dots. -/
def resolve (here p : Path) : Path :=
  let full := here.append p
  ⟨full.root, collapse full.names⟩

/-- The path of a descendant relative to `p`, if it lies below. -/
def below? (p q : Path) : Option String :=
  if p.root = q.root ∧ q.names.take p.names.length = p.names then
    some ("/".intercalate (q.names.drop p.names.length))
  else none

end Path

end DesignTokens
