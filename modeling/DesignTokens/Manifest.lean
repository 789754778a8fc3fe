import DesignTokens.FileTree
import DesignTokens.Toml.Reader

/-! The manifest of a project: where its data lies and its outputs go, the formats, the modes to
skip and the settings of types. Without a manifest the defaults hold. -/
namespace DesignTokens

structure SkipRule where
  type : String
  mode : String
  deriving DecidableEq

namespace SkipRule

/-- Reads a rule: type and mode with a slash between them, neither empty. -/
def read (rule : String) : Except Failure SkipRule :=
  match Text.cutAt? '/' (Text.strip rule.toList) with
  | some (c :: type, d :: mode) => .ok ⟨String.ofList (c :: type), String.ofList (d :: mode)⟩
  | _ => .error (.of (.manifest (.invalidSkipRule rule)))

/-- Reads rules with commas between them. Blank items count for nothing. -/
def readAll (rules : String) : Except Failure (List SkipRule) :=
  let items := Text.splitOn ',' rules
  (items.filter fun item => Text.stripText item != "").mapM read

/-- Reads the rules of the environment, if there are any. -/
def ofEnvironment : Option String → Except Failure (List SkipRule)
  | none => .ok []
  | some rules => readAll rules

end SkipRule

structure TypeSettings where
  baseline : Option Value := none
  typePrefix : Option Value := none

/-- A manifest. Name, directories and settings are values of any kind. -/
structure Manifest where
  root : Path
  name : Value
  dataDirectory : Value := .text "data"
  outDirectory : Value := .text "dist"
  formats : List OutputFormat := [.scss, .json]
  skip : List SkipRule := []
  strict : Bool := true
  types : List (String × TypeSettings) := []

namespace Manifest

/-- The name of a project that has no other: that of its directory. -/
def defaultName (root : Path) : Value := .text (root.resolve root).name

def settings (m : Manifest) (type : String) : TypeSettings := (m.types.lookup type).getD {}

def skippedModes (m : Manifest) (type : String) : List String :=
  (m.skip.filter (·.type == type)).map (·.mode)

/-- The path that a value names below the root. -/
def pathOf (m : Manifest) : Value → Except Failure Path
  | .text s => .ok (m.root / s)
  | v => .error (.kind (.unsuitable v.kind))

def dataPath (m : Manifest) : Except Failure Path := m.pathOf m.dataDirectory

def outPath (m : Manifest) : Except Failure Path := m.pathOf m.outDirectory

def table : Value → Except Failure (List (Value × Value))
  | .map es => .ok es
  | _ => .error (.fault .noSuchPart)

/-- The entries of a table within a table; one that is not there is empty. -/
def subtable (key : String) (es : List (Value × Value)) :
    Except Failure (List (Value × Value)) :=
  table ((Value.entry? key es).getD (.map []))

/-- The items of a value: those of a list, the keys of a table, the characters of a text. -/
def itemsOf : Value → Except Failure (List Value)
  | .list xs => .ok xs
  | .map es => .ok (es.map (·.1))
  | .text s => .ok (s.toList.map fun c => .text (String.singleton c))
  | v => .error (.kind (.unsuitable v.kind))

def textOf : Value → Except Failure String
  | .text s => .ok s
  | v => .error (.kind (.unsuitable v.kind))

def formatOf? : Value → Option OutputFormat
  | .text s => OutputFormat.ofName? s
  | _ => none

def formatsOf (path : Path) (v : Value) : Except Failure (List OutputFormat) := do
  let items ← itemsOf v
  match items.filter fun item => (formatOf? item).isNone with
  | [] => return items.filterMap formatOf?
  | unknown => throw (.of (.manifest (.unsupportedFormats path (← unknown.mapM textOf))))

def ruleOf : Value → Except Failure SkipRule
  | .text s => SkipRule.read s
  | _ => .error (.fault .noSuchPart)

def settingsOf (v : Value) : Except Failure TypeSettings := do
  let es ← table v
  return ⟨Value.entry? "baseline" es, Value.entry? "prefix" es⟩

def formatsIn (path : Path) (build : List (Value × Value)) : Except Failure (List OutputFormat) :=
  match Value.entry? "formats" build with
  | some v => formatsOf path v
  | none => .ok [.scss, .json]

def rulesIn (build : List (Value × Value)) : Except Failure (List SkipRule) := do
  (← itemsOf ((Value.entry? "skip" build).getD (.list []))).mapM ruleOf

def typesIn (es : List (Value × Value)) : Except Failure (List (String × TypeSettings)) := do
  (← subtable "types" es).mapM fun e => do return (e.1.plain, ← settingsOf e.2)

def ofDocument (path : Path) (environment : Option String) (document : Value) :
    Except Failure Manifest := do
  let es ← table document
  let root := path.parent
  let entry (key : String) (fallback : Value) (es : List (Value × Value)) :=
    (Value.entry? key es).getD fallback
  let build ← subtable "build" es
  let formats ← formatsIn path build
  let skip ← rulesIn build
  let more ← SkipRule.ofEnvironment environment
  let types ← typesIn es
  let project ← subtable "project" es
  return {
    root
    name := entry "name" (defaultName root) project
    dataDirectory := entry "data_dir" (.text "data") build
    outDirectory := entry "out_dir" (.text "dist") build
    formats
    skip := skip ++ more
    strict := (entry "strict" (.bool true) build).truthy
    types }

/-- What a fault of reading the file of a manifest counts as. -/
def readFailure (path : Path) : Fault → Failure
  | .file f => .of (.manifest (.unreadable path f))
  | f => .fault f

def load (t : FileTree) (path : Path) (environment : Option String) : Except Failure Manifest := do
  let text ← (t.readText path).mapError (readFailure path)
  match Toml.read text with
  | .ok document => ofDocument path environment document
  | .error .malformed => throw (.of (.manifest (.invalidToml path)))
  | .error (.tooLong digits) => throw (.value (.notAnInteger 10 digits))

def default (root : Path) (environment : Option String) : Except Failure Manifest := do
  return { root, name := defaultName root, skip := ← SkipRule.ofEnvironment environment }

def find (t : FileTree) (root : Path) (environment : Option String) : Except Failure Manifest :=
  let path := root / "tokens.toml"
  if t.exists? path then load t path environment else default root environment

end Manifest

end DesignTokens
