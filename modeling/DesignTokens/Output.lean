import DesignTokens.Build
import DesignTokens.Output.Dtcg
import DesignTokens.Output.Script

/-! Writing outputs. Each format has one file for each mode of a type; ledgers and an index of types
and modes stand beside them. What was written before a failure stays. A style sheet holds texts of
tokens as they are and so has to be encoded; JSON is plain ASCII, and names of files have encodings. -/
namespace DesignTokens

/-- A step that writes files. -/
abbrev Writing := ExceptT Failure (StateM FileTree)

namespace Writing

/-- Changes the files, or leaves them as they are and fails. -/
def change (f : FileTree → Except Fault FileTree) : Writing Unit := do
  match f (← get) with
  | .ok t => set t
  | .error fault => throw (.fault fault)

def ensure (directory : Path) : Writing Unit := change (·.ensureDirectories directory)

def file (path : Path) (text : Except Failure String) : Writing Path := do
  match text with
  | .ok text => change (·.write path text)
  | .error failure => throw failure
  return path

/-- A text that has an encoding. -/
def encoded [Platform] (text : String) : Except Failure String :=
  if Platform.encodes text then .ok text else throw (.value .unencodable)

def modes (m : ModeSet) (path : String → Path)
    (text : String → VariableSet → Except Failure String) :
    Writing (List Path) :=
  m.modes.mapM fun (mode, s) => file (path mode) (text mode s)

end Writing

namespace OutputFormat

def directory (f : OutputFormat) (out : Path) (type : String) : Path := out / f.name / type

/-- Writes all modes of a type in a format. Script modules get an index of the modes. -/
def write [Platform] (f : OutputFormat) (namespaceName : Value) (m : ModeSet) (out : Path) :
    Writing (List Path) := do
  let directory := f.directory out m.type
  Writing.ensure directory
  match f with
  | .scss =>
    Writing.modes m (fun mode => directory / s!"_{mode}.scss") fun mode _ => do
      Writing.encoded (← m.mixin namespaceName mode)
  | .json =>
    Writing.modes m (fun mode => directory / s!"{mode}.json") fun _ s =>
      return (← s.camelJson) ++ "\n"
  | .dtcg =>
    Writing.modes m (fun mode => directory / s!"{mode}.tokens.json") fun mode _ => do
      jsonText (← m.dtcgTokens mode)
  | .ts => do
    let written ← Writing.modes m (fun mode => directory / s!"{mode}.ts") fun mode _ =>
      m.scriptModule mode
    return written ++ [← Writing.file (directory / "index.ts") (.ok (scriptIndex m.names))]

end OutputFormat

namespace LedgerResult

/-- The warnings about a ledger that is not written. -/
def withheld (r : LedgerResult) (type : String) : List Warning :=
  if r.isOk then [] else [.ledgerWithheld r.kind.name type]

def write (r : LedgerResult) (type : String) (out : Path) : Writing (Option Path) := do
  if !r.isOk then return none
  let directory := out / r.kind.name
  Writing.ensure directory
  let text := do return (← jsonText r.entries.toValue) ++ "\n"
  return some (← Writing.file (directory / s!"{type}.json") text)

end LedgerResult

namespace TypeResult

/-- Writes a type that has been built without errors: its modes in all formats, then its ledgers. -/
def write [Platform] (r : TypeResult) (formats : List OutputFormat) (namespaceName : Value)
    (out : Path) : Writing (List Path) := do
  match if r.isOk then r.modes? else none with
  | none => return []
  | some m => do
    let modes ← formats.mapM fun f => f.write namespaceName m out
    let ledgers ← r.ledgers.mapM fun ledger => ledger.write r.type out
    return modes.flatten ++ ledgers.filterMap id

end TypeResult

namespace Report

def sound (r : Report) : List TypeResult := r.results.filter (·.isOk)

def index (r : Report) : Value :=
  .map <| r.sound.filterMap fun result =>
    result.modes?.map fun m => (.text result.type, .list (m.names.map .text))

def writeScriptIndex (r : Report) (out : Path) : Writing Path := do
  let directory := out / OutputFormat.ts.name
  Writing.ensure directory
  Writing.file (directory / "index.ts") (.ok (scriptIndex (r.sound.map (·.type))))

def writeIndex (r : Report) (out : Path) : Writing Path := do
  Writing.ensure out
  Writing.file (out / "index.json") do return (← jsonText r.index) ++ "\n"

/-- Writes every type that has been built without errors, then the indexes. -/
def write [Platform] (r : Report) (formats : List OutputFormat) (namespaceName : Value)
    (out : Path) : Writing (List Path) := do
  let types ← r.results.mapM fun result => result.write formats namespaceName out
  let scripts ← if formats.contains .ts then (fun p => [p]) <$> r.writeScriptIndex out else pure []
  return types.flatten ++ scripts ++ [← r.writeIndex out]

def writeNamed [Platform] (r : Report) (formats : List String) (namespaceName : Value)
    (out : Path) : Writing (List Path) :=
  match OutputFormat.unknownAmong formats with
  | [] => r.write (formats.filterMap OutputFormat.ofName?) namespaceName out
  | unknown => throw (.value (.unknownFormats unknown))

end Report

end DesignTokens
