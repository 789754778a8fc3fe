import DesignTokens.Ledger
import DesignTokens.Manifest
import DesignTokens.Source

/-! Building a project. Every type is built on its own and keeps its own errors, so that one broken
type never hides the errors of another. -/
namespace DesignTokens

inductive LedgerProblem where
  | unreadable (fault : FileFault)
  | invalid (error : TokenError)

def LedgerProblem.message : LedgerProblem → String
  | unreadable fault => fault.message
  | invalid error => error.text

/-- A ledger file with what is wrong with it. -/
structure LedgerResult where
  kind : LedgerKind
  source : Path
  entries : Ledger
  issues : List Issue
  problem : Option LedgerProblem

namespace LedgerResult

def isOk (r : LedgerResult) : Bool := r.problem.isNone && r.issues.isEmpty

/-- Reads a ledger file and validates it against a type. -/
def check (t : FileTree) (m : ModeSet) (kind : LedgerKind) (path : Path) :
    Except Fault LedgerResult :=
  let failed (problem : LedgerProblem) : LedgerResult := ⟨kind, path, [], [], some problem⟩
  match t.readText path with
  | .error (.file f) => .ok (failed (.unreadable f))
  | .error f => .error f
  | .ok text =>
    match Ledger.read text path.text with
    | .error (.token e) => .ok (failed (.invalid e))
    | .error (.fault f) => .error f
    | .ok entries => .ok ⟨kind, path, entries, (entries.validate m kind path.text).2, none⟩

def errors (r : LedgerResult) : Except Failure (List String) := do
  let issues ← r.issues.mapM (·.message)
  match r.problem with
  | some problem => return problem.message :: issues
  | none => return issues

end LedgerResult

structure TypeResult where
  type : String
  built : Option (Value × ModeSet)
  errors : List String
  ledgers : List LedgerResult

namespace TypeResult

def modes? (r : TypeResult) : Option ModeSet := r.built.map (·.2)

def isOk (r : TypeResult) : Bool := r.built.isSome && r.errors.isEmpty

def failed (type : String) (e : TokenError) : TypeResult := ⟨type, none, [e.text], []⟩

/-- A ledger of a type. Its names are completed by the text of the prefix. -/
def checkLedger (t : FileTree) (s : TypeSource) (m : ModeSet) (kind : LedgerKind) (path : Path) :
    Except Fault LedgerResult := do
  let r ← LedgerResult.check t m kind path
  if r.entries.isEmpty || s.typePrefix.hasText then return r
  else throw (.value .unwritableInteger)

def checkLedgers (t : FileTree) (s : TypeSource) (m : ModeSet) :
    Except Fault (List LedgerResult) :=
  [(LedgerKind.deprecated, s.deprecated), (.removed, s.removed)].foldlM
    (fun found (kind, file) =>
      match file with
      | none => .ok found
      | some path => (checkLedger t s m kind path).map (found ++ [·])) []

def baselineOf (m : Manifest) (type : String) : Value := (m.settings type).baseline.getD .null

/-- Examines the modes of a type: whether they define the same names, can be rendered, and fit the
ledgers. A baseline without a text is no mode and cannot be told. -/
def examine [Platform] (t : FileTree) (s : TypeSource) (baseline : Value) (m : ModeSet) :
    Noted TypeResult := do
  if !baseline.hasText then Noted.fail (.value .unwritableInteger)
  let (m, validation) := m.validate
  Noted.warnAll validation.warnings
  let unrendered ← Noted.ofFault m.renderErrors
  let ledgers ← Noted.ofFault (checkLedgers t s m)
  let issues ← Noted.ofExcept (ledgers.mapM (·.errors))
  let errors := validation.errors ++ unrendered ++ issues.flatten
  return ⟨s.type, some (s.typePrefix, m), errors, ledgers⟩

def load [Yaml.Library] (t : FileTree) (m : Manifest) (directory : Path) :
    Noted (TypeSource × ModeSet) := do
  let type := directory.name
  let s ← TypeSource.read t directory (m.settings type).typePrefix
  return (s, ← s.build t (m.skippedModes type) m.strict (baselineOf m type))

def build [Yaml.Library] [Platform] (t : FileTree) (m : Manifest) (directory : Path) :
    Noted TypeResult := do
  match ← (load t m directory).attempt with
  | .ok (s, modes) => examine t s (baselineOf m directory.name) modes
  | .error e => return failed directory.name e

end TypeResult

structure Report where
  results : List TypeResult

namespace Report

def isOk (r : Report) : Bool := r.results.all (·.isOk)

def types (r : Report) : List String := r.results.map (·.type)

def faulty (r : Report) : List TypeResult := r.results.filter fun r => !r.errors.isEmpty

def errors (r : Report) : List String := r.results.flatMap (·.errors)

/-- Builds every type in the data directory of a project, in the order of their names. -/
def build [Yaml.Library] [Platform] (t : FileTree) (m : Manifest) : Noted Report := do
  let data ← Noted.ofExcept m.dataPath
  let types ← Noted.ofExcept (discoverTypes t data)
  return ⟨← types.mapM fun type => TypeResult.build t m (data / type)⟩

end Report

end DesignTokens
