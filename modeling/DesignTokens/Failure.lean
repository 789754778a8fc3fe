import DesignTokens.Json.Reader
import DesignTokens.Number.Reading
import DesignTokens.Output.Format
import DesignTokens.Path
import DesignTokens.Template.Fault
import DesignTokens.Value.Written

/-! What can go wrong. Token errors belong to the library and may carry a location; faults come
from the values and files that it works on. The wording of each is given once, here. -/
namespace DesignTokens

inductive FileProblem where
  | missing
  | notDirectory
  | isDirectory
  | exists
  deriving DecidableEq

structure FileFault where
  problem : FileProblem
  path : Path
  deriving DecidableEq

def FileFault.message (f : FileFault) : String :=
  let head := match f.problem with
    | .missing => "[Errno 2] No such file or directory"
    | .notDirectory => "[Errno 20] Not a directory"
    | .isDirectory => "[Errno 21] Is a directory"
    | .exists => "[Errno 17] File exists"
  s!"{head}: {Text.quoted f.path.text}"

/-- A value that is of the right kind and yet does not do. -/
inductive ValueFault where
  | emptyPath (typePrefix : String)
  | unsupportedColor (text : String)
  | invalidColor (text : String)
  | notANumber (text : String)
  | notAnInteger (base : Nat) (text : String)
  | overlongInteger (digits : Nat)
  | unwritableInteger
  | unencodable
  | channelNotANumber
  | template (fault : TemplateFault)
  | calendar (fault : CalendarFault)
  | codePoint
  | nullInPath
  | unknownFormats (names : List String)
  | unknownName (name family : String)
  | announced (text : String)
  deriving DecidableEq

/-- The text about an integer of too many digits, which cannot be read. -/
def overlongText (digits : Nat) : String :=
  s!"Exceeds the limit ({Number.maxDigits} digits) for integer string conversion: " ++
    s!"value has {digits} digits; use sys.set_int_max_str_digits() to increase the limit"

def ValueFault.message : ValueFault → String
  | emptyPath typePrefix => s!"Cannot name an empty path under prefix '{typePrefix}'"
  | unsupportedColor text => s!"Unsupported colour: {Text.quoted text}"
  | invalidColor text => s!"Invalid colour: {Text.quoted text}"
  | notANumber text => s!"could not convert string to float: {Text.quoted text}"
  | notAnInteger base text =>
    let count := Number.digitCount text
    if base = 10 ∧ Number.maxDigits < count then overlongText count
    else s!"invalid literal for int() with base {base}: {Text.quoted text}"
  | overlongInteger digits => overlongText digits
  | unwritableInteger =>
    s!"Exceeds the limit ({Number.maxDigits} digits) for integer string conversion; " ++
      "use sys.set_int_max_str_digits() to increase the limit"
  | unencodable => "a text has no encoding"
  | channelNotANumber => "cannot convert float NaN to integer"
  | template fault => fault.message
  | calendar fault => fault.message
  | codePoint => "chr() arg not in range(0x110000)"
  | nullInPath => "embedded null byte"
  | unknownFormats names => "Unknown output formats: " ++ ", ".intercalate names
  | unknownName name family => s!"{Text.quoted name} is not a valid {family}"
  | announced text => text

inductive KindFault where
  | notANumber (kind : String)
  | noNegation (kind : String)
  | noFormat (kind : String)
  | noItems (kind : String)
  | textIndex (kind : String)
  | notAMapping (mode : String)
  | notAKey (kind : String)
  | notData (kind : String)
  | notADataKey (kind : String)
  | unsuitable (kind : String)
  | announced (text : String)
  deriving DecidableEq

def KindFault.message : KindFault → String
  | notANumber kind => s!"float() argument must be a string or a real number, not '{kind}'"
  | noNegation kind => s!"bad operand type for unary -: '{kind}'"
  | noFormat kind => s!"unsupported format string passed to {kind}.__format__"
  | noItems kind => s!"'{kind}' object is not subscriptable"
  | textIndex "str" => "string indices must be integers, not 'str'"
  | textIndex kind => s!"{kind} indices must be integers or slices, not str"
  | notAMapping mode => s!"Token tree for mode '{mode}' must be a mapping"
  | notAKey kind => s!"unhashable type: '{kind}'"
  | notData kind => s!"Object of type {kind} is not JSON serializable"
  | notADataKey kind => s!"keys must be str, int, float, bool or None, not {kind}"
  | unsuitable kind => s!"'{kind}' object does not fit here"
  | announced text => text

inductive Fault where
  | value (fault : ValueFault)
  | kind (fault : KindFault)
  | key (text : String)
  | index
  | noSuchPart
  | overflow
  | recursion
  | emptyReference
  | undecodable
  | file (fault : FileFault)
  deriving DecidableEq

def Fault.message : Fault → String
  | value fault => fault.message
  | kind fault => fault.message
  | key text => s!"no entry for {Text.quoted text}"
  | index => "index out of range"
  | noSuchPart => "a value has no such part"
  | overflow => "number out of range"
  | recursion => "values nest too deep"
  | emptyReference => "a reference has an empty path"
  | undecodable => "a file is no UTF-8 text"
  | file fault => fault.message

inductive RenderFault where
  | noValue (path : String)
  | outOfRange (segment path : String)
  | tooDeep
  | group
  | notAColor (found : Value)
  | failed (d : Deferred) (reason : String)
  | announced (text : String)

def RenderFault.message : RenderFault → String
  | noValue path => s!"Theme has no value at '{path}'"
  | outOfRange segment path => s!"Index {segment} out of range in '{path}'"
  | tooDeep => "Deferred value nesting too deep (cyclic reference?)"
  | group => "Cannot evaluate a token group as a value"
  | notAColor found => s!"Expected a colour string, got {found.quoted}"
  | failed d reason => s!"Failed to evaluate {d.plain}: {reason}"
  | announced text => text

inductive LoadFault where
  | unreadable (fault : FileFault)
  | invalidYaml
  | notAMapping (kind : String)
  | noDirectory (path : Path)
  | noModeMapping
  | noOverlays (mode : String)
  | stated (text : String)

def LoadFault.message : LoadFault → String
  | unreadable fault => s!"Cannot read token file: {fault.message}"
  | invalidYaml => "Invalid YAML"
  | notAMapping kind => s!"Expected a mapping of tokens, got {kind}"
  | noDirectory path => s!"Data directory not found: {path.text}"
  | noModeMapping => "index.yaml must define a 'modes' mapping"
  | noOverlays mode => s!"Mode '{mode}' must list overlay files"
  | stated text => text

inductive LedgerFault where
  | invalidJson (source : String) (fault : JsonFault)
  | notAnObject (source kind : String)

def LedgerFault.message : LedgerFault → String
  | invalidJson source .malformed => s!"Invalid JSON in {source}"
  | invalidJson source (.colonMissing line column offset) =>
    let place := s!"line {line} column {column} (char {offset})"
    s!"Invalid JSON in {source}: Expecting ':' delimiter: {place}"
  | notAnObject source kind => s!"Expected a JSON object in {source}, got {kind}"

inductive ManifestFault where
  | unreadable (path : Path) (fault : FileFault)
  | invalidToml (path : Path)
  | unsupportedFormats (path : Path) (names : List String)
  | unsupportedChoice (names : List String)
  | invalidSkipRule (rule : String)

def ManifestFault.message : ManifestFault → String
  | unreadable path fault => s!"Cannot read manifest {path.text}: {fault.message}"
  | invalidToml path => s!"Invalid TOML in {path.text}"
  | unsupportedFormats path names =>
    let found := ", ".intercalate names
    let supported := ", ".intercalate (OutputFormat.all.map (·.name))
    s!"Unsupported output formats in {path.text}: {found} (supported: {supported})"
  | unsupportedChoice names => "Unsupported output formats: " ++ ", ".intercalate names
  | invalidSkipRule rule => s!"Invalid skip rule {Text.quoted rule}; expected 'type/mode'"

inductive Cause where
  | undefinedReference (name mode : String) (referrer : Option String)
  | duplicateVariable (name mode : String)
  | nestsUnderLeaf (name segment mode : String)
  | collidesWithGroup (name mode : String)
  | variablesFinalized (mode typePrefix : String)
  | modesFinalized (mode type : String)
  | duplicateMode (mode type : String)
  | prefixMismatch (mode found type expected : String)
  | modeMismatch (found expected : String)
  | ledger (fault : LedgerFault)
  | load (fault : LoadFault)
  | manifest (fault : ManifestFault)
  | render (fault : RenderFault)
  | stated (text : String)

def Cause.message : Cause → String
  | undefinedReference name mode referrer =>
    let base := s!"Undefined reference \"{name}\" in mode \"{mode}\""
    match referrer with
    | none => base
    | some r => if r = "" then base else s!"{base} (referenced by \"{r}\")"
  | duplicateVariable name mode =>
    s!"Variable \"{name}\" is declared more than once in mode \"{mode}\""
  | nestsUnderLeaf name segment mode =>
    s!"Variable {name} nests under leaf '{segment}' in mode '{mode}'"
  | collidesWithGroup name mode => s!"Variable {name} collides with a group in mode '{mode}'"
  | variablesFinalized mode typePrefix =>
    s!"Cannot add variables to finalized mode '{mode}' ({typePrefix})"
  | modesFinalized mode type => s!"Cannot add mode '{mode}' to finalized type '{type}'"
  | duplicateMode mode type => s!"Mode '{mode}' already added to type '{type}'"
  | prefixMismatch mode found type expected =>
    s!"Mode '{mode}' uses prefix '{found}' but type '{type}' uses '{expected}'"
  | modeMismatch found expected =>
    s!"Cannot add variables of mode '{found}' as mode '{expected}'"
  | ledger fault => fault.message
  | load fault => fault.message
  | manifest fault => fault.message
  | render fault => fault.message
  | stated text => text

/-- Whether the cause is one for which a token tree cannot be flattened. -/
def Cause.isResolution : Cause → Bool
  | undefinedReference .. => true
  | duplicateVariable .. => true
  | nestsUnderLeaf .. => true
  | collidesWithGroup .. => true
  | _ => false

structure Location where
  type : Option String := none
  mode : Option String := none
  file : Option Path := none

/-- The file, then type and mode between brackets. A mode without a type is not shown, and neither
is an empty name. -/
def Location.text (l : Location) : String :=
  let file := match l.file with
    | some p => [p.text]
    | none => []
  let scope := match l.type.getD "", l.mode.getD "" with
    | "", _ => []
    | type, "" => [s!"[{type}]"]
    | type, mode => [s!"[{type}/{mode}]"]
  match file ++ scope with
  | [] => "<unknown>"
  | parts => " ".intercalate parts

/-- An error of the library, with its location if one is known. -/
structure TokenError where
  cause : Cause
  location : Option Location := none

namespace TokenError

/-- The error at another location, or at none. -/
def located (e : TokenError) (l : Option Location) : TokenError := ⟨e.cause, l⟩

def text (e : TokenError) : String :=
  match e.location with
  | some l => s!"{l.text}: {e.cause.message}"
  | none => e.cause.message

end TokenError

inductive Failure where
  | token (error : TokenError)
  | fault (fault : Fault)

namespace Failure

def of (cause : Cause) : Failure := .token ⟨cause, none⟩

/-- A load error; it has a location if a file or a non-empty name is given. -/
def load (fault : LoadFault) (file : Option Path) (type mode : Option String) : TokenError :=
  if file.isSome ∨ type.getD "" ≠ "" ∨ mode.getD "" ≠ "" then
    ⟨.load fault, some ⟨type, mode, file⟩⟩
  else ⟨.load fault, none⟩

def render (fault : RenderFault) : Failure := of (.render fault)

def message : Failure → String
  | token error => error.text
  | fault f => f.message

def value (fault : ValueFault) : Failure := .fault (.value fault)

def kind (fault : KindFault) : Failure := .fault (.kind fault)

end Failure

namespace Value

/-- The plain text of a value, if it has a text. -/
def plain? (v : Value) : Except Failure String :=
  if v.hasText then .ok v.plain else .error (.value .unwritableInteger)

def quoted? (v : Value) : Except Failure String :=
  if v.hasText then .ok v.quoted else .error (.value .unwritableInteger)

end Value

/-- What is worth telling and stops nothing. -/
inductive Warning where
  | declaredTwice (name mode : String)
  | emptyFile (path : Path)
  | noModeFiles (type : String) (directory : Path)
  | noModes (type : String)
  | ledgerWithheld (kind type : String)
  deriving DecidableEq

def Warning.message : Warning → String
  | declaredTwice name mode => s!"Variable {name} declared twice in mode {mode}; keeping last"
  | emptyFile path => s!"Empty token file {path.text}"
  | noModeFiles type directory => s!"No modes found for type {type} in {directory.text}"
  | noModes type => s!"Type {type} has no modes"
  | ledgerWithheld kind type => s!"Not writing {kind} ledger for {type}: it has errors"

end DesignTokens
