import DesignTokens.CommandLine.Options
import DesignTokens.Output

/-! The command line: `build` resolves, validates and writes outputs, `validate` does all but the
writing. Every type is reported on before a command fails. -/
namespace DesignTokens.CommandLine

def version : String := "0.3.0"

structure Settings where
  manifest : String := ""
  project : String := "."
  out : String := ""
  formats : List String := []

def validateOptions : Vocabulary Settings :=
  let manifest := Effect.value fun text (s : Settings) => { s with manifest := text }
  let project := Effect.value fun text (s : Settings) => { s with project := text }
  { long := [("manifest", manifest), ("project", project), ("verbose", .flag id)]
    short := [('m', manifest), ('p', project)] }

/-- The options of `build`: those of `validate`, the output directory and the formats. -/
def buildOptions : Vocabulary Settings :=
  let out := Effect.value fun text (s : Settings) => { s with out := text }
  let format := Effect.value fun text (s : Settings) => { s with formats := s.formats ++ [text] }
  { long := ("out", out) :: ("format", format) :: validateOptions.long
    short := ('o', out) :: ('f', format) :: validateOptions.short }

/-- The options before a command: the wish to know the version. -/
def globalOptions : Vocabulary Bool :=
  let wish := Effect.flag fun _ => true
  { long := [("version", wish)], short := [('v', wish)] }

inductive Request where
  | version
  | build (s : Settings)
  | validate (s : Settings)
  | misuse

/-- The request of a command with its arguments, which are all options. -/
def commandRequest (v : Vocabulary Settings) (make : Settings → Request) (arguments : List String) :
    Request :=
  match readOptions v true arguments {} with
  | some (s, []) => make s
  | _ => .misuse

/-- What a command line asks for. Behind two hyphens an option is no command, and then it is still
read as an option. -/
def Request.read (arguments : List String) : Request :=
  match readOptions globalOptions false arguments false with
  | some (true, _) => .version
  | some (false, "build" :: rest) => commandRequest buildOptions .build rest
  | some (false, "validate" :: rest) => commandRequest validateOptions .validate rest
  | some (false, rest) =>
    match readOptions globalOptions false rest false with
    | some (true, _) => .version
    | _ => .misuse
  | none => .misuse

def usage : String := "Usage: modetokens [--version] (build | validate) [options]"

def Settings.directories (here : Path) (s : Settings) : List Path :=
  let resolved (text : String) := Path.resolve here (.ofText text)
  let base := if s.manifest = "" then resolved s.project else (resolved s.manifest).parent
  if s.out = "" then [base] else [base, resolved s.out]

def Request.directories (here : Path) : Request → List Path
  | build s => s.directories here
  | validate s => s.directories here
  | _ => []

/-- A run: its exit code, the lines it printed, the warnings, the failure that ended it early, and
the files afterwards. -/
structure Run where
  exitCode : Nat
  output : List String
  errors : List String
  warnings : List Warning
  failure : Option Failure
  files : FileTree

/-- Whether a terminal is not sent the character: a bell, a backspace, a vertical tab, a form feed
or a carriage return. -/
def isDropped (c : Char) : Bool :=
  let n := c.toNat
  n == 7 || n == 8 || n == 11 || n == 12 || n == 13

/-- The text with blanks for tabs, which lead to the next column that is a multiple of eight. -/
def expandTabs (column : Nat) : List Char → List Char
  | [] => []
  | '\t' :: rest =>
    let width := 8 - column % 8
    List.replicate width ' ' ++ expandTabs (column + width) rest
  | c :: rest => c :: expandTabs (if c = '\n' then 0 else column + 1) rest

def shownLines (text : String) : List String :=
  let shown := expandTabs 0 (text.toList.filter (!isDropped ·))
  Text.splitOn '\n' (String.ofList shown)

/-- The line about a type: a tick and its modes, or a cross and the number of its errors. -/
def statusLine (r : TypeResult) : String :=
  if r.isOk then
    let modes := ", ".intercalate ((r.modes?.map (·.names)).getD [])
    s!"✓ {r.type} ({modes})"
  else s!"✗ {r.type} ({r.errors.length} errors)"

def panelText (r : Report) : String :=
  let section_ (t : TypeResult) := t.type :: t.errors.map ("  • " ++ ·)
  "".intercalate ((r.faulty.flatMap section_).map (· ++ "\n"))

def panelLines (r : Report) : List String :=
  if r.isOk then []
  else "[FATAL] The build failed due to the following errors" ::
    (shownLines (panelText r)).map fun line => String.ofList (Text.stripEnd line.toList)

def manifestOf (t : FileTree) (here : Path) (environment : Option String) (s : Settings) :
    Except Failure Manifest :=
  if s.manifest ≠ "" then
    Manifest.load t (Path.resolve here (.ofText s.manifest)) environment
  else Manifest.find t (Path.resolve here (.ofText s.project)) environment

/-- The directories that the manifest of a request names, if it can be read. -/
def Request.manifestDirectories (t : FileTree) (here : Path) (environment : Option String)
    (r : Request) : List Path :=
  let named (s : Settings) : List Path :=
    match manifestOf t here environment s with
    | .ok m => m.dataPath.toOption.toList ++ m.outPath.toOption.toList
    | .error _ => []
  match r with
  | .build s => named s
  | .validate s => named s
  | _ => []

def formatsOf (s : Settings) (m : Manifest) : Except Failure (List OutputFormat) :=
  match OutputFormat.unknownAmong s.formats with
  | [] =>
    .ok (if s.formats.isEmpty then m.formats else s.formats.filterMap OutputFormat.ofName?)
  | unknown => .error (.of (.manifest (.unsupportedChoice unknown)))

def outOf (here : Path) (s : Settings) (m : Manifest) : Except Failure Path :=
  if s.out ≠ "" then .ok (Path.resolve here (.ofText s.out)) else m.outPath

/-- The run of a command that could not begin. Errors of the library are printed, faults are not
caught. -/
def failedRun (t : FileTree) (warnings : List Warning) : Failure → Run
  | .token e => ⟨1, [], shownLines s!"Error: {e.text}", warnings, none, t⟩
  | .fault f => ⟨1, [], [], warnings, some (.fault f), t⟩

/-- The run of a command that has a report: the report's lines, then what `finish` makes of it. -/
def reportedRun (t : FileTree) (report : Noted Report) (finish : Report → Run) : Run :=
  match report.outcome with
  | .error failure => failedRun t report.warnings failure
  | .ok r =>
    let rest := finish r
    { rest with
      output := r.results.flatMap (fun r => shownLines (statusLine r)) ++ rest.output
      errors := panelLines r ++ rest.errors
      warnings := report.warnings ++ rest.warnings }

/-- A run that prints one line and ends well, if the report is without errors. -/
def verdict (t : FileTree) (r : Report) (line : String) : Run :=
  if r.isOk then ⟨0, [line], [], [], none, t⟩ else ⟨1, [], [], [], none, t⟩

section Commands

variable [Yaml.Library] [Platform]

def validate (t : FileTree) (here : Path) (environment : Option String) (s : Settings) : Run :=
  let report : Noted Report := do
    Report.build t (← Noted.ofExcept (manifestOf t here environment s))
  reportedRun t report fun r => verdict t r "OK: tokens are valid."

def build (t : FileTree) (here : Path) (environment : Option String) (s : Settings) : Run :=
  match manifestOf t here environment s with
  | .error failure => failedRun t [] failure
  | .ok m =>
    match formatsOf s m with
    | .error failure => failedRun t [] failure
    | .ok formats =>
      reportedRun t (Report.build t m) fun r =>
        match outOf here s m with
        | .error failure => ⟨1, [], [], [], some failure, t⟩
        | .ok out =>
          match (r.write formats m.name out).run.run t with
          | (.error failure, t) => ⟨1, [], [], [], some failure, t⟩
          | (.ok written, t) =>
            let types := r.results.length
            verdict t r s!"✨ Built {types} token types ({written.length} files) 🎉"

/-- Runs a command line in a directory. Nothing is printed about misuse. -/
def run (t : FileTree) (here : Path) (environment : Option String) (arguments : List String) :
    Run :=
  match Request.read arguments with
  | .version => ⟨0, [s!"modetokens {version}"], [], [], none, t⟩
  | .build s => build t here environment s
  | .validate s => validate t here environment s
  | .misuse => ⟨2, [], [], [], none, t⟩

end Commands

end DesignTokens.CommandLine
