import DesignTokens.ModeSet
import DesignTokens.Overlay

/-! The sources of a type: its directory holds overlays for each mode, which an index may list, a
prefix, and ledgers. -/
namespace DesignTokens

/-- The sources of a type. The overlays of a mode are folded in their order. -/
structure TypeSource where
  type : String
  typePrefix : Value
  directory : Path
  modes : List (String × List Path)
  deprecated : Option Path
  removed : Option Path

/-- The names of the types in a directory, in the order of their characters. Names that start with
a dot or an underscore are left out. -/
def discoverTypes (t : FileTree) (directory : Path) : Except Failure (List String) :=
  if !t.isDirectory directory then
    .error (.token (Failure.load (.noDirectory directory) none none none))
  else match t.list directory with
    | .error f => .error (.fault f)
    | .ok names => .ok <| names.filter fun name =>
      t.isDirectory (directory / name) && !name.startsWith "." && !name.startsWith "_"

namespace TypeSource

/-- The overlays that the value of a mode in an index lists: a text, or a list of texts. -/
def overlayNames? : Value → Option (List String)
  | .text s => some [s]
  | .list xs => xs.mapM fun
    | .text s => some s
    | _ => none
  | _ => none

/-- Puts the overlays of a mode. A mode that is there keeps its place. -/
def putMode (mode : String) (overlays : List Path) :
    List (String × List Path) → List (String × List Path)
  | [] => [(mode, overlays)]
  | (m, o) :: rest =>
    if m = mode then (m, overlays) :: rest else (m, o) :: putMode mode overlays rest

def listedModes? : Value → Option (List (Value × Value))
  | .map es =>
    match Value.entry? "modes" es with
    | some (.map modes) => some modes
    | _ => none
  | _ => none

/-- Puts the mode of an entry of an index, under the text of its key. -/
def putListed (directory index : Path) (type : String) (found : List (String × List Path)) :
    Value × Value → Except Failure (List (String × List Path))
  | (key, v) =>
    if !key.hasText then .error (.value .unwritableInteger) else
    match overlayNames? v with
    | some names => .ok (putMode key.plain (names.map (directory / ·)) found)
    | none => .error (.token (Failure.load (.noOverlays key.plain) (some index) (some type) none))

def indexedModes (directory index : Path) (type : String) (data : Value) :
    Except Failure (List (String × List Path)) :=
  match listedModes? data with
  | some entries => entries.foldlM (putListed directory index type) []
  | none => .error (.token (Failure.load .noModeMapping (some index) none none))

/-- The modes of a directory without an index: each file with a fitting suffix is one. -/
def looseModes (t : FileTree) (directory : Path) (names : List String) :
    List (String × List Path) :=
  let paths := names.map (directory / ·)
  let overlays := paths.filter fun p =>
    t.isFile p && (p.suffix == ".yaml" || p.suffix == ".yml")
  overlays.foldl (fun found p => putMode p.stem [p] found) []

def readModes [Yaml.Library] (t : FileTree) (directory : Path) (type : String) :
    Except Failure (List (String × List Path)) :=
  let index := directory / "index.yaml"
  if t.exists? index then
    match t.readText index with
    | .error f => .error (.fault f)
    | .ok text => do
      let failure (fault : LoadFault) := Failure.load fault (some index) (some type) none
      indexedModes directory index type (← readYaml false failure text)
  else match t.list directory with
    | .error f => .error (.fault f)
    | .ok names => .ok (looseModes t directory names)

/-- The prefix that the directory of a type asks for: the text of its prefix file, or its name. -/
def readPrefix (t : FileTree) (directory : Path) : Except Failure String :=
  let file := directory / "prefix"
  if t.exists? file then
    match t.readText file with
    | .error f => .error (.fault f)
    | .ok text =>
      let text := Text.stripText text
      .ok (if text = "" then directory.name else text)
  else .ok directory.name

/-- The sources in the directory of a type. A given prefix overrides that of the directory. -/
def read [Yaml.Library] (t : FileTree) (directory : Path) (given : Option Value) :
    Noted TypeSource := do
  let type := directory.name
  let typePrefix ← match given with
    | some v => pure v
    | none => (Value.text ·) <$> Noted.ofExcept (readPrefix t directory)
  let modes ← Noted.ofExcept (readModes t directory type)
  if modes.isEmpty then Noted.warn (.noModeFiles type directory)
  let present (name : String) :=
    let file := directory / name
    if t.exists? file then some file else none
  return ⟨type, typePrefix, directory, modes, present "deprecated.json", present "removed.json"⟩

/-- The variables of a mode with one more tree. Each leaf is named by the text of the prefix. -/
def addTree (s : TypeSource) (v : VariableSet) (tree : Value) : VariableSet.Outcome :=
  if s.typePrefix.hasText || (leavesAt [] tree).isEmpty then v.add tree
  else ⟨v, [], some (.value .unwritableInteger)⟩

/-- The variables of a mode with one more overlay. An error about its tokens tells where they
stand. -/
def addOverlay [Yaml.Library] (t : FileTree) (s : TypeSource) (v : VariableSet) (path : Path) :
    Noted VariableSet := do
  let outcome := s.addTree v (← loadOverlay t path)
  Noted.warnAll outcome.warnings
  match outcome.failure with
  | none => return outcome.set
  | some (.token e) =>
    Noted.fail <| .token <|
      if e.cause.isResolution then e.located (some ⟨some s.type, some v.mode, some path⟩) else e
  | some failure => Noted.fail failure

/-- The configured baseline. It is looked up among the modes, so it may not be a list or a
mapping. -/
def baselineOf (v : Value) : Except Failure Baseline :=
  match v with
  | .text s => .ok (.mode s)
  | v =>
    if !v.isKey then .error (.kind (.notAKey v.kind))
    else .ok (if v.truthy then .foreign v.plain else .unset)

/-- Whether the value differs from itself, as only what is not a number does. -/
def isUnequal : Value → Bool
  | .float .nan => true
  | _ => false

def addMode [Yaml.Library] (t : FileTree) (s : TypeSource) (strict : Bool) (m : ModeSet)
    (mode : String × List Path) : Noted ModeSet := do
  let start := VariableSet.empty mode.1 m.typePrefix strict
  let built ← mode.2.foldlM (addOverlay t s) start
  if isUnequal s.typePrefix then
    Noted.fail (.of (.prefixMismatch mode.1 m.typePrefix s.type m.typePrefix))
  Noted.ofExcept (m.add mode.1 built)

/-- All modes of a type but those to skip, finalized. -/
def build [Yaml.Library] (t : FileTree) (s : TypeSource) (skip : List String) (strict : Bool)
    (baseline : Value) : Noted ModeSet := do
  let modes := s.modes.filter fun (mode, _) => !skip.contains mode
  let m ← modes.foldlM (addMode t s strict) (.empty s.type s.typePrefix.plain .unset)
  let configured ← Noted.ofExcept (baselineOf baseline)
  return { m with configured }.finalize

end TypeSource

end DesignTokens
