import DesignTokens.Failure
import DesignTokens.Text.Utf8

/-! A tree of files and directories. Paths are followed name by name from the root; a double dot
leads to the parent of the directory that has been reached. -/
namespace DesignTokens

inductive FileItem where
  | directory
  | file (bytes : ByteArray)

/-- The files and directories by the names that lead to them. The root is always there. -/
structure FileTree where
  items : List (List String × FileItem)

namespace FileTree

def item? (t : FileTree) : List String → Option FileItem
  | [] => some .directory
  | names => t.items.lookup names

def hasDirectory (t : FileTree) (names : List String) : Bool :=
  match t.item? names with
  | some .directory => true
  | _ => false

/-- The place that names lead to from a place, which has to be there. -/
def walk (t : FileTree) (here : List String) : List String → Except FileProblem (List String)
  | [] => .ok here
  | name :: rest =>
    if !t.hasDirectory here then .error .notDirectory
    else if name = ".." then t.walk here.dropLast rest
    else
      let next := here ++ [name]
      if (t.item? next).isSome then t.walk next rest else .error .missing

/-- Whether a path cannot be a path, for it holds a null character. -/
def isUnusable (p : Path) : Bool := p.names.any fun name => name.toList.contains '\x00'

/-- Turns a problem with a path into a fault. -/
def faultAt {α : Type} (p : Path) : Except FileProblem α → Except Fault α
  | .ok a => .ok a
  | .error problem => .error (.file ⟨problem, p⟩)

/-- The result of an operation at a usable path. -/
def usable {α : Type} (p : Path) (result : Except FileProblem α) : Except Fault α :=
  if isUnusable p then .error (.value .nullInPath) else faultAt p result

def find? (t : FileTree) (p : Path) : Option FileItem :=
  if isUnusable p then none else
  match t.walk [] p.names with
  | .ok place => t.item? place
  | .error _ => none

def exists? (t : FileTree) (p : Path) : Bool := (t.find? p).isSome

def isDirectory (t : FileTree) (p : Path) : Bool :=
  match t.find? p with
  | some .directory => true
  | _ => false

def isFile (t : FileTree) (p : Path) : Bool :=
  match t.find? p with
  | some (.file _) => true
  | _ => false

def read (t : FileTree) (p : Path) : Except Fault ByteArray :=
  usable p do
    match t.item? (← t.walk [] p.names) with
    | some (.file bytes) => return bytes
    | some .directory => throw .isDirectory
    | none => throw .missing

def readText (t : FileTree) (p : Path) : Except Fault String := do
  match Text.decode? (← t.read p) with
  | some s => return s
  | none => throw .undecodable

/-- The names in the directory that a path leads to, in the order of their characters. -/
def list (t : FileTree) (p : Path) : Except Fault (List String) :=
  usable p do
    let place ← t.walk [] p.names
    if !t.hasDirectory place then throw .notDirectory
    let names := t.items.filterMap fun (names, _) =>
      if names.dropLast = place then names.getLast? else none
    return names.mergeSort fun a b => a ≤ b

def put (t : FileTree) (place : List String) (item : FileItem) : FileTree :=
  ⟨t.items.filter (·.1 != place) ++ [(place, item)]⟩

def write (t : FileTree) (p : Path) (text : String) : Except Fault FileTree :=
  usable p do
    let parent ← t.walk [] p.parent.names
    if !t.hasDirectory parent then throw .notDirectory
    let place := parent ++ [p.name]
    if p.name = ".." ∨ p.names = [] ∨ t.hasDirectory place then throw .isDirectory
    return t.put place (.file text.toUTF8)

def makeDirectory (t : FileTree) (p : Path) : Except FileProblem FileTree := do
  let parent ← t.walk [] p.parent.names
  if !t.hasDirectory parent then throw .notDirectory
  let place := parent ++ [p.name]
  if p.name = ".." ∨ p.names = [] ∨ (t.item? place).isSome then throw .exists
  return t.put place .directory

/-- Makes a directory; one that is there already will do. -/
def ensureDirectory (t : FileTree) (p : Path) : Except Fault FileTree :=
  match t.makeDirectory p with
  | .error problem =>
    if problem ≠ .missing ∧ t.isDirectory p then .ok t else .error (.file ⟨problem, p⟩)
  | .ok t => .ok t

/-- Makes the directory of a root and names, given in reverse, with all directories above it. -/
def ensureAbove (t : FileTree) (root : String) : List String → Except Fault FileTree
  | [] => t.ensureDirectory ⟨root, []⟩
  | name :: above =>
    let p : Path := ⟨root, (name :: above).reverse⟩
    match t.makeDirectory p with
    | .error .missing => do
      let t ← t.ensureAbove root above
      t.ensureDirectory p
    | _ => t.ensureDirectory p

def ensureDirectories (t : FileTree) (p : Path) : Except Fault FileTree :=
  if isUnusable p then .error (.value .nullInPath) else t.ensureAbove p.root p.names.reverse

end FileTree

end DesignTokens
