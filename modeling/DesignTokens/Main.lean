import DesignTokens.CommandLine

/-! The program. It takes the files of the directories that a command line is about, runs the
command line on them, writes the files that have changed and prints the lines. -/
namespace DesignTokens

def placeText (place : List String) : String := "/" ++ "/".intercalate place

/-- The items at a place of the file system and below it. -/
partial def itemsAt (place : List String) : IO (List (List String × FileItem)) := do
  let path := System.mkFilePath [placeText place]
  if !(← path.pathExists) then return []
  if ← path.isDir then
    let entries ← path.readDir
    let below ← entries.toList.mapM fun entry => itemsAt (place ++ [entry.fileName])
    return (place, .directory) :: below.flatten
  else return [(place, .file (← IO.FS.readBinFile path))]

/-- The tree with the items of directories, and the directories above them. -/
def withDirectories (t : FileTree) (directories : List Path) : IO FileTree :=
  directories.foldlM (fun t directory => do
    if t.hasDirectory directory.names && !directory.names.isEmpty then return t
    let above := (List.range directory.names.length).map fun n => directory.names.take n
    let items ← itemsAt directory.names
    let known := above.map (·, FileItem.directory) ++ items
    return ⟨known.filter (fun (place, _) => (t.item? place).isNone) ++ t.items⟩) t

def writeChanges (before after : FileTree) : IO Unit :=
  after.items.forM fun (place, item) => do
    let path := System.mkFilePath [placeText place]
    match item, before.item? place with
    | .directory, none => IO.FS.createDirAll path
    | .file bytes, some (.file old) => if bytes != old then IO.FS.writeBinFile path bytes
    | .file bytes, _ => IO.FS.writeBinFile path bytes
    | .directory, some _ => pure ()

def runProgram (arguments : List String) : IO UInt32 := do
  let here := Path.ofText (← IO.currentDir).toString
  let environment ← IO.getEnv "MODETOKENS_SKIP"
  let request := CommandLine.Request.read arguments
  let named ← withDirectories ⟨[]⟩ (request.directories here)
  let files ← withDirectories named (request.manifestDirectories named here environment)
  let run := CommandLine.run files here environment arguments
  writeChanges files run.files
  run.warnings.forM fun w => IO.eprintln w.message
  run.output.forM IO.println
  run.errors.forM IO.eprintln
  if let some failure := run.failure then IO.eprintln failure.message
  if run.exitCode = 2 then IO.eprintln CommandLine.usage
  return UInt32.ofNat run.exitCode

end DesignTokens

def main (arguments : List String) : IO UInt32 := DesignTokens.runProgram arguments
