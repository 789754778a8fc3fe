import DesignTokens.FileTree
import DesignTokens.Noted
import DesignTokens.Yaml.Library

/-! Overlays: files that hold one tree of tokens each. -/
namespace DesignTokens

variable [Yaml.Library]

/-- Reads a YAML text from a file. Files that cannot be read, and texts that are no YAML, are told
by `failure`. -/
def readYaml (expressions : Bool) (failure : LoadFault → TokenError) (text : String) :
    Except Failure Value :=
  match Yaml.read expressions text with
  | .ok v => .ok v
  | .error .malformed => .error (.token (failure .invalidYaml))
  | .error (.fault f) => .error (.fault f)

/-- The tree of an overlay. An empty file holds an empty tree. -/
def loadOverlay (t : FileTree) (path : Path) : Noted Value := do
  let failure (fault : LoadFault) := Failure.load fault (some path) none none
  let text ← match t.readText path with
    | .ok text => pure text
    | .error (.file f) => Noted.fail (.token (failure (.unreadable f)))
    | .error f => Noted.fail (.fault f)
  match ← Noted.ofExcept (readYaml true failure text) with
  | .null => do
    Noted.warn (.emptyFile path)
    return .map []
  | .map es => return .map es
  | v => Noted.fail (.token (failure (.notAMapping v.kind)))

end DesignTokens
