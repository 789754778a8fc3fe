import DesignTokens.Failure

/-! Variable names. A variable is named by the prefix of its type, a hyphen, and its path with dots
between the segments. -/
namespace DesignTokens

def fullName (typePrefix : String) (path : List String) : String :=
  typePrefix ++ "-" ++ ".".intercalate path

/-- The name of the variable at a path, which may not be empty. -/
def fullName? (typePrefix : String) (path : List String) : Except Failure String :=
  if path.isEmpty then .error (.value (.emptyPath typePrefix)) else .ok (fullName typePrefix path)

def splitPath (dotted : String) : List String := Text.splitOn '.' dotted

def dottedPath (path : List String) : String := ".".intercalate path

/-- The name of a variable that is written without its prefix. -/
def nameOfDotted (typePrefix dotted : String) : String := fullName typePrefix (splitPath dotted)

end DesignTokens
