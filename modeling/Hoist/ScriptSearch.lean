import Hoist.FileAccess
import Hoist.FilePath
import Hoist.Problem

namespace Hoist

variable {m : Type → Type} [Monad m]

/-- The scripts below a directory. -/
def scriptsUnder (access : FileAccess m) (directory : String) :
    ExceptT Problem m (List String) := do
  match ← access.filesUnder directory with
  | .error (path, reason) => throw (.ofFile (.unreadableDirectory reason) path)
  | .ok places =>
    let scripts := places.filter fun place => place.getLast?.any isScriptName
    return scripts.map fun place => joinPath directory ("/".intercalate place)

/-- The files that a path asks for: the scripts below a directory, or a file whatever its name. -/
def filesAt (access : FileAccess m) (path : String) : ExceptT Problem m (List String) := do
  match ← access.kindOf path with
  | some .directory => scriptsUnder access path
  | some .file => return [path]
  | none => throw (.ofFile .nothingAtPath path)

/-- The files that paths ask for. -/
def findScripts (access : FileAccess m) : List String → ExceptT Problem m (List String)
  | [] => return []
  | path :: paths => return (← filesAt access path) ++ (← findScripts access paths)

end Hoist
