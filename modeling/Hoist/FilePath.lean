namespace Hoist

/-- The parts of a path between its slashes. -/
def segments (path : String) : List String :=
  (path.toList.splitOn '/').map String.ofList

/-- Whether a segment leads nowhere else. -/
def isIdle (segment : String) : Bool := segment = "" || segment = "."

/-- Segments without the idle ones at the end. The first one tells where a path starts and stays. -/
def dropIdle : List String → List String
  | [] => []
  | first :: rest => first :: (rest.reverse.dropWhile isIdle).reverse

/-- The segments before the name that a path ends in, and that name, if the path ends in one. -/
def splitName (path : String) : Option (List String × String) := do
  let parts := dropIdle (segments path)
  let name ← parts.getLast?
  if isIdle name || name = ".." then none else some (dropIdle parts.dropLast, name)

/-- A path that starts at a directory. -/
def joinPath (directory path : String) : String :=
  if directory = "" ∨ directory.toList.getLast? = some '/' then directory ++ path
  else directory ++ "/" ++ path

/-- A name cut at its last dot. No name is cut at its first character. -/
def cutName (name : String) : String × Option String :=
  let (ending, rest) := name.toList.reverse.span (· != '.')
  match rest with
  | _ :: c :: cs => (String.ofList (c :: cs).reverse, some (String.ofList ending.reverse))
  | _ => (name, none)

/-- A name without its extension. -/
def stem (name : String) : String := (cutName name).1

/-- What follows the dot at which a name is cut. -/
def extension? (name : String) : Option String := (cutName name).2

/-- Whether a name is that of a script. What was written for a script is not one. -/
def isScriptName (name : String) : Bool :=
  extension? name = some "js" && extension? (stem name) ≠ some "decomposed"

/-- The name of what is written for a file. -/
def outputName (name : String) : String := stem name ++ ".decomposed.js"

/-- Where the result for a file is written: next to it. -/
def outputPath (path : String) : String :=
  match splitName path with
  | some (directory, name) => "/".intercalate (directory ++ [outputName name])
  | none => joinPath path (outputName "")

end Hoist
