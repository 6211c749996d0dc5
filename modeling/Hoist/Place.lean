import Hoist.FilePath

namespace Hoist

/-- Where names lead: below the directory of a run, or below the top of the system. -/
inductive Place
  | inRun (names : List String)
  | inSystem (names : List String)
  deriving DecidableEq

/-- What a place outside of the directory of a run can be. -/
inductive SystemEntry
  | directory
  /-- Reads as an empty text, and what is written to it is lost. -/
  | sink
  deriving DecidableEq

/-- The directories at the top of every system. -/
def systemDirectories : List String :=
  ["bin", "dev", "etc", "home", "lib", "media", "mnt", "opt", "proc", "root", "run", "sbin", "srv",
   "sys", "tmp", "usr", "var"]

/-- What is known to stand below the top of a system. -/
def systemEntry? : List String → Option SystemEntry
  | [] => some .directory
  | [name] => if systemDirectories.contains name then some .directory else none
  | names => if names = ["dev", "null"] then some .sink else none

namespace Place

/-- The place that a path starts from, if it is not the empty path. -/
def start? (path : String) : Option Place :=
  if path = "" then none
  else if (segments path).head? = some "" then some (.inSystem []) else some (.inRun [])

/-- The place of a name in a directory. -/
def child (name : String) : Place → Place
  | .inRun names => .inRun (names ++ [name])
  | .inSystem names => .inSystem (names ++ [name])

/-- The place of the directory that another one stands in. The top of the system stands in itself,
and the directory of a run is taken to stand there too. -/
def parent : Place → Place
  | .inRun [] => .inSystem []
  | .inRun names => .inRun names.dropLast
  | .inSystem names => .inSystem names.dropLast

end Place

end Hoist
