import Hoist.FileTree

namespace Hoist

/-- What a path can lead to. -/
inductive PathKind
  | file
  | directory
  deriving DecidableEq

/-- How the files of a run are reached. Failures come with what the system says about them. -/
structure FileAccess (m : Type → Type) where
  kindOf : String → m (Option PathKind)
  /-- The files below a directory, by the names that lead to them and in the order of these names.
  What can not be entered counts as a file. A failure comes with the directory that could not be
  read. -/
  filesUnder : String → m (Except (String × String) (List (List String)))
  read : String → m (Except String String)
  write : String → String → m (Except String Unit)
  /-- The time since the start of the run. -/
  elapsed : m String

/-- The kind of an entry, if it is a file or a directory. -/
def FileEntry.kind? : FileEntry → Option PathKind
  | .file _ => some .file
  | .directory => some .directory
  | .sink => none

namespace FileTree

/-- Writes a file, if that succeeds. -/
def writeText (path text : String) : StateM FileTree (Except String Unit) := fun t =>
  match t.write path text with
  | .ok t => (.ok (), t)
  | .error fault => (.error fault.message, t)

/-- The files of a tree. The time is not measured, and a text stands for it. -/
def access (time : String) : FileAccess (StateM FileTree) where
  kindOf path := return ((← get).find? path).bind FileEntry.kind?
  filesUnder path := return ((← get).filesUnder path).mapError fun f => (path, f.message)
  read path := return ((← get).read path).mapError FileFault.message
  write := writeText
  elapsed := return time

end FileTree

end Hoist
