import Hoist.Place

namespace Hoist

/-- Why a file was not found, read or written. -/
inductive FileFault
  | notFound
  | notDirectory
  | isDirectory
  | nameTooLong
  | notText
  deriving DecidableEq

/-- What the system says about a fault. -/
def FileFault.message : FileFault → String
  | .notFound => "No such file or directory (os error 2)"
  | .notDirectory => "Not a directory (os error 20)"
  | .isDirectory => "Is a directory (os error 21)"
  | .nameTooLong => "File name too long (os error 36)"
  | .notText => "stream did not contain valid UTF-8"

/-- The files below a directory in the order of the names that lead to them, and directories that
are there whether they hold files or not. -/
structure FileTree where
  files : List (List String × ByteArray)
  directories : List (List String)

/-- What stands at a place. -/
inductive FileEntry
  | file (content : ByteArray)
  | directory
  | sink

namespace FileTree

/-- A directory that holds nothing. -/
def empty : FileTree := ⟨[], []⟩

/-- Whether a directory stands at the end of names. Whatever leads to a file is a directory. -/
def isDirectory (t : FileTree) (names : List String) : Bool :=
  names.isEmpty || t.directories.any names.isPrefixOf ||
    t.files.any fun f => names.isPrefixOf f.1 && names ≠ f.1

/-- What stands at a place, if anything does. -/
def entry? (t : FileTree) : Place → Option FileEntry
  | .inRun names =>
    match t.files.lookup names with
    | some content => some (.file content)
    | none => if t.isDirectory names then some .directory else none
  | .inSystem names =>
    match systemEntry? names with
    | some .directory => some .directory
    | some .sink => some .sink
    | none => none

/-- Puts a file in its place among others. A file at that place is replaced. -/
def putAmong (place : List String) (content : ByteArray) :
    List (List String × ByteArray) → List (List String × ByteArray)
  | [] => [(place, content)]
  | f :: fs =>
    if f.1 = place then (place, content) :: fs
    else if place < f.1 then (place, content) :: f :: fs
    else f :: putAmong place content fs

/-- Puts a file at a place, whatever stands there. -/
def put (t : FileTree) (place : List String) (content : ByteArray) : FileTree :=
  { t with files := putAmong place content t.files }

/-- Puts a directory at a place. -/
def addDirectory (t : FileTree) (place : List String) : FileTree :=
  { t with directories := place :: t.directories }

/-- The bytes that a name may have. -/
def nameLimit : Nat := 255

/-- The place that segments lead to from a place. Only a directory leads on. -/
def follow (t : FileTree) : Place → List String → Except FileFault Place
  | place, [] => .ok place
  | place, segment :: rest =>
    match t.entry? place with
    | none => .error .notFound
    | some .directory =>
      if isIdle segment then t.follow place rest
      else if segment = ".." then t.follow place.parent rest
      else if nameLimit < segment.utf8ByteSize then .error .nameTooLong
      else t.follow (place.child segment) rest
    | some _ => .error .notDirectory

/-- The bytes that a path may have. -/
def pathLimit : Nat := 4095

/-- Whether a path has more bytes than a path may have. -/
def isTooLong (path : String) : Bool := pathLimit < path.utf8ByteSize

/-- The place that a path leads to. The empty path leads nowhere. -/
def resolve (t : FileTree) (path : String) : Except FileFault Place :=
  if isTooLong path then .error .nameTooLong
  else match Place.start? path with
    | none => .error .notFound
    | some place => t.follow place (segments path)

/-- What a path leads to. -/
def find? (t : FileTree) (path : String) : Option FileEntry :=
  match t.resolve path with
  | .ok place => t.entry? place
  | .error _ => none

/-- The text of a file. -/
def read (t : FileTree) (path : String) : Except FileFault String := do
  match t.entry? (← t.resolve path) with
  | none => throw .notFound
  | some .directory => throw .isDirectory
  | some .sink => return ""
  | some (.file content) =>
    match String.fromUTF8? content with
    | some text => return text
    | none => throw .notText

/-- Writes a file. No file is made outside of the directory of a run. -/
def write (t : FileTree) (path text : String) : Except FileFault FileTree := do
  let place ← t.resolve path
  match t.entry? place, place with
  | some .directory, _ => throw .isDirectory
  | some .sink, _ => return t
  | _, .inRun names => return t.put names text.toUTF8
  | _, .inSystem _ => throw .notFound

/-- The names that lead from a directory to the first one that can not be entered because its path
is too long, if names come to such a one. -/
def barrier? (directory : String) : List String → Option (List String)
  | [] => none
  | name :: names =>
    let path := joinPath directory name
    if isTooLong path then some [name] else (barrier? path names).map (name :: ·)

/-- Puts names in their place among others, if they are not there. -/
def insertNames (names : List String) : List (List String) → List (List String)
  | [] => [names]
  | other :: rest =>
    if other = names then other :: rest
    else if names < other then names :: other :: rest
    else other :: insertNames names rest

/-- The files below a directory of the run by the names that lead to them from there. A directory
that can not be entered counts as a file. -/
def filesBelow (t : FileTree) (path : String) (names : List String) : List (List String) :=
  let below (place : List String) :=
    if names.isPrefixOf place then some (place.drop names.length) else none
  let files := (t.files.filterMap fun f => below f.1).map fun inner =>
    (barrier? path inner.dropLast).getD inner
  let closed := (t.directories.filterMap below).filterMap (barrier? path)
  (files ++ closed).foldr insertNames []

/-- The files below a directory by the names that lead to them from there. Outside of the directory
of a run no files are known. -/
def filesUnder (t : FileTree) (path : String) : Except FileFault (List (List String)) := do
  let place ← t.resolve path
  match t.entry? place, place with
  | none, _ => throw .notFound
  | some .directory, .inRun names => return t.filesBelow path names
  | some .directory, .inSystem _ => return []
  | some _, _ => throw .notDirectory

end FileTree

end Hoist
