import Hoist.CommandLine

namespace Hoist

/-- The number of a system failure and what it is called. -/
def systemFailure : IO.Error → UInt32 × String
  | .alreadyExists _ n s | .otherError n s | .resourceBusy n s | .resourceVanished n s
  | .unsupportedOperation n s | .hardwareFault n s | .unsatisfiedConstraints n s
  | .illegalOperation n s | .protocolError n s | .timeExpired n s | .interrupted _ n s
  | .noFileOrDirectory _ n s | .invalidArgument _ n s | .permissionDenied _ n s
  | .resourceExhausted _ n s | .inappropriateType _ n s | .noSuchThing _ n s => (n, s)
  | .unexpectedEof => (0, "unexpected end of file")
  | .userError s => (0, s)

/-- The faults that have a number. -/
def faultOfNumber? : Nat → Option FileFault
  | 2 => some .notFound
  | 20 => some .notDirectory
  | 21 => some .isDirectory
  | 36 => some .nameTooLong
  | _ => none

/-- What is said about a system failure. Its number may come negated. -/
def systemReason (e : IO.Error) : String :=
  let (n, name) := systemFailure e
  let number := if 0x80000000 ≤ n then (-n).toNat else n.toNat
  match faultOfNumber? number with
  | some fault => fault.message
  | none => s!"{name.capitalize} (os error {number})"

/-- What a path on the disk leads to. -/
def diskKind (path : String) : IO (Option PathKind) := do
  try
    match (← (← IO.FS.realPath path).metadata).type with
    | .dir => return some .directory
    | .file => return some .file
    | _ => return none
  catch _ => return none

/-- The names in a directory on the disk, in their order. -/
def diskNames (path : String) : IO (Except String (List String)) := do
  try
    let entries ← (← IO.FS.realPath path).readDir
    let names := entries.toList.map IO.FS.DirEntry.fileName
    return .ok (names.mergeSort fun a b => decide (a ≤ b))
  catch e => return .error (systemReason e)

/-- The files below a directory on the disk. -/
partial def diskFiles (path : String) : ExceptT (String × String) IO (List (List String)) := do
  match ← diskNames path with
  | .error reason => throw (path, reason)
  | .ok names =>
    let below ← names.mapM fun name => do
      let inner := joinPath path name
      match ← diskKind inner with
      | some .directory => return (← diskFiles inner).map (name :: ·)
      | _ => return [[name]]
    return below.flatten

/-- The text of a file on the disk. -/
def diskRead (path : String) : IO (Except String String) := do
  try
    match String.fromUTF8? (← IO.FS.readBinFile path) with
    | some text => return .ok text
    | none => return .error FileFault.notText.message
  catch e => return .error (systemReason e)

/-- Writes a file on the disk. -/
def diskWrite (path text : String) : IO (Except String Unit) := do
  try
    IO.FS.writeFile path text
    return .ok ()
  catch e => return .error (systemReason e)

/-- The files on the disk, for a run that started at some time. -/
def diskAccess (start : Nat) : FileAccess IO where
  kindOf := diskKind
  filesUnder path := (diskFiles path).run
  read := diskRead
  write := diskWrite
  elapsed := return toString ((← IO.monoMsNow) - start) ++ "ms"

end Hoist

def main (arguments : List String) : IO Unit := do
  for line in ← Hoist.runArguments (Hoist.diskAccess (← IO.monoMsNow)) arguments do
    IO.println line
