import Hoist.Arguments
import Hoist.Decomposition
import Hoist.ScriptSearch
import Hoist.SettingsFile

namespace Hoist

/-- The calls of a file, as they were found. -/
structure FileReport where
  path : String
  callSites : List CallSite
  deriving DecidableEq

/-- What became of files. -/
structure Build where
  reports : List FileReport
  problems : List Problem
  warnings : List Warning

variable {m : Type → Type} [Monad m]

/-- The settings in a file. -/
def readSettings (access : FileAccess m) (file : String) : ExceptT Problem m Settings := do
  match ← access.read file with
  | .error reason => throw (.ofFile (.unreadableConfig reason) file)
  | .ok text => MonadExcept.ofExcept (Settings.ofText file text)

/-- The settings that are found without being asked for. -/
def discoverSettings (access : FileAccess m) : ExceptT Problem m Settings := do
  match ← access.kindOf settingsFileName with
  | some .file => readSettings access settingsFileName
  | _ => return .standard

/-- The settings of a run. What the arguments say goes before what a file says. -/
def settingsOf (access : FileAccess m) (options : Options) (flags : List Flag) :
    ExceptT Problem m Settings := do
  let settings ← match options.settingsFile with
    | some file => readSettings access file
    | none => discoverSettings access
  return { settings with
    tempPrefix := options.tempPrefix.getD settings.tempPrefix
    relocate := settings.relocate || flags.contains .relocate }

/-- Decomposes a file and writes the result, or only checks it. -/
def buildFile (access : FileAccess m) (settings : Settings) (check : Bool) (path : String) :
    ExceptT Problem m (FileReport × List Warning) := do
  match ← access.read path with
  | .error reason => throw (.ofFile (.unreadableSource reason) path)
  | .ok text =>
    let result ← MonadExcept.ofExcept (decompose settings path text)
    if !check then
      let target := outputPath path
      if let .error reason ← access.write target result.source then
        throw (.ofFile (.unwritableFile reason) target)
    return (⟨path, result.report⟩, result.warnings)

/-- A build to which the result for one more file is added in front. -/
def Build.add (b : Build) : Except Problem (FileReport × List Warning) → Build
  | .ok (report, warnings) =>
    { b with reports := report :: b.reports, warnings := warnings ++ b.warnings }
  | .error problem => { b with problems := problem :: b.problems }

/-- Decomposes files, one after the other. A file that fails does not stop the others. -/
def buildFiles (access : FileAccess m) (settings : Settings) (check : Bool) :
    List String → m Build
  | [] => return ⟨[], [], []⟩
  | path :: paths => do
    let result ← (buildFile access settings check path).run
    return (← buildFiles access settings check paths).add result

end Hoist
