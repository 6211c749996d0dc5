import Hoist.HelpText
import Hoist.ProblemText
import Hoist.ReportText

namespace Hoist

variable {m : Type → Type} [Monad m]

/-- The lines about the time that a build took, if they are asked for. -/
def timeLines (access : FileAccess m) (flags : List Flag) (done asked : Nat) :
    m (List String) := do
  if flags.contains .hideTimers || flags.contains .json then return []
  let time ← access.elapsed
  return ["", s!"Decomposed {done} of {asked} files in: {time}"]

/-- Builds what options ask for. Gives the lines about the time it took as well. -/
def runBuild (access : FileAccess m) (options : Options) (flags : List Flag) (check : Bool) :
    ExceptT Problem m (Build × List String) := do
  let settings ← settingsOf access options flags
  let paths ← findScripts access options.paths
  let build ← (buildFiles access settings check paths : m Build)
  let time ← (timeLines access flags build.reports.length paths.length : m (List String))
  return (build, time)

/-- The lines about what went wrong in a build, and about its warnings, if they are asked for. -/
def messageLines (access : FileAccess m) (flags : List Flag) (build : Build) :
    m (List String) := do
  let warnings := if flags.contains .hideWarnings then [] else build.warnings
  return (← problemLines access build.problems) ++ warnings.flatMap Warning.lines

/-- Runs a build and shows its results in between the time it took and its messages. A problem that
stops the run is all that is shown. -/
def showBuild (access : FileAccess m) (options : Options) (flags : List Flag) (check : Bool)
    (shown : List FileReport → List String) : m (List String) := do
  match ← (runBuild access options flags check).run with
  | .error problem => problemLines access [problem]
  | .ok (build, time) =>
    return time ++ shown build.reports ++ (← messageLines access flags build)

/-- The lines about the files that were written. -/
def writtenLines (reports : List FileReport) : List String :=
  reports.map fun report => s!"Wrote {outputPath report.path}"

/-- Does what a command says, and gives the lines to print. -/
def Command.run (access : FileAccess m) (flags : List Flag) : Command → m (List String)
  | .help => return titleLines ++ usageLines
  | .decompose options =>
    let check := flags.contains .check
    showBuild access options flags check (if check then fun _ => [] else writtenLines)
  | .classify options =>
    showBuild access options flags true
      (if flags.contains .json then reportsJson else List.flatMap FileReport.lines)

/-- Does what arguments say, and gives the lines to print. -/
def runArguments (access : FileAccess m) (arguments : List String) : m (List String) :=
  match readCommand arguments with
  | .ok command => command.run access (flagsOf arguments)
  | .error fault => return fault.message :: usageLines

end Hoist
