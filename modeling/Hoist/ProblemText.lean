import Hoist.Decomposition
import Hoist.FileAccess

namespace Hoist

/-- Lines of a text that lose a carriage return before the newline that ends them. -/
def dropReturns : List (List Char) → List (List Char)
  | [] => []
  | [last] => [last]
  | line :: lines =>
    (if line.getLast? = some '\r' then line.dropLast else line) :: dropReturns lines

/-- A line of a text, counted from zero. Behind the last one, lines are empty. -/
def lineOf (text : String) (index : Nat) : String :=
  String.ofList ((dropReturns (text.toList.splitOn '\n')).getD index [])

/-- A path as it is shown. A mark of long paths in front of it is left out. -/
def shownPath (path : String) : String :=
  let mark := "\\\\?\\".toList
  if mark.isPrefixOf path.toList then String.ofList (path.toList.drop mark.length) else path

/-- The lines above a problem that name its file, if the file has a name. -/
def bannerLines (path left right : String) : List String :=
  if path.isEmpty then [] else ["", s!"{left} {path} {right}"]

/-- What is shown of a span in a line: the line, and carets under the span. -/
def snippetLines (line : String) (span : Span) : List String :=
  if line.isEmpty then []
  else
    let width := max 1 (span.finish.column - span.start.column)
    ["", line, String.ofList (List.replicate span.start.column ' ' ++ List.replicate width '^')]

/-- The line that a span starts in, counted from one. -/
def Span.lineNumber (span : Span) : Nat := max 1 span.start.line.toNat

/-- The lines about a problem, with the line of the file that it starts in. -/
def Problem.lines (p : Problem) (line : String) : List String :=
  let path := shownPath p.file
  let explained := p.cause.message :: (p.note? .suggestion).toList ++ snippetLines line p.span
  match p.cause.category with
  | .program =>
    bannerLines path "(╯°□°)╯  🔥🔥" "🔥🔥  Σ(°△°;) " ++
      [p.cause.category.label, s!"Line {p.span.lineNumber}"] ++ explained
  | .file => [s!"🏚 Can't find/read file or directory: {path}", p.cause.message]
  | .config =>
    bannerLines path " (-_-)  🔥🔥🔥🔥" "🔥🔥🔥🔥  <(^~^)/ " ++
      ["CONFIG FILE ISSUE- ", p.cause.message]
  | .internal =>
    bannerLines path "ヽ༼☉ ‿ ⚆༽ﾉ  🔥🔥🔥🔥" "🔥🔥🔥🔥  ╰(° _ o╰) " ++
      ["COMPILER BUG - ", "optimizer pass developer skill issue (not your fault)"] ++
      (p.note? .invariant).toList.map ("Violated invariant: " ++ ·) ++ explained

/-- The lines about a warning. -/
def Warning.lines (w : Warning) : List String :=
  ["WARNING: ",
    s!"Call site '{w.source}' can't be exposed ({w.file} line {w.span.start.line})"]

variable {m : Type → Type} [Monad m]

/-- The line of its file in which a problem starts, empty if the file can not be read. -/
def problemLine (access : FileAccess m) (p : Problem) : m String := do
  match ← access.read p.file with
  | .ok text => return lineOf text (p.span.lineNumber - 1)
  | .error _ => return ""

/-- The lines about problems. -/
def problemLines (access : FileAccess m) : List Problem → m (List String)
  | [] => return []
  | p :: ps => return p.lines (← problemLine access p) ++ (← problemLines access ps)

end Hoist
