import Hoist.Build

namespace Hoist

/-- How a movability is named. -/
def Movability.name : Movability → String
  | .undecomposable => "Undecomposable"
  | .movable => "Movable"
  | .decomposable => "Decomposable"

/-- The two hexadecimal digits of a small number. -/
def twoHexDigits (n : Nat) : List Char := [Nat.digitChar (n / 16 % 16), Nat.digitChar (n % 16)]

/-- How a character is written in a JSON string. -/
def jsonChar (c : Char) : List Char :=
  if c = '"' then ['\\', '"']
  else if c = '\\' then ['\\', '\\']
  else if c = '\n' then ['\\', 'n']
  else if c = '\t' then ['\\', 't']
  else if c = '\r' then ['\\', 'r']
  else if c = '\x08' then ['\\', 'b']
  else if c = '\x0c' then ['\\', 'f']
  else if c.toNat < 0x20 then '\\' :: 'u' :: '0' :: '0' :: twoHexDigits c.toNat
  else [c]

/-- A JSON string. -/
def jsonText (text : String) : String :=
  String.ofList ('"' :: text.toList.flatMap jsonChar ++ ['"'])

/-- The lines of items with a comma behind each but the last one. -/
def commaLines : List (List String) → List String
  | [] => []
  | [item] => item
  | item :: items =>
    item.dropLast ++ (item.getLast?.map (· ++ ",")).toList ++ commaLines items

/-- The lines of items between brackets, one step to the right of them. -/
def bracketLines (before opening closing : String) (items : List (List String)) : List String :=
  if items.isEmpty then [before ++ opening ++ closing]
  else (before ++ opening) :: (commaLines items).map ("  " ++ ·) ++ [closing]

/-- The line of a member of a JSON object. -/
def memberLine (name value : String) : List String := [s!"{jsonText name}: {value}"]

/-- The lines of a call as a JSON object. -/
def CallSite.jsonLines (site : CallSite) : List String :=
  bracketLines "" "\x7b" "\x7d" [
    memberLine "callee" (jsonText site.callee),
    memberLine "line" (toString site.start.line),
    memberLine "column" (toString site.start.column),
    memberLine "classification" (jsonText site.movability.name),
    memberLine "relocated" (if site.relocated then "true" else "false")]

/-- The lines of a report as a JSON object. -/
def FileReport.jsonLines (report : FileReport) : List String :=
  bracketLines "" "\x7b" "\x7d" [
    memberLine "path" (jsonText report.path),
    bracketLines (jsonText "call_sites" ++ ": ") "[" "]" (report.callSites.map CallSite.jsonLines)]

/-- The lines of reports as a JSON array. -/
def reportsJson (reports : List FileReport) : List String :=
  bracketLines "" "[" "]" (reports.map FileReport.jsonLines)

/-- The line about a call. -/
def CallSite.line (site : CallSite) : String :=
  s!"  {site.callee} (line {site.start.line}) {site.movability.name}"

/-- The lines of a report. -/
def FileReport.lines (report : FileReport) : List String :=
  ["", report.path] ++
    if report.callSites.isEmpty then ["  no call sites"] else report.callSites.map CallSite.line

end Hoist
