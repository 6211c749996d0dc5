import Hoist.TomlText

namespace Hoist

/-- The values that a configuration can hold. -/
inductive TomlValue
  | text (value : String)
  | texts (values : List String)
  | flag (value : Bool)

/-- What follows the newline at the end of a line, if the line holds no more than blanks and a
comment. The end of the text ends a line too. -/
def restOfLine (cs : List Char) : Option (List Char) :=
  let cs := cs.dropWhile isTomlBlank
  let cs := match cs with
    | '#' :: comment => comment.dropWhile fun c => !isTomlControl c
    | cs => cs
  match cs with
  | [] => some []
  | '\n' :: cs => some cs
  | '\r' :: '\n' :: cs => some cs
  | _ => none

/-- Skips blanks, newlines and comments inside an array. The budget bounds the lines. -/
def skipLines : Nat → List Char → List Char
  | 0, cs => cs
  | budget + 1, cs =>
    match cs.dropWhile isTomlBlank, restOfLine cs with
    | '#' :: _, some rest | '\n' :: _, some rest | '\r' :: _, some rest => skipLines budget rest
    | rest, _ => rest

/-- The strings of an array up to its closing bracket, before which one more comma may stand, and
what follows it. The budget bounds their number. -/
def tomlStrings : Nat → List Char → Option (List String × List Char)
  | 0, _ => none
  | budget + 1, cs =>
    match skipLines cs.length cs with
    | ']' :: rest => some ([], rest)
    | cs => do
      let (value, rest) ← tomlString cs
      match skipLines rest.length rest with
      | ']' :: rest => return ([String.ofList value], rest)
      | ',' :: rest =>
        let (values, rest) ← tomlStrings budget rest
        return (String.ofList value :: values, rest)
      | _ => none

/-- A value and what follows it. -/
def tomlValue : List Char → Option (TomlValue × List Char)
  | 't' :: 'r' :: 'u' :: 'e' :: rest => some (.flag true, rest)
  | 'f' :: 'a' :: 'l' :: 's' :: 'e' :: rest => some (.flag false, rest)
  | '[' :: cs => (tomlStrings (cs.length + 1) cs).map fun r => (.texts r.1, r.2)
  | cs => (tomlString cs).map fun r => (.text (String.ofList r.1), r.2)

/-- One entry with the end of its line, and what follows. -/
def tomlEntry (cs : List Char) : Option ((String × TomlValue) × List Char) := do
  let (key, rest) ← tomlKey cs
  match rest.dropWhile isTomlBlank with
  | '=' :: rest =>
    let (value, rest) ← tomlValue (rest.dropWhile isTomlBlank)
    return ((String.ofList key, value), ← restOfLine rest)
  | _ => none

/-- The entries of a text, if it holds nothing else. The budget bounds the lines. -/
def tomlEntriesFrom : Nat → List Char → Option (List (String × TomlValue))
  | 0, _ => some []
  | _, [] => some []
  | budget + 1, cs =>
    match restOfLine cs with
    | some rest => tomlEntriesFrom budget rest
    | none => do
      let (entry, rest) ← tomlEntry (cs.dropWhile isTomlBlank)
      return entry :: (← tomlEntriesFrom budget rest)

/-- The entries of a text, behind a byte order mark if there is one. No key comes twice. -/
def tomlEntries (text : String) : Option (List (String × TomlValue)) := do
  let cs := match text.toList with
    | '\ufeff' :: cs => cs
    | cs => cs
  let entries ← tomlEntriesFrom cs.length cs
  let keys := entries.map Prod.fst
  if keys.Nodup then some entries else none

end Hoist
