import Hoist.NameChar

namespace Hoist

/-- What can be asked for besides the paths. -/
inductive Flag
  | relocate
  | check
  | json
  | hideWarnings
  | hideTimers
  deriving DecidableEq

/-- Every flag. -/
def Flag.all : List Flag := [.relocate, .check, .json, .hideWarnings, .hideTimers]

/-- How a flag is written. -/
def Flag.spelling : Flag → String
  | .relocate => "--relocate"
  | .check => "--check"
  | .json => "--json"
  | .hideWarnings => "--hide-warnings"
  | .hideTimers => "--hide-timers"

/-- The flag that an argument is. -/
def Flag.ofText? (argument : String) : Option Flag :=
  Flag.all.find? fun flag => flag.spelling = argument

/-- The flags among arguments, wherever they stand. -/
def flagsOf (arguments : List String) : List Flag := arguments.filterMap Flag.ofText?

/-- What a command works on. -/
structure Options where
  paths : List String
  settingsFile : Option String
  tempPrefix : Option String
  deriving DecidableEq

/-- What is wrong with arguments. -/
inductive ArgumentFault
  | unknownCommand (text : String)
  | noSettingsFile
  | noTempPrefix
  | badTempPrefix (text : String)
  | unknownFlag (text : String)
  | noPath
  deriving DecidableEq

/-- What is said about a fault. -/
def ArgumentFault.message : ArgumentFault → String
  | .unknownCommand text => s!"Invalid command: '{text}'"
  | .noSettingsFile => "Missing value for --config"
  | .noTempPrefix => "Missing value for --prefix"
  | .badTempPrefix text =>
    s!"Invalid --prefix value: '{text}'. It has to be able to start a variable name."
  | .unknownFlag text => s!"Unknown flag: '{text}'. Run 'sprout help' to see the supported flags."
  | .noPath => "Expected at least one file or directory to work on"

/-- Whether an argument is written like a flag. -/
def isFlagLike (argument : String) : Bool := ['-', '-'].isPrefixOf argument.toList

/-- The options among arguments. Of an option that comes twice the last one counts. -/
def scanOptions : List String → Except ArgumentFault Options
  | [] => return ⟨[], none, none⟩
  | "--config" :: rest =>
    match rest with
    | [] => throw .noSettingsFile
    | file :: rest => do
      if isFlagLike file then throw .noSettingsFile
      let options ← scanOptions rest
      return { options with settingsFile := options.settingsFile <|> some file }
  | "--prefix" :: rest =>
    match rest with
    | [] => throw .noTempPrefix
    | text :: rest => do
      if !isNameLike text then throw (.badTempPrefix text)
      let options ← scanOptions rest
      return { options with tempPrefix := options.tempPrefix <|> some text }
  | argument :: rest => do
    if (Flag.ofText? argument).isSome then scanOptions rest
    else if isFlagLike argument then throw (.unknownFlag argument)
    else
      let options ← scanOptions rest
      return { options with paths := argument :: options.paths }

/-- The options of a command, which needs something to work on. -/
def readOptions (arguments : List String) : Except ArgumentFault Options := do
  let options ← scanOptions arguments
  if options.paths.isEmpty then throw .noPath
  return options

/-- What is to be done. -/
inductive Command
  | help
  | decompose (options : Options)
  | classify (options : Options)
  deriving DecidableEq

/-- The command that arguments give. Without arguments, it is a call for help. -/
def readCommand : List String → Except ArgumentFault Command
  | [] => return .help
  | "help" :: _ => return .help
  | "decompose" :: rest => return .decompose (← readOptions rest)
  | "classify" :: rest => return .classify (← readOptions rest)
  | text :: _ => throw (.unknownCommand text)

end Hoist
