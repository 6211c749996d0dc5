import Hoist.Token
import Hoist.Tree

namespace Hoist

/-- How a node is named in a message. -/
def nodeText (n : NodeId) : String := s!"node({n})"

/-- What a token was meant to do to its target. -/
inductive TargetUse
  | assign
  | increment
  deriving DecidableEq

/-- Why a program, a file, a configuration or a step was refused. A token that was found is `none` at
the end of the text. -/
inductive Cause
  | unterminatedComment
  | unterminatedString
  | bitwiseAnd
  | bitwiseOr
  | invalidNumber (text : String)
  | unexpectedCharacter (c : Char)
  | expected (token : TokenKind) (found : Option TokenKind)
  | expectedName (found : Option TokenKind)
  | expectedPropertyName (found : Option TokenKind)
  | expectedExpression (found : Option TokenKind)
  | expectedClause (found : Option TokenKind)
  | badTarget (use : TargetUse) (kind : Kind)
  | nothingAtPath
  | unreadableDirectory (reason : String)
  | unreadableSource (reason : String)
  | unwritableFile (reason : String)
  | unreadableConfig (reason : String)
  | malformedConfig
  | badTempPrefix (text : String)
  | noParent (node : NodeId) (kind : Kind)
  | notListed (node parent : NodeId)
  | ownedTwice (node : NodeId)
  | strayParent (node parent : NodeId)
  | unattached (node : NodeId) (kind : Kind)
  | notThroughFirstChild (root : Kind)
  | noRootToInjectBefore (kind : Kind)
  | outsideStatementList (kind : Kind)
  | noProgress (kind : Kind)
  | noStatementToDecompose (kind : Kind)
  | noRootToExpose (kind : Kind)
  | notMovable (kind : Kind)
  | conditionalOperand (kind : Kind)
  | reachedBeforeRoot (kind : Kind)
  | lostParent (node : NodeId) (kind : Kind)
  | missingOperand (kind : Kind)
  | notMethodCall (kind callee : Kind)
  | notConditional (kind : Kind)
  | unusedValue (kind parent : Kind)
  | operandCount (kind : Kind) (count : Nat)
  deriving DecidableEq

/-- Whose mistake a cause is: the program's, the file system's, the configuration's, or ours. -/
inductive Category
  | program
  | file
  | config
  | internal
  deriving DecidableEq

/-- The heading of a category. -/
def Category.label : Category → String
  | .program => "Syntax Error"
  | .file => "File Error"
  | .config => "Malformed Config"
  | .internal => "Compiler Bug"

namespace Cause

def category : Cause → Category
  | .unterminatedComment | .unterminatedString | .bitwiseAnd | .bitwiseOr | .invalidNumber _
  | .unexpectedCharacter _ | .expected _ _ | .expectedName _ | .expectedPropertyName _
  | .expectedExpression _ | .expectedClause _ | .badTarget _ _ => .program
  | .nothingAtPath | .unreadableDirectory _ | .unreadableSource _ | .unwritableFile _ => .file
  | .unreadableConfig _ | .malformedConfig | .badTempPrefix _ => .config
  | _ => .internal

/-- A token between quotes. -/
def quotedToken (token : TokenKind) : String := s!"'{token.spelling}'"

/-- What is said about a cause. -/
def message : Cause → String
  | .unterminatedComment => "Unterminated block comment"
  | .unterminatedString => "Unterminated string literal"
  | .bitwiseAnd => "Bitwise '&' is not supported"
  | .bitwiseOr => "Bitwise '|' is not supported"
  | .invalidNumber text => s!"Invalid number literal '{text}'"
  | .unexpectedCharacter c => s!"Unexpected character '{c}'"
  | .expected token found => s!"Expected {quotedToken token} but found {inspectFound found}"
  | .expectedName found => s!"Expected a name but found {inspectFound found}"
  | .expectedPropertyName found => s!"Expected a property name but found {inspectFound found}"
  | .expectedExpression found => s!"Expected an expression but found {inspectFound found}"
  | .expectedClause found =>
    s!"Expected 'case', 'default' or '\x7d' in switch but found {inspectFound found}"
  | .badTarget .assign kind => s!"Can't assign to a {kind.describe}"
  | .badTarget .increment kind => s!"Can't increment a {kind.describe}"
  | .nothingAtPath => "No file or directory at this path"
  | .unreadableDirectory reason => s!"Could not read directory: {reason}"
  | .unreadableSource reason => s!"Could not read source file: {reason}"
  | .unwritableFile reason => s!"Error writing file: {reason}"
  | .unreadableConfig reason => s!"Could not read config file: {reason}"
  | .malformedConfig => "Invalid config"
  | .badTempPrefix text =>
    s!"'{text}' can't start a variable name, so it can't be used as the temp name prefix"
  | .noParent node kind => s!"{nodeText node} ({kind.describe}) has no parent"
  | .notListed node parent =>
    s!"{nodeText node} is not listed under its parent {nodeText parent}"
  | .ownedTwice node => s!"{nodeText node} is reachable through two parents"
  | .strayParent node parent =>
    s!"{nodeText node} does not point back at its parent {nodeText parent}"
  | .unattached node kind => s!"{nodeText node} ({kind.describe}) is not attached to a script"
  | .notThroughFirstChild root =>
    s!"Expression is nested in the {root.describe} but not through its first child"
  | .noRootToInjectBefore kind => s!"{kind.describe} has no expression root to inject before"
  | .outsideStatementList kind =>
    s!"The {kind.describe} that would receive extracted code is not inside a statement list"
  | .noProgress kind => s!"Decomposing the {kind.describe} stopped making progress"
  | .noStatementToDecompose kind =>
    s!"Asked to decompose a {kind.describe} that has no statement to be hoisted in front of"
  | .noRootToExpose kind => s!"Can't expose a {kind.describe} that has no expression root"
  | .notMovable kind => s!"Can't relocate a {kind.describe} that isn't movable"
  | .conditionalOperand kind =>
    s!"Walked into a conditionally evaluated operand of a {kind.describe}" ++
      " while exposing an expression"
  | .reachedBeforeRoot kind =>
    s!"Reached the {kind.describe} before the expression root while exposing an expression"
  | .lostParent node kind =>
    s!"{nodeText node} ({kind.describe}) lost its parent while being decomposed"
  | .missingOperand kind => s!"Expected the {kind.describe} to have an operand"
  | .notMethodCall kind callee =>
    "Only calls through a property or element access can be rewritten, " ++
      s!"found a {kind.describe} calling a {callee.describe}"
  | .notConditional kind => s!"Can't turn a {kind.describe} into control flow"
  | .unusedValue kind _ =>
    s!"A {kind.describe} whose value is unused must be a whole expression statement"
  | .operandCount kind count => s!"Conditional {kind.describe} has {count} operands"

end Cause

/-- What else is said about a cause. -/
inductive NoteKey
  | stage
  | suggestion
  | insertion
  | nodeKind
  | invariant
  deriving DecidableEq

namespace Cause

/-- The note that names the phase which found the mistake. -/
def lexing : NoteKey × String := (.stage, "Tokenization")

/-- The note that names the phase which found the mistake. -/
def parsing : NoteKey × String := (.stage, "Parsing")

/-- The notes on a cause. -/
def notes : Cause → List (NoteKey × String)
  | .unterminatedComment => [lexing, (.insertion, "*/")]
  | .unterminatedString =>
    [lexing, (.suggestion, "Close the string with a matching quote on the same line")]
  | .bitwiseAnd => [lexing, (.suggestion, "Did you mean the logical operator '&&'?")]
  | .bitwiseOr => [lexing, (.suggestion, "Did you mean the logical operator '||'?")]
  | .invalidNumber _ | .unexpectedCharacter _ => [lexing]
  | .expected token _ => [parsing, (.insertion, quotedToken token)]
  | .expectedName _ | .expectedPropertyName _ | .expectedExpression _ | .expectedClause _
  | .badTarget _ _ => [parsing]
  | .nothingAtPath | .unreadableDirectory _ | .unreadableSource _ | .unwritableFile _
  | .unreadableConfig _ => []
  | .malformedConfig =>
    [(.stage, "Config"),
     (.suggestion, "Valid keys are 'temp_name_prefix', 'expose_calls' and 'relocate'")]
  | .badTempPrefix _ =>
    [(.suggestion, "Use letters, digits, '_' or '$' and don't start with a digit")]
  | .noParent _ _ => [(.invariant, "mutated node must be attached to the tree")]
  | .notListed _ _ =>
    [(.invariant, "parent back-reference must agree with the parent's children")]
  | .ownedTwice _ => [(.invariant, "single ownership")]
  | .strayParent _ _ => [(.invariant, "parent back-reference")]
  | .unattached _ _ =>
    [(.invariant, "decomposed expressions must be reachable from the tree root")]
  | .notThroughFirstChild root =>
    [(.invariant, "the path to an expression root runs through the root's first child"),
     (.nodeKind, root.describe)]
  | .noRootToInjectBefore _ =>
    [(.invariant, "only decomposable expressions have an injection point"),
     (.suggestion, "Classify the expression before rewriting it")]
  | .outsideStatementList _ =>
    [(.invariant, "injection points sit directly in a block or script")]
  | .noProgress _ =>
    [(.invariant, "each exposure pass moves the expression closer to movable")]
  | .noStatementToDecompose _ =>
    [(.invariant, "only decomposable expressions are decomposed"),
     (.suggestion, "Check classify() before decomposing")]
  | .noRootToExpose _ =>
    [(.invariant, "only decomposable expressions are exposed"),
     (.suggestion, "Check classify() before exposing")]
  | .notMovable _ =>
    [(.invariant, "only movable expressions are relocated"),
     (.suggestion, "Run decompose_until_movable() first")]
  | .conditionalOperand kind =>
    [(.invariant, "only the first operand of a conditional can be walked through"),
     (.nodeKind, kind.describe)]
  | .reachedBeforeRoot kind =>
    [(.invariant, "the expression root is the nearest statement above the expression"),
     (.nodeKind, kind.describe)]
  | .lostParent _ _ =>
    [(.invariant, "nodes between an expression and its root stay attached")]
  | .missingOperand kind =>
    [(.invariant, "node kinds have a fixed number of children"), (.nodeKind, kind.describe)]
  | .notMethodCall _ callee =>
    [(.invariant, "method call rewrites need a property or element access callee"),
     (.nodeKind, callee.describe)]
  | .notConditional kind =>
    [(.invariant, "only ?:, && and || are extracted as conditionals"),
     (.nodeKind, kind.describe)]
  | .unusedValue _ parent =>
    [(.invariant, "conditionals extracted for effect are expression statements"),
     (.nodeKind, parent.describe)]
  | .operandCount _ _ => [(.invariant, "node kinds have a fixed number of children")]

end Cause

/-- A cause, the stretch of text it is about, and the file, which is empty where none is known. -/
structure Problem where
  cause : Cause
  span : Span
  file : String
  deriving DecidableEq

/-- A problem that no file is known for yet. -/
def Problem.ofCause (cause : Cause) (span : Span) : Problem := ⟨cause, span, ""⟩

/-- A problem with a whole file. -/
def Problem.ofFile (cause : Cause) (file : String) : Problem := ⟨cause, .nowhere, file⟩

/-- The same problem, in a file. -/
def Problem.inFile (p : Problem) (file : String) : Problem := { p with file := file }

/-- The text of a note, if the cause has it. -/
def Problem.note? (p : Problem) (key : NoteKey) : Option String :=
  (p.cause.notes.find? fun note => note.1 = key).map Prod.snd

end Hoist
