import Hoist.InspectedText
import Hoist.NumberText
import Hoist.Position
import Hoist.QuotedText

namespace Hoist

/-- The reserved words. -/
inductive Keyword
  | var | function | return_ | if_ | else_ | while_ | do_ | for_ | switch | case_ | default_
  | break_ | continue_ | new | true_ | false_ | null | this_ | typeof | delete | void | throw
  deriving DecidableEq

/-- Every reserved word. -/
def Keyword.all : List Keyword :=
  [.var, .function, .return_, .if_, .else_, .while_, .do_, .for_, .switch, .case_, .default_,
   .break_, .continue_, .new, .true_, .false_, .null, .this_, .typeof, .delete, .void, .throw]

/-- How a reserved word is written. -/
def Keyword.spelling : Keyword → String
  | .var => "var" | .function => "function" | .return_ => "return" | .if_ => "if"
  | .else_ => "else" | .while_ => "while" | .do_ => "do" | .for_ => "for" | .switch => "switch"
  | .case_ => "case" | .default_ => "default" | .break_ => "break" | .continue_ => "continue"
  | .new => "new" | .true_ => "true" | .false_ => "false" | .null => "null" | .this_ => "this"
  | .typeof => "typeof" | .delete => "delete" | .void => "void" | .throw => "throw"

/-- How a reserved word is named in a message. -/
def Keyword.inspect (k : Keyword) : String :=
  k.spelling.capitalize

/-- Punctuation and operators. -/
inductive Mark
  | openParen | closeParen | openBrace | closeBrace | openBracket | closeBracket
  | semicolon | comma | dot | question | colon
  | assign | addAssign | subtractAssign | multiplyAssign | divideAssign | modulusAssign
  | equal | notEqual | strictEqual | strictNotEqual | less | greater | lessEqual | greaterEqual
  | add | subtract | multiply | divide | modulus | not_ | increment | decrement | and_ | or_
  deriving DecidableEq

/-- How a mark is written. -/
def Mark.spelling : Mark → String
  | .openParen => "(" | .closeParen => ")" | .openBrace => "\x7b" | .closeBrace => "\x7d"
  | .openBracket => "[" | .closeBracket => "]" | .semicolon => ";" | .comma => "," | .dot => "."
  | .question => "?" | .colon => ":" | .assign => "=" | .addAssign => "+="
  | .subtractAssign => "-=" | .multiplyAssign => "*=" | .divideAssign => "/="
  | .modulusAssign => "%=" | .equal => "==" | .notEqual => "!=" | .strictEqual => "==="
  | .strictNotEqual => "!==" | .less => "<" | .greater => ">" | .lessEqual => "<="
  | .greaterEqual => ">=" | .add => "+" | .subtract => "-" | .multiply => "*" | .divide => "/"
  | .modulus => "%" | .not_ => "!" | .increment => "++" | .decrement => "--" | .and_ => "&&"
  | .or_ => "||"

/-- How a mark is named in a message. -/
def Mark.inspect : Mark → String
  | .openParen => "OpenParenthesis" | .closeParen => "CloseParenthesis"
  | .openBrace => "OpenCurly" | .closeBrace => "CloseCurly"
  | .openBracket => "OpenBracket" | .closeBracket => "CloseBracket"
  | .semicolon => "Semicolon" | .comma => "Comma" | .dot => "Dot"
  | .question => "QuestionMark" | .colon => "Colon"
  | .assign => "Assign" | .addAssign => "AddAssign" | .subtractAssign => "SubtractAssign"
  | .multiplyAssign => "MultiplyAssign" | .divideAssign => "DivideAssign"
  | .modulusAssign => "ModulusAssign"
  | .equal => "Equal" | .notEqual => "NotEqual" | .strictEqual => "StrictEqual"
  | .strictNotEqual => "StrictNotEqual" | .less => "LessThan" | .greater => "GreaterThan"
  | .lessEqual => "LessThanOrEqual" | .greaterEqual => "GreaterThanOrEqual"
  | .add => "Add" | .subtract => "Subtract" | .multiply => "Multiply" | .divide => "Divide"
  | .modulus => "Modulus" | .not_ => "Not" | .increment => "Increment"
  | .decrement => "Decrement" | .and_ => "And" | .or_ => "Or"

/-- What a token says, wherever it stands. -/
inductive TokenKind
  | symbol (name : String)
  | number (value : Binary64)
  | text (value : String)
  | keyword (word : Keyword)
  | mark (mark : Mark)
  deriving DecidableEq

/-- The kind of a token written like a name: a reserved word is never a symbol. -/
def TokenKind.ofWord (word : String) : TokenKind :=
  match Keyword.all.find? fun k => k.spelling = word with
  | some k => .keyword k
  | none => .symbol word

/-- The canonical spelling of a token. -/
def TokenKind.spelling : TokenKind → String
  | .symbol name => name
  | .number value => value.text
  | .text value => quoted value
  | .keyword k => k.spelling
  | .mark m => m.spelling

/-- How a token is named in a message. -/
def TokenKind.inspect : TokenKind → String
  | .symbol name => s!"Symbol({inspectedText name})"
  | .number value => s!"NumberLiteral({value.inspect})"
  | .text value => s!"StringLiteral({inspectedText value})"
  | .keyword k => k.inspect
  | .mark m => m.inspect

/-- How the end of a text is named in a message. -/
def endOfText : String := "Eof"

/-- How a token, or the end of the text, is named in a message. -/
def inspectFound : Option TokenKind → String
  | some kind => kind.inspect
  | none => endOfText

/-- A token and where it stands. -/
structure Token where
  kind : TokenKind
  span : Span
  deriving DecidableEq

/-- The tokens of a text, and the place where the text ends. -/
structure TokenList where
  tokens : List Token
  finish : Position

/-- The end of the text, as a span of its own. -/
def TokenList.finishSpan (list : TokenList) : Span := ⟨list.finish, list.finish⟩

/-- One line about a token, or about the end of the text: what it is and where it starts. -/
def describeFound (found : Option TokenKind) (start : Position) : String :=
  s!"{inspectFound found} ({start.line}:{start.column})"

end Hoist
