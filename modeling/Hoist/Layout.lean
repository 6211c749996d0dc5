import Hoist.NameChar
import Hoist.Shape
import Hoist.Token

namespace Hoist

/-- A token or the space between two. -/
inductive Piece
  | token (kind : TokenKind)
  | space
  deriving DecidableEq

def Piece.text : Piece → String
  | .token kind => kind.spelling
  | .space => " "

/-- The text of several pieces. -/
def piecesText (ps : List Piece) : String := String.join (ps.map Piece.text)

/-- Whether the text of several pieces begins with another. -/
def startsWith (ps : List Piece) (text : String) : Bool :=
  text.toList.isPrefixOf (piecesText ps).toList

namespace Piece

def mark (m : Mark) : Piece := .token (.mark m)

def keyword (k : Keyword) : Piece := .token (.keyword k)

def symbol (name : String) : Piece := .token (.symbol name)

/-- A name that may also be a reserved word. -/
def word (name : String) : Piece := .token (.ofWord name)

/-- A comma and a space. -/
def comma : List Piece := [mark .comma, space]

end Piece

/-- How tightly a node binds: a node that binds looser than its place asks for is put in
parentheses. -/
def commaLevel : Nat := 1
def assignLevel : Nat := 3
def conditionalLevel : Nat := 4
def orLevel : Nat := 5
def andLevel : Nat := 6
def unaryLevel : Nat := 15
def stepLevel : Nat := 16
def callLevel : Nat := 18
def newLevel : Nat := 19
def primaryLevel : Nat := 20

/-- How tightly an expression binds. A statement has no level. -/
def Kind.level? : Kind → Option Nat
  | .comma => some commaLevel
  | .assign | .assignOp _ => some assignLevel
  | .conditional => some conditionalLevel
  | .or_ => some orLevel
  | .and_ => some andLevel
  | .binary op => some op.precedence
  | .unary _ => some unaryLevel
  | .increment _ isPostfix => some (if isPostfix then stepLevel else unaryLevel)
  | .call | .property _ | .element => some callLevel
  | .new => some newLevel
  | .name _ | .number _ | .text _ | .true_ | .false_ | .null | .this_ | .array | .object | .key _
  | .function _ _ => some primaryLevel
  | .script | .block | .expression | .var | .if_ | .return_ | .switch | .case_ | .default_
  | .label _ | .while_ | .doWhile | .for_ | .break_ _ | .continue_ _ | .throw | .empty => none

/-- The mark of an operator between two operands. -/
def BinaryOp.mark : BinaryOp → Mark
  | .add => .add
  | .subtract => .subtract
  | .multiply => .multiply
  | .divide => .divide
  | .modulus => .modulus
  | .equal => .equal
  | .notEqual => .notEqual
  | .strictEqual => .strictEqual
  | .strictNotEqual => .strictNotEqual
  | .less => .less
  | .greater => .greater
  | .lessEqual => .lessEqual
  | .greaterEqual => .greaterEqual

/-- The operator of a compound assignment. -/
def BinaryOp.assignPieces : BinaryOp → List Piece
  | .add => [.mark .addAssign]
  | .subtract => [.mark .subtractAssign]
  | .multiply => [.mark .multiplyAssign]
  | .divide => [.mark .divideAssign]
  | .modulus => [.mark .modulusAssign]
  | op => [.mark op.mark, .mark .assign]

/-- A node with its text, as it is written where no parentheses are needed. -/
inductive Written
  | node (kind : Kind) (pieces : List Piece) (children : List Written)

namespace Written

def kind : Written → Kind
  | .node kind _ _ => kind

def pieces : Written → List Piece
  | .node _ pieces _ => pieces

def children : Written → List Written
  | .node _ _ children => children

/-- The text as an expression, in parentheses where it binds looser than the level. -/
def expression (w : Written) (level : Nat) : List Piece :=
  if w.kind.level?.getD primaryLevel < level then
    .mark .openParen :: w.pieces ++ [.mark .closeParen]
  else w.pieces

/-- The text as a statement. An expression gets a semicolon. -/
def statement (w : Written) : List Piece :=
  match w.kind with
  | .empty => [.mark .semicolon]
  | .function _ _ => w.pieces
  | kind => if kind.level?.isSome then w.pieces ++ [.mark .semicolon] else w.pieces

/-- Whether there is a call on the way down through the objects of members. -/
def callsThrough : Written → Bool
  | .node .call _ _ => true
  | .node (.property _) _ (object :: _) => object.callsThrough
  | .node .element _ (object :: _) => object.callsThrough
  | _ => false

end Written

/-- A child as an expression, or nothing where there is no such child. -/
def expressionAt (children : List Written) (index level : Nat) : List Piece :=
  match children[index]? with
  | some w => w.expression level
  | none => []

/-- A child as a statement, or an empty block where there is no such child. -/
def statementAt (children : List Written) (index : Nat) : List Piece :=
  match children[index]? with
  | some w => w.statement
  | none => [.mark .openBrace, .mark .closeBrace]

/-- Statements with a space in front of each. -/
def spacedStatements (statements : List Written) : List Piece :=
  statements.flatMap fun w => .space :: w.statement

/-- Statements with a space between them. -/
def joinedStatements (statements : List Written) : List Piece :=
  [Piece.space].intercalate (statements.map Written.statement)

/-- Operands with a comma between them. -/
def joinedOperands (operands : List Written) : List Piece :=
  Piece.comma.intercalate (operands.map (·.expression assignLevel))

/-- Something in parentheses. -/
def parenthesized (ps : List Piece) : List Piece :=
  .mark .openParen :: ps ++ [.mark .closeParen]

/-- A declarator: a name, and its initial value if there is one. -/
def declaratorPieces (w : Written) : List Piece :=
  let name := match w.kind.name? with
    | some n => Piece.symbol n
    | none => .mark .question
  match w.children with
  | [] => [name]
  | value :: _ => [name, .space, .mark .assign, .space] ++ value.expression assignLevel

/-- A declaration without its semicolon. -/
def declarationPieces (declarators : List Written) : List Piece :=
  [.keyword .var, .space] ++ Piece.comma.intercalate (declarators.map declaratorPieces)

/-- An entry of an object. A key that is no name is quoted. -/
def entryPieces (kind : Kind) (children : List Written) : List Piece :=
  let name := match kind with
    | .key k => if isNameLike k then Piece.word k else .token (.text k)
    | _ => .mark .question
  [name, .mark .colon, .space] ++ expressionAt children 0 assignLevel

/-- A function, as a declaration and as an expression. -/
def functionPieces (name : Option String) (params : List String) (children : List Written) :
    List Piece :=
  let named := match name with
    | some n => [.keyword .function, .space, Piece.symbol n]
    | none => [.keyword .function]
  named ++ parenthesized (Piece.comma.intercalate (params.map fun p => [Piece.symbol p])) ++
    [.space] ++ statementAt children 0

/-- A jump, with its label if there is one. -/
def jumpPieces (keyword : Keyword) (label : Option String) : List Piece :=
  match label with
  | some l => [.keyword keyword, .space, .symbol l, .mark .semicolon]
  | none => [.keyword keyword, .mark .semicolon]

/-- An operator in front of an operand. A word is followed by a space, and so is a sign where the
operand begins with the same sign. -/
def unaryPieces (op : UnaryOp) (operand : List Piece) : List Piece :=
  match op with
  | .not_ => .mark .not_ :: operand
  | .negate =>
    if startsWith operand "-" then [.mark .subtract, .space] ++ operand
    else .mark .subtract :: operand
  | .plus =>
    if startsWith operand "+" then [.mark .add, .space] ++ operand else .mark .add :: operand
  | .typeof => [.keyword .typeof, .space] ++ operand
  | .void => [.keyword .void, .space] ++ operand
  | .delete => [.keyword .delete, .space] ++ operand

/-- The text of a node, given its children. -/
def layout (kind : Kind) (cs : List Written) : List Piece :=
  let infixed (left : Nat) (op : List Piece) (right : Nat) : List Piece :=
    expressionAt cs 0 left ++ [.space] ++ op ++ [.space] ++ expressionAt cs 1 right
  match kind with
  | .script => joinedStatements cs
  | .block =>
    if cs.isEmpty then [.mark .openBrace, .mark .closeBrace]
    else [.mark .openBrace, .space] ++ joinedStatements cs ++ [.space, .mark .closeBrace]
  | .expression =>
    let e := expressionAt cs 0 commaLevel
    if startsWith e "function" || startsWith e "\x7b" then parenthesized e ++ [.mark .semicolon]
    else e ++ [.mark .semicolon]
  | .var => declarationPieces cs ++ [.mark .semicolon]
  | .if_ =>
    [.keyword .if_, .space] ++ parenthesized (expressionAt cs 0 commaLevel) ++ [.space] ++
      statementAt cs 1 ++
      (if 2 < cs.length then [.space, .keyword .else_, .space] ++ statementAt cs 2 else [])
  | .return_ =>
    if cs.isEmpty then [.keyword .return_, .mark .semicolon]
    else [.keyword .return_, .space] ++ expressionAt cs 0 commaLevel ++ [.mark .semicolon]
  | .switch =>
    [.keyword .switch, .space] ++ parenthesized (expressionAt cs 0 commaLevel) ++
      [.space, .mark .openBrace] ++ spacedStatements (cs.drop 1) ++ [.space, .mark .closeBrace]
  | .case_ =>
    [.keyword .case_, .space] ++ expressionAt cs 0 commaLevel ++ [.mark .colon] ++
      spacedStatements ((cs[1]?.map Written.children).getD [])
  | .default_ =>
    [.keyword .default_, .mark .colon] ++ spacedStatements ((cs[0]?.map Written.children).getD [])
  | .label name => [.symbol name, .mark .colon, .space] ++ statementAt cs 0
  | .while_ =>
    [.keyword .while_, .space] ++ parenthesized (expressionAt cs 0 commaLevel) ++ [.space] ++
      statementAt cs 1
  | .doWhile =>
    [.keyword .do_, .space] ++ statementAt cs 0 ++ [.space, .keyword .while_, .space] ++
      parenthesized (expressionAt cs 1 commaLevel) ++ [.mark .semicolon]
  | .for_ =>
    let initial := match cs with
      | .node .var _ declarators :: _ => declarationPieces declarators
      | _ => expressionAt cs 0 commaLevel
    [.keyword .for_, .space, .mark .openParen] ++ initial ++ [.mark .semicolon, .space] ++
      expressionAt cs 1 commaLevel ++ [.mark .semicolon, .space] ++
      expressionAt cs 2 commaLevel ++ [.mark .closeParen, .space] ++ statementAt cs 3
  | .break_ label => jumpPieces .break_ label
  | .continue_ label => jumpPieces .continue_ label
  | .throw => [.keyword .throw, .space] ++ expressionAt cs 0 commaLevel ++ [.mark .semicolon]
  | .empty => []
  | .name n => [.symbol n]
  | .number value => [.token (.number value)]
  | .text value => [.token (.text value)]
  | .true_ => [.keyword .true_]
  | .false_ => [.keyword .false_]
  | .null => [.keyword .null]
  | .this_ => [.keyword .this_]
  | .array => .mark .openBracket :: joinedOperands cs ++ [.mark .closeBracket]
  | .object =>
    .mark .openBrace ::
      Piece.comma.intercalate (cs.map fun w => entryPieces w.kind w.children) ++
      [.mark .closeBrace]
  | .key name => entryPieces (.key name) cs
  | .function name params => functionPieces name params cs
  | .call => expressionAt cs 0 callLevel ++ parenthesized (joinedOperands (cs.drop 1))
  | .new =>
    let callee := expressionAt cs 0 callLevel
    let wrapped := if cs.head?.any Written.callsThrough then parenthesized callee else callee
    [.keyword .new, .space] ++ wrapped ++ parenthesized (joinedOperands (cs.drop 1))
  | .property name => expressionAt cs 0 callLevel ++ [.mark .dot, .word name]
  | .element =>
    expressionAt cs 0 callLevel ++ [.mark .openBracket] ++ expressionAt cs 1 commaLevel ++
      [.mark .closeBracket]
  | .assign => infixed stepLevel [.mark .assign] assignLevel
  | .assignOp op => infixed stepLevel op.assignPieces assignLevel
  | .conditional =>
    infixed orLevel [.mark .question] assignLevel ++ [.space, .mark .colon, .space] ++
      expressionAt cs 2 assignLevel
  | .or_ => infixed orLevel [.mark .or_] andLevel
  | .and_ => infixed andLevel [.mark .and_] (andLevel + 1)
  | .binary op => infixed op.precedence [.mark op.mark] (op.precedence + 1)
  | .unary op => unaryPieces op (expressionAt cs 0 unaryLevel)
  | .increment isDecrement isPostfix =>
    let step := Piece.mark (if isDecrement then .decrement else .increment)
    let target := expressionAt cs 0 stepLevel
    if isPostfix then target ++ [step] else step :: target
  | .comma => expressionAt cs 0 commaLevel ++ Piece.comma ++ expressionAt cs 1 (commaLevel + 1)

mutual

/-- A shape with the text of each of its nodes. -/
def Shape.written : Shape → Written
  | .node kind _ children =>
    let cs := Shape.writtenAll children
    .node kind (layout kind cs) cs

/-- Shapes with the text of each of their nodes. -/
def Shape.writtenAll : List Shape → List Written
  | [] => []
  | s :: rest => s.written :: Shape.writtenAll rest

end

namespace Tree

/-- A whole program on one line. -/
def source (t : Tree) : String := piecesText (t.shape root).written.statement

/-- A whole program with each statement of the script on a line of its own. -/
def sourceLines (t : Tree) : String :=
  String.join ((t.shape root).written.children.map fun w => piecesText w.statement ++ "\n")

/-- A subtree on one line, an expression without a semicolon. -/
def sourceOf (t : Tree) (n : NodeId) : String :=
  let w := (t.shape n).written
  piecesText (if w.kind.level?.isSome then w.expression commaLevel else w.statement)

end Tree

end Hoist
