import Hoist.Binary64

namespace Hoist

/-- The operators between two operands. -/
inductive BinaryOp
  | add | subtract | multiply | divide | modulus
  | equal | notEqual | strictEqual | strictNotEqual
  | less | greater | lessEqual | greaterEqual
  deriving DecidableEq

/-- How tightly an operator binds, on the scale of `Kind.level?`. -/
def BinaryOp.precedence : BinaryOp → Nat
  | .multiply | .divide | .modulus => 13
  | .add | .subtract => 12
  | .less | .greater | .lessEqual | .greaterEqual => 10
  | .equal | .notEqual | .strictEqual | .strictNotEqual => 9

/-- The operators in front of one operand. -/
inductive UnaryOp
  | not_ | negate | plus | typeof | void | delete
  deriving DecidableEq

/-- What a node of a program is. The comments name the children of such a node, in their order. -/
inductive Kind
  /-- Statements. -/
  | script
  /-- Statements. -/
  | block
  /-- The expression of an expression statement. -/
  | expression
  /-- Declarators, each a name with at most one child, its initial value. -/
  | var
  /-- The condition, a block, and a second block where there is an alternative. -/
  | if_
  /-- The value, if there is one. -/
  | return_
  /-- The discriminant and the clauses. -/
  | switch
  /-- The test and a block. -/
  | case_
  /-- A block. -/
  | default_
  /-- The labelled statement. -/
  | label (name : String)
  /-- The condition and a block. -/
  | while_
  /-- A block and the condition. -/
  | doWhile
  /-- The initializer, the condition, the update, each `empty` where left out, and a block. -/
  | for_
  | break_ (label : Option String)
  | continue_ (label : Option String)
  /-- The thrown value. -/
  | throw
  | empty
  | name (name : String)
  | number (value : Binary64)
  | text (value : String)
  | true_
  | false_
  | null
  | this_
  /-- The elements. -/
  | array
  /-- Keys. -/
  | object
  /-- The value of the entry. -/
  | key (name : String)
  /-- A block. A declaration and an expression look alike. -/
  | function (name : Option String) (params : List String)
  /-- The callee and the arguments. -/
  | call
  /-- The constructor and the arguments. -/
  | new
  /-- The object. -/
  | property (name : String)
  /-- The object and the key. -/
  | element
  /-- The target and the value. -/
  | assign
  /-- The target and the value. -/
  | assignOp (op : BinaryOp)
  /-- The condition and both values. -/
  | conditional
  /-- Two operands. -/
  | and_
  /-- Two operands. -/
  | or_
  /-- Two operands. -/
  | binary (op : BinaryOp)
  /-- The operand. -/
  | unary (op : UnaryOp)
  /-- The target. -/
  | increment (isDecrement isPostfix : Bool)
  /-- Two operands. -/
  | comma
  deriving DecidableEq

instance : Inhabited Kind := ⟨.empty⟩

/-- What a kind is called in a message. -/
def Kind.describe : Kind → String
  | .script => "script"
  | .block => "block"
  | .expression => "expression statement"
  | .var => "var declaration"
  | .if_ => "if statement"
  | .return_ => "return statement"
  | .switch => "switch statement"
  | .case_ => "case clause"
  | .default_ => "default clause"
  | .label _ => "label"
  | .while_ => "while loop"
  | .doWhile => "do-while loop"
  | .for_ => "for loop"
  | .break_ _ => "break"
  | .continue_ _ => "continue"
  | .throw => "throw"
  | .empty => "empty"
  | .name _ => "name"
  | .number _ => "number"
  | .text _ => "string"
  | .true_ | .false_ => "boolean"
  | .null => "null"
  | .this_ => "this"
  | .array => "array literal"
  | .object => "object literal"
  | .key _ => "object key"
  | .function _ _ => "function"
  | .call => "call"
  | .new => "new"
  | .property _ => "property access"
  | .element => "element access"
  | .assign => "assignment"
  | .assignOp _ => "compound assignment"
  | .conditional => "conditional expression"
  | .and_ => "logical and"
  | .or_ => "logical or"
  | .binary _ => "binary operation"
  | .unary _ => "unary operation"
  | .increment _ _ => "increment"
  | .comma => "comma expression"

/-- Whether the children of a node of this kind are a list of statements. -/
def Kind.isStatementList : Kind → Bool
  | .script | .block => true
  | _ => false

/-- Whether a node of this kind reads a member of an object. -/
def Kind.isMember : Kind → Bool
  | .property _ | .element => true
  | _ => false

/-- The name that a node of this kind is, if it is one. -/
def Kind.name? : Kind → Option String
  | .name n => some n
  | _ => none

/-- Whether a value can be assigned to a node of this kind. -/
def Kind.isTarget : Kind → Bool
  | .name _ | .property _ | .element => true
  | _ => false

end Hoist
