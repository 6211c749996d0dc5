import Hoist.Tree

namespace Hoist

/-- The conditionals: of their operands only the first is always evaluated. -/
inductive ConditionalOp
  | choice
  | and_
  | or_
  deriving DecidableEq

/-- What an assignment writes to. -/
inductive TargetForm
  | name
  | property
  | element
  deriving DecidableEq

/-- What a node means for an expression below it. -/
inductive Role
  /-- A statement whose first child is the whole expression. -/
  | root
  /-- A node before which nothing can be declared. -/
  | boundary
  | conditional (op : ConditionalOp)
  /-- An assignment, and its operator if it is a compound one. That one reads its target before the
  value is evaluated. -/
  | assignment (target : TargetForm) (compound : Option BinaryOp)
  /-- A call, which passes on the object where its callee is a member. -/
  | call (isMethod : Bool)
  /-- A node whose children are all evaluated, from left to right. -/
  | plain
  deriving DecidableEq

/-- What a target of a kind is, if it is one. -/
def Kind.targetForm? : Kind → Option TargetForm
  | .name _ => some .name
  | .property _ => some .property
  | .element => some .element
  | _ => none

namespace Tree

/-- The role of an assignment, which is plain where its first child is no target. -/
def assignmentRole (t : Tree) (n : NodeId) (compound : Option BinaryOp) : Role :=
  match t.firstChild n with
  | none => .plain
  | some target =>
    match (t.kind target).targetForm? with
    | some form => .assignment form compound
    | none => .plain

/-- Whether a node is a label. -/
def isLabel (t : Tree) (n : NodeId) : Bool :=
  match t.kind n with
  | .label _ => true
  | _ => false

/-- Whether declarations can be put before a declaration: it is a statement of its own, not the
header of a loop. -/
def isDeclarationStatement (t : Tree) (n : NodeId) : Bool :=
  match t.parent n with
  | some parent => t.isStatementList parent || t.isLabel parent
  | none => false

/-- What a node means for an expression below it. -/
def role (t : Tree) (n : NodeId) : Role :=
  match t.kind n with
  | .expression | .if_ | .switch | .return_ => .root
  | .var => if t.isDeclarationStatement n then .root else .plain
  | .script | .block | .label _ | .case_ | .default_ | .while_ | .doWhile | .for_ | .throw
  | .break_ _ | .continue_ _ | .empty => .boundary
  | .conditional => .conditional .choice
  | .and_ => .conditional .and_
  | .or_ => .conditional .or_
  | .assign => t.assignmentRole n none
  | .assignOp op => t.assignmentRole n (some op)
  | .call => .call ((t.firstChild n).any t.isMember)
  | .name _ | .number _ | .text _ | .true_ | .false_ | .null | .this_ | .array | .object | .key _
  | .function _ _ | .new | .property _ | .element | .binary _ | .unary _ | .increment _ _
  | .comma => .plain

/-- Whether a node is a conditional. -/
def isConditional (t : Tree) (n : NodeId) : Bool :=
  match t.role n with
  | .conditional _ => true
  | _ => false

end Tree

end Hoist
