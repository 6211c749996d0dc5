import Hoist.Draft
import Hoist.Problem

namespace Hoist

/-- Why a run of tokens is no program, and where. A place that is missing is the end of the text. -/
structure Fault where
  cause : Cause
  span : Option Span

/-- What was read from the front of a run of tokens, and the rest, which is shorter than a bound. -/
structure Parsed (α : Type) (bound : Nat) where
  value : α
  rest : List Token
  shorter : rest.length < bound

/-- The outcome of reading from the front of a run of tokens. -/
abbrev Parse (α : Type) (bound : Nat) := Except Fault (Parsed α bound)

/-- The fault that the front of a run of tokens is not what was expected. -/
def unexpected {α : Type} {n : Nat} (ts : List Token) (cause : Option TokenKind → Cause) :
    Parse α n :=
  .error ⟨cause (ts.head?.map Token.kind), ts.head?.map Token.span⟩

/-- Reads one given token. -/
def expect (kind : TokenKind) (ts : List Token) : Parse Span ts.length :=
  match ts with
  | t :: rest =>
    if t.kind = kind then .ok ⟨t.span, rest, by simp⟩ else unexpected (t :: rest) (.expected kind)
  | [] => unexpected [] (.expected kind)

/-- Reads one given mark. -/
def expectMark (mark : Mark) (ts : List Token) : Parse Span ts.length :=
  expect (.mark mark) ts

/-- Reads a name. -/
def expectName (ts : List Token) : Parse (String × Span) ts.length :=
  match ts with
  | ⟨.symbol name, span⟩ :: rest => .ok ⟨(name, span), rest, by simp⟩
  | _ => unexpected ts .expectedName

/-- Reads the name of a property, which may be a reserved word. -/
def propertyName (ts : List Token) : Parse (String × Span) ts.length :=
  match ts with
  | ⟨.symbol name, span⟩ :: rest => .ok ⟨(name, span), rest, by simp⟩
  | ⟨.keyword word, span⟩ :: rest => .ok ⟨(word.spelling, span), rest, by simp⟩
  | _ => unexpected ts .expectedPropertyName

/-- Reads the key of an entry of an object. -/
def entryKey (ts : List Token) : Parse (String × Span) ts.length :=
  match ts with
  | ⟨.text key, span⟩ :: rest => .ok ⟨(key, span), rest, by simp⟩
  | ⟨.number value, span⟩ :: rest => .ok ⟨(value.text, span), rest, by simp⟩
  | other => propertyName other

/-- Reads a token of a class, if one stands in front. -/
def take? {α : Type} (f : TokenKind → Option α) (ts : List Token) :
    Option (Parsed (α × Span) ts.length) :=
  match ts with
  | t :: rest => (f t.kind).map fun value => ⟨(value, t.span), rest, by simp⟩
  | [] => none

/-- Reads one given token, if it stands in front. -/
def eat? (kind : TokenKind) (ts : List Token) : Option (Parsed (Unit × Span) ts.length) :=
  take? (fun k => if k = kind then some () else none) ts

/-- Reads the end of a statement: a semicolon, or nothing in front of a closing brace or of the end
of the text. -/
def statementEnd (ts : List Token) : Parse Unit (ts.length + 1) :=
  match ts with
  | ⟨.mark .semicolon, _⟩ :: rest => .ok ⟨(), rest, by simp only [List.length_cons]; omega⟩
  | ⟨.mark .closeBrace, span⟩ :: rest =>
    .ok ⟨(), ⟨.mark .closeBrace, span⟩ :: rest, Nat.lt_succ_self _⟩
  | [] => .ok ⟨(), [], by simp⟩
  | _ => unexpected ts (.expected (.mark .semicolon))

/-- Whether a statement ends before a run of tokens. -/
def endsStatement : List Token → Bool
  | [] => true
  | t :: _ => t.kind = .mark .semicolon ∨ t.kind = .mark .closeBrace

/-- Reads the parameters of a function after the opening parenthesis. -/
def parameters (ts : List Token) : Parse (List String) ts.length :=
  match ts with
  | ⟨.mark .closeParen, _⟩ :: rest => .ok ⟨[], rest, by simp⟩
  | ⟨.symbol name, _⟩ :: ⟨.mark .comma, _⟩ :: more => do
    let ⟨others, rest, h⟩ ← parameters more
    return ⟨name :: others, rest, by simp only [List.length_cons]; omega⟩
  | ⟨.symbol name, _⟩ :: more => do
    let ⟨_, rest, h⟩ ← expectMark .closeParen more
    return ⟨[name], rest, by simp only [List.length_cons]; omega⟩
  | _ => unexpected ts .expectedName

/-- Reads a name, if one stands in front. -/
def optionalName (ts : List Token) : Parse (Option String) (ts.length + 1) :=
  match ts with
  | ⟨.symbol name, _⟩ :: rest => .ok ⟨some name, rest, by simp only [List.length_cons]; omega⟩
  | other => .ok ⟨none, other, Nat.lt_succ_self _⟩

/-- The kind of assignment that a token makes. -/
def assignmentKind? : TokenKind → Option Kind
  | .mark .assign => some .assign
  | .mark .addAssign => some (.assignOp .add)
  | .mark .subtractAssign => some (.assignOp .subtract)
  | .mark .multiplyAssign => some (.assignOp .multiply)
  | .mark .divideAssign => some (.assignOp .divide)
  | .mark .modulusAssign => some (.assignOp .modulus)
  | _ => none

/-- The operator that a token is between two operands. -/
def binaryOp? : TokenKind → Option BinaryOp
  | .mark .add => some .add
  | .mark .subtract => some .subtract
  | .mark .multiply => some .multiply
  | .mark .divide => some .divide
  | .mark .modulus => some .modulus
  | .mark .equal => some .equal
  | .mark .notEqual => some .notEqual
  | .mark .strictEqual => some .strictEqual
  | .mark .strictNotEqual => some .strictNotEqual
  | .mark .less => some .less
  | .mark .greater => some .greater
  | .mark .lessEqual => some .lessEqual
  | .mark .greaterEqual => some .greaterEqual
  | _ => none

/-- The operator that a token is in front of an operand. -/
def unaryOp? : TokenKind → Option UnaryOp
  | .mark .not_ => some .not_
  | .mark .subtract => some .negate
  | .mark .add => some .plus
  | .keyword .typeof => some .typeof
  | .keyword .void => some .void
  | .keyword .delete => some .delete
  | _ => none

/-- Whether a token decrements its target, if it changes one at all. -/
def stepOp? : TokenKind → Option Bool
  | .mark .increment => some false
  | .mark .decrement => some true
  | _ => none

/-- The literal that a token is by itself. -/
def literal? : TokenKind → Option Kind
  | .symbol name => some (.name name)
  | .number value => some (.number value)
  | .text value => some (.text value)
  | .keyword .true_ => some .true_
  | .keyword .false_ => some .false_
  | .keyword .null => some .null
  | .keyword .this_ => some .this_
  | _ => none

/-- Refuses a target that no value can be assigned to. -/
def checkTarget (use : TargetUse) (target : Draft) : Except Fault Unit :=
  if target.kind.isTarget then .ok () else .error ⟨.badTarget use target.kind, some target.span⟩

/-- A statement where exactly one node has to stand: several declarations go into a block. -/
def single (start : Span) : Draft → Draft
  | .declarations [d] => .declarations [d]
  | .declarations ds => .node .block start [.declarations ds] []
  | d => d

/-- Whether a token ends the body of a clause. -/
def endsClause : TokenKind → Bool
  | .keyword .case_ | .keyword .default_ | .mark .closeBrace => true
  | _ => false

mutual

/-- Operands between commas. -/
def expression (ts : List Token) : Parse Draft ts.length := do
  let ⟨left, rest, h⟩ ← assignment ts
  let ⟨value, rest', h'⟩ ← commaTail left rest
  return ⟨value, rest', by omega⟩
termination_by ts.length * 16 + 10

/-- The commas after an operand, which group to the left. -/
def commaTail (left : Draft) (ts : List Token) : Parse Draft (ts.length + 1) :=
  match ts with
  | ⟨.mark .comma, _⟩ :: more => do
    let ⟨right, rest, h⟩ ← assignment more
    let ⟨value, rest', h'⟩ ← commaTail (.spanning .comma left right [left, right]) rest
    return ⟨value, rest', by simp only [List.length_cons]; omega⟩
  | other => return ⟨left, other, Nat.lt_succ_self _⟩
termination_by ts.length * 16

/-- An assignment, which groups to the right, or what binds tighter. -/
def assignment (ts : List Token) : Parse Draft ts.length := do
  let ⟨target, rest, h⟩ ← conditional ts
  match take? assignmentKind? rest with
  | none => return ⟨target, rest, h⟩
  | some ⟨(kind, _), more, h₁⟩ =>
    checkTarget .assign target
    let ⟨value, rest', h₂⟩ ← assignment more
    return ⟨.spanning kind target value [target, value], rest', by omega⟩
termination_by ts.length * 16 + 9

/-- A choice between two values, or what binds tighter. -/
def conditional (ts : List Token) : Parse Draft ts.length := do
  let ⟨condition, rest, h⟩ ← disjunction ts
  match eat? (.mark .question) rest with
  | none => return ⟨condition, rest, h⟩
  | some ⟨_, more, h₁⟩ =>
    let ⟨first, rest₁, h₂⟩ ← assignment more
    let ⟨_, rest₂, h₃⟩ ← expectMark .colon rest₁
    let ⟨second, rest₃, h₄⟩ ← assignment rest₂
    return ⟨.spanning .conditional condition second [condition, first, second], rest₃, by omega⟩
termination_by ts.length * 16 + 8

/-- Operands between `||`. -/
def disjunction (ts : List Token) : Parse Draft ts.length := do
  let ⟨left, rest, h⟩ ← conjunction ts
  let ⟨value, rest', h'⟩ ← orTail left rest
  return ⟨value, rest', by omega⟩
termination_by ts.length * 16 + 7

/-- The `||` after an operand, which group to the left. -/
def orTail (left : Draft) (ts : List Token) : Parse Draft (ts.length + 1) :=
  match ts with
  | ⟨.mark .or_, _⟩ :: more => do
    let ⟨right, rest, h⟩ ← conjunction more
    let ⟨value, rest', h'⟩ ← orTail (.spanning .or_ left right [left, right]) rest
    return ⟨value, rest', by simp only [List.length_cons]; omega⟩
  | other => return ⟨left, other, Nat.lt_succ_self _⟩
termination_by ts.length * 16

/-- Operands between `&&`. -/
def conjunction (ts : List Token) : Parse Draft ts.length := do
  let ⟨left, rest, h⟩ ← operation 0 ts
  let ⟨value, rest', h'⟩ ← andTail left rest
  return ⟨value, rest', by omega⟩
termination_by ts.length * 16 + 6

/-- The `&&` after an operand, which group to the left. -/
def andTail (left : Draft) (ts : List Token) : Parse Draft (ts.length + 1) :=
  match ts with
  | ⟨.mark .and_, _⟩ :: more => do
    let ⟨right, rest, h⟩ ← operation 0 more
    let ⟨value, rest', h'⟩ ← andTail (.spanning .and_ left right [left, right]) rest
    return ⟨value, rest', by simp only [List.length_cons]; omega⟩
  | other => return ⟨left, other, Nat.lt_succ_self _⟩
termination_by ts.length * 16

/-- Operands between operators that bind at least as tightly as `level`. -/
def operation (level : Nat) (ts : List Token) : Parse Draft ts.length := do
  let ⟨left, rest, h⟩ ← unary ts
  let ⟨value, rest', h'⟩ ← operationTail level left rest
  return ⟨value, rest', by omega⟩
termination_by ts.length * 16 + 5

/-- The operators after an operand that bind at least as tightly as `level`. Equally tight ones
group to the left. -/
def operationTail (level : Nat) (left : Draft) (ts : List Token) : Parse Draft (ts.length + 1) :=
  match ts with
  | [] => return ⟨left, [], by simp⟩
  | t :: more =>
    match binaryOp? t.kind with
    | none => return ⟨left, t :: more, Nat.lt_succ_self _⟩
    | some op =>
      if op.precedence < level then return ⟨left, t :: more, Nat.lt_succ_self _⟩
      else do
        let ⟨right, rest, h⟩ ← operation (op.precedence + 1) more
        let ⟨value, rest', h'⟩ ←
          operationTail level (.spanning (.binary op) left right [left, right]) rest
        return ⟨value, rest', by simp only [List.length_cons]; omega⟩
termination_by ts.length * 16

/-- An operand with operators in front, or what binds tighter. -/
def unary (ts : List Token) : Parse Draft ts.length :=
  match ts with
  | [] => stepped []
  | t :: more =>
    match stepOp? t.kind, unaryOp? t.kind with
    | some isDecrement, _ => do
      let ⟨target, rest, h⟩ ← unary more
      checkTarget .increment target
      return ⟨.node (.increment isDecrement false) (t.span.to target.span) [target] [], rest, by
        simp only [List.length_cons]; omega⟩
    | none, some op => do
      let ⟨operand, rest, h⟩ ← unary more
      return ⟨.node (.unary op) (t.span.to operand.span) [operand] [], rest, by
        simp only [List.length_cons]; omega⟩
    | none, none => stepped (t :: more)
termination_by ts.length * 16 + 4

/-- An operand with a step behind it, or what binds tighter. -/
def stepped (ts : List Token) : Parse Draft ts.length := do
  let ⟨target, rest, h⟩ ← access ts
  match take? stepOp? rest with
  | none => return ⟨target, rest, h⟩
  | some ⟨(isDecrement, last), more, h₁⟩ =>
    checkTarget .increment target
    return ⟨.node (.increment isDecrement true) (target.span.to last) [target] [], more, by omega⟩
termination_by ts.length * 16 + 3

/-- Calls and reads of members. -/
def access (ts : List Token) : Parse Draft ts.length := do
  let ⟨base, rest, h⟩ ← operand ts
  let ⟨value, rest', h'⟩ ← accessTail true base rest
  return ⟨value, rest', by omega⟩
termination_by ts.length * 16 + 2

/-- The reads of members after an object, and the calls where they may stand. -/
def accessTail (calls : Bool) (left : Draft) (ts : List Token) : Parse Draft (ts.length + 1) :=
  match ts with
  | ⟨.mark .dot, _⟩ :: more => do
    let ⟨(name, last), rest, h⟩ ← propertyName more
    let ⟨value, rest', h'⟩ ←
      accessTail calls (.node (.property name) (left.span.to last) [left] []) rest
    return ⟨value, rest', by simp only [List.length_cons]; omega⟩
  | ⟨.mark .openBracket, _⟩ :: more => do
    let ⟨key, rest₁, h₁⟩ ← expression more
    let ⟨last, rest₂, h₂⟩ ← expectMark .closeBracket rest₁
    let ⟨value, rest', h'⟩ ←
      accessTail calls (.node .element (left.span.to last) [left, key] []) rest₂
    return ⟨value, rest', by simp only [List.length_cons]; omega⟩
  | ⟨.mark .openParen, span⟩ :: more =>
    if calls then do
      let ⟨arguments, rest, h⟩ ← items .closeParen more
      let ⟨value, rest', h'⟩ ← accessTail calls (.node .call left.span [left] arguments) rest
      return ⟨value, rest', by simp only [List.length_cons]; omega⟩
    else return ⟨left, ⟨.mark .openParen, span⟩ :: more, Nat.lt_succ_self _⟩
  | other => return ⟨left, other, Nat.lt_succ_self _⟩
termination_by ts.length * 16

/-- A construction, or what binds tighter. -/
def operand (ts : List Token) : Parse Draft ts.length :=
  match ts with
  | ⟨.keyword .new, start⟩ :: more => do
    let ⟨base, rest₁, h₁⟩ ← operand more
    let ⟨callee, rest₂, h₂⟩ ← accessTail false base rest₁
    match eat? (.mark .openParen) rest₂ with
    | none => return ⟨.node .new start [callee] [], rest₂, by simp only [List.length_cons]; omega⟩
    | some ⟨_, more', h₃⟩ =>
      let ⟨arguments, rest, h₄⟩ ← items .closeParen more'
      return ⟨.node .new start [callee] arguments, rest, by simp only [List.length_cons]; omega⟩
  | other => primary other
termination_by ts.length * 16 + 1

/-- What needs no parentheses anywhere: a literal, a function, or anything in parentheses. -/
def primary (ts : List Token) : Parse Draft ts.length :=
  match ts with
  | ⟨.mark .openParen, _⟩ :: more => do
    let ⟨value, rest, h⟩ ← expression more
    let ⟨_, rest', h'⟩ ← expectMark .closeParen rest
    return ⟨value, rest', by simp only [List.length_cons]; omega⟩
  | ⟨.mark .openBracket, start⟩ :: more => do
    let ⟨elements, rest, h⟩ ← items .closeBracket more
    return ⟨.node .array start [] elements, rest, by simp only [List.length_cons]; omega⟩
  | ⟨.mark .openBrace, start⟩ :: more => do
    let ⟨keys, rest, h⟩ ← entries more
    return ⟨.node .object start [] keys, rest, by simp only [List.length_cons]; omega⟩
  | ⟨.keyword .function, start⟩ :: more => do
    let ⟨value, rest, h⟩ ← functionTail start more
    return ⟨value, rest, by simp only [List.length_cons]; omega⟩
  | t :: more =>
    match literal? t.kind with
    | some kind => return ⟨.leaf kind t.span, more, by simp⟩
    | none => unexpected (t :: more) .expectedExpression
  | [] => unexpected [] .expectedExpression
termination_by ts.length * 16

/-- Operands between commas up to a closing mark, before which one more comma may stand. -/
def items (close : Mark) (ts : List Token) : Parse (List Draft) ts.length :=
  match eat? (.mark close) ts with
  | some ⟨_, rest, h⟩ => return ⟨[], rest, h⟩
  | none => do
    let ⟨item, rest₁, h₁⟩ ← assignment ts
    match eat? (.mark .comma) rest₁ with
    | some ⟨_, more, h₂⟩ =>
      let ⟨others, rest, h₃⟩ ← items close more
      return ⟨item :: others, rest, by omega⟩
    | none =>
      let ⟨_, rest, h₂⟩ ← expectMark close rest₁
      return ⟨[item], rest, by omega⟩
termination_by ts.length * 16 + 11

/-- The entries of an object up to its closing brace, before which one more comma may stand. -/
def entries (ts : List Token) : Parse (List Draft) ts.length :=
  match eat? (.mark .closeBrace) ts with
  | some ⟨_, rest, h⟩ => return ⟨[], rest, h⟩
  | none => do
    let ⟨(name, span), rest₁, h₁⟩ ← entryKey ts
    let ⟨_, rest₂, h₂⟩ ← expectMark .colon rest₁
    let ⟨value, rest₃, h₃⟩ ← assignment rest₂
    match eat? (.mark .comma) rest₃ with
    | some ⟨_, more, h₄⟩ =>
      let ⟨others, rest, h₅⟩ ← entries more
      return ⟨.node (.key name) span [value] [] :: others, rest, by omega⟩
    | none =>
      let ⟨_, rest, h₄⟩ ← expectMark .closeBrace rest₃
      return ⟨[.node (.key name) span [value] []], rest, by omega⟩
termination_by ts.length * 16

/-- A function after its reserved word. -/
def functionTail (start : Span) (ts : List Token) : Parse Draft ts.length := do
  let ⟨name, rest₁, h₁⟩ ← optionalName ts
  let ⟨_, rest₂, h₂⟩ ← expectMark .openParen rest₁
  let ⟨params, rest₃, h₃⟩ ← parameters rest₂
  let ⟨body, rest₄, h₄⟩ ← block rest₃
  return ⟨.node (.function name params) start [body] [], rest₄, by omega⟩
termination_by ts.length * 16

/-- Statements in braces. -/
def block (ts : List Token) : Parse Draft ts.length := do
  let ⟨start, rest₁, h₁⟩ ← expectMark .openBrace ts
  let ⟨inside, rest₂, h₂⟩ ← statements (· = .mark .closeBrace) rest₁
  let ⟨_, rest₃, h₃⟩ ← expectMark .closeBrace rest₂
  return ⟨.node .block start [] inside, rest₃, by omega⟩
termination_by ts.length * 16

/-- Statements up to a token that ends them, or to the end of the text. -/
def statements (ends : TokenKind → Bool) (ts : List Token) :
    Parse (List Draft) (ts.length + 1) :=
  match ts with
  | [] => return ⟨[], [], by simp⟩
  | t :: more =>
    if ends t.kind then return ⟨[], t :: more, Nat.lt_succ_self _⟩
    else do
      let ⟨first, rest, h⟩ ← statement (t :: more)
      let ⟨others, rest', h'⟩ ← statements ends rest
      return ⟨first :: others, rest', by omega⟩
termination_by ts.length * 16 + 13
decreasing_by all_goals simp_wf <;> simp only [List.length_cons] at * <;> omega

/-- A body of control flow, which is made a block. -/
def body (ts : List Token) : Parse Draft ts.length :=
  match ts with
  | ⟨.mark .openBrace, start⟩ :: more => block (⟨.mark .openBrace, start⟩ :: more)
  | t :: more => do
    let ⟨inside, rest, h⟩ ← statement (t :: more)
    return ⟨.node .block t.span [inside] [], rest, h⟩
  | [] => unexpected [] .expectedExpression
termination_by ts.length * 16 + 12

/-- An expression in parentheses. -/
def header (ts : List Token) : Parse Draft ts.length := do
  let ⟨_, rest₁, h₁⟩ ← expectMark .openParen ts
  let ⟨value, rest₂, h₂⟩ ← expression rest₁
  let ⟨_, rest₃, h₃⟩ ← expectMark .closeParen rest₂
  return ⟨value, rest₃, by omega⟩
termination_by ts.length * 16

/-- Declarators between commas. A name is made before its initial value. -/
def declarators (ts : List Token) : Parse (List Draft) ts.length := do
  let ⟨first, rest₁, h₁⟩ ← declarator ts
  match eat? (.mark .comma) rest₁ with
  | some ⟨_, more, h₂⟩ =>
    let ⟨others, rest, h₃⟩ ← declarators more
    return ⟨first :: others, rest, by omega⟩
  | none => return ⟨[first], rest₁, h₁⟩
termination_by ts.length * 16 + 1

/-- A name and its initial value, if there is one. -/
def declarator (ts : List Token) : Parse Draft ts.length := do
  let ⟨(name, span), rest₁, h₁⟩ ← expectName ts
  match eat? (.mark .assign) rest₁ with
  | some ⟨_, more, h₂⟩ =>
    let ⟨value, rest, h₃⟩ ← assignment more
    return ⟨.node (.name name) span [] [value], rest, by omega⟩
  | none => return ⟨.leaf (.name name) span, rest₁, h₁⟩
termination_by ts.length * 16

/-- The initializer of a `for` loop, up to its semicolon. -/
def initializer (start : Span) (ts : List Token) : Parse Draft ts.length :=
  match ts with
  | ⟨.mark .semicolon, _⟩ :: more => return ⟨.leaf .empty start, more, by simp⟩
  | ⟨.keyword .var, span⟩ :: more => do
    let ⟨names, rest₁, h₁⟩ ← declarators more
    let ⟨_, rest₂, h₂⟩ ← expectMark .semicolon rest₁
    return ⟨.node .var span names [], rest₂, by simp only [List.length_cons]; omega⟩
  | other => do
    let ⟨value, rest₁, h₁⟩ ← expression other
    let ⟨_, rest₂, h₂⟩ ← expectMark .semicolon rest₁
    return ⟨value, rest₂, by omega⟩
termination_by ts.length * 16 + 11

/-- A part of the header of a `for` loop that may be left out, up to the mark that ends it. -/
def optional (start : Span) (close : Mark) (ts : List Token) : Parse Draft ts.length :=
  match eat? (.mark close) ts with
  | some ⟨_, rest, h⟩ => return ⟨.leaf .empty start, rest, h⟩
  | none => do
    let ⟨value, rest₁, h₁⟩ ← expression ts
    let ⟨_, rest₂, h₂⟩ ← expectMark close rest₁
    return ⟨value, rest₂, by omega⟩
termination_by ts.length * 16 + 11

/-- The clauses of a `switch`, up to its closing brace. -/
def clauses (ts : List Token) : Parse (List Draft) ts.length :=
  match ts with
  | ⟨.keyword .case_, start⟩ :: more => do
    let ⟨test, rest₁, h₁⟩ ← expression more
    let ⟨_, rest₂, h₂⟩ ← expectMark .colon rest₁
    let ⟨inside, rest₃, h₃⟩ ← statements endsClause rest₂
    let ⟨others, rest₄, h₄⟩ ← clauses rest₃
    return ⟨.node .case_ start [test, .node .block start [] inside] [] :: others, rest₄, by
      simp only [List.length_cons]; omega⟩
  | ⟨.keyword .default_, start⟩ :: more => do
    let ⟨_, rest₁, h₁⟩ ← expectMark .colon more
    let ⟨inside, rest₂, h₂⟩ ← statements endsClause rest₁
    let ⟨others, rest₃, h₃⟩ ← clauses rest₂
    return ⟨.node .default_ start [.node .block start [] inside] [] :: others, rest₃, by
      simp only [List.length_cons]; omega⟩
  | ⟨.mark .closeBrace, _⟩ :: more => return ⟨[], more, by simp⟩
  | other => unexpected other .expectedClause
termination_by ts.length * 16

/-- A statement. -/
def statement (ts : List Token) : Parse Draft ts.length :=
  match ts with
  | ⟨.mark .openBrace, start⟩ :: more => block (⟨.mark .openBrace, start⟩ :: more)
  | ⟨.keyword .var, _⟩ :: more => do
    let ⟨names, rest₁, h₁⟩ ← declarators more
    let ⟨_, rest₂, h₂⟩ ← statementEnd rest₁
    return ⟨.declarations names, rest₂, by simp only [List.length_cons]; omega⟩
  | ⟨.keyword .if_, start⟩ :: more => do
    let ⟨condition, rest₁, h₁⟩ ← header more
    let ⟨first, rest₂, h₂⟩ ← body rest₁
    match eat? (.keyword .else_) rest₂ with
    | some ⟨_, more', h₃⟩ =>
      let ⟨second, rest, h₄⟩ ← body more'
      return ⟨.node .if_ start [condition, first] [second], rest, by
        simp only [List.length_cons]; omega⟩
    | none =>
      return ⟨.node .if_ start [condition, first] [], rest₂, by
        simp only [List.length_cons]; omega⟩
  | ⟨.keyword .while_, start⟩ :: more => do
    let ⟨condition, rest₁, h₁⟩ ← header more
    let ⟨inside, rest₂, h₂⟩ ← body rest₁
    return ⟨.node .while_ start [condition, inside] [], rest₂, by
      simp only [List.length_cons]; omega⟩
  | ⟨.keyword .do_, start⟩ :: more => do
    let ⟨inside, rest₁, h₁⟩ ← body more
    let ⟨_, rest₂, h₂⟩ ← expect (.keyword .while_) rest₁
    let ⟨condition, rest₃, h₃⟩ ← header rest₂
    let ⟨_, rest₄, h₄⟩ ← statementEnd rest₃
    return ⟨.node .doWhile start [inside, condition] [], rest₄, by
      simp only [List.length_cons]; omega⟩
  | ⟨.keyword .for_, start⟩ :: more => do
    let ⟨_, rest₁, h₁⟩ ← expectMark .openParen more
    let ⟨first, rest₂, h₂⟩ ← initializer start rest₁
    let ⟨condition, rest₃, h₃⟩ ← optional start .semicolon rest₂
    let ⟨update, rest₄, h₄⟩ ← optional start .closeParen rest₃
    let ⟨inside, rest₅, h₅⟩ ← body rest₄
    return ⟨.node .for_ start [first, condition, update, inside] [], rest₅, by
      simp only [List.length_cons]; omega⟩
  | ⟨.keyword .switch, start⟩ :: more => do
    let ⟨value, rest₁, h₁⟩ ← header more
    let ⟨_, rest₂, h₂⟩ ← expectMark .openBrace rest₁
    let ⟨cases, rest₃, h₃⟩ ← clauses rest₂
    return ⟨.node .switch start [value] cases, rest₃, by simp only [List.length_cons]; omega⟩
  | ⟨.keyword .return_, start⟩ :: more =>
    if endsStatement more then do
      let ⟨_, rest, h⟩ ← statementEnd more
      return ⟨.leaf .return_ start, rest, by simp only [List.length_cons]; omega⟩
    else do
      let ⟨value, rest₁, h₁⟩ ← expression more
      let ⟨_, rest₂, h₂⟩ ← statementEnd rest₁
      return ⟨.node .return_ start [] [value], rest₂, by simp only [List.length_cons]; omega⟩
  | ⟨.keyword .break_, start⟩ :: more => do
    let ⟨label, rest₁, h₁⟩ ← optionalName more
    let ⟨_, rest₂, h₂⟩ ← statementEnd rest₁
    return ⟨.leaf (.break_ label) start, rest₂, by simp only [List.length_cons]; omega⟩
  | ⟨.keyword .continue_, start⟩ :: more => do
    let ⟨label, rest₁, h₁⟩ ← optionalName more
    let ⟨_, rest₂, h₂⟩ ← statementEnd rest₁
    return ⟨.leaf (.continue_ label) start, rest₂, by simp only [List.length_cons]; omega⟩
  | ⟨.keyword .throw, start⟩ :: more => do
    let ⟨value, rest₁, h₁⟩ ← expression more
    let ⟨_, rest₂, h₂⟩ ← statementEnd rest₁
    return ⟨.node .throw start [value] [], rest₂, by simp only [List.length_cons]; omega⟩
  | ⟨.keyword .function, start⟩ :: more => do
    let ⟨value, rest, h⟩ ← functionTail start more
    return ⟨value, rest, by simp only [List.length_cons]; omega⟩
  | ⟨.mark .semicolon, start⟩ :: more => return ⟨.leaf .empty start, more, by simp⟩
  | ⟨.symbol name, start⟩ :: ⟨.mark .colon, _⟩ :: t :: more => do
    let ⟨inside, rest, h⟩ ← statement (t :: more)
    return ⟨.node (.label name) start [single t.span inside] [], rest, by
      simp only [List.length_cons] at *; omega⟩
  | ⟨.symbol _, _⟩ :: ⟨.mark .colon, _⟩ :: [] => unexpected [] .expectedExpression
  | t :: more => do
    let ⟨value, rest₁, h₁⟩ ← expression (t :: more)
    let ⟨_, rest₂, h₂⟩ ← statementEnd rest₁
    return ⟨.node .expression (t.span.to value.span) [value] [], rest₂, by
      simp only [List.length_cons] at *; omega⟩
  | [] => unexpected [] .expectedExpression
termination_by ts.length * 16 + 11

end

/-- The fault as a problem of the text whose tokens were read. -/
def Fault.toProblem (fault : Fault) (list : TokenList) : Problem :=
  .ofCause fault.cause (fault.span.getD list.finishSpan)

/-- Reads a program. -/
def parseScript (list : TokenList) : Except Problem (List Draft) :=
  match statements (fun _ => false) list.tokens with
  | .ok ⟨script, _, _⟩ => .ok script
  | .error fault => .error (fault.toProblem list)

end Hoist
