import Hoist.Extraction

namespace Hoist

namespace Step

/-- Turns a compound assignment into a plain one where its target has to be read before its value is
evaluated, and takes that read out. The read comes after the object and the key of the target.
Gives the node that stands in the place of the assignment. -/
def splitCompound (s : PassState) (assignment child : NodeId) (form : TargetForm)
    (op : BinaryOp) : Step (NodeId × PassState) := do
  let target ← firstChildOf assignment
  if target = child then return (assignment, s)
  let beforeTarget := s.before
  let s ← extractTargetParts s assignment child form
  let w ← get
  if !w.tree.readMustPrecede w.constants s.effects form target then return (assignment, s)
  let span ← look (·.span assignment)
  edit (·.detach child)
  edit (·.detach target)
  let read ← look (·.size)
  edit fun t => .ok (t.copy target)
  let combined ← makeOver (.binary op) span [read, child]
  let plain ← makeOver .assign span [target, combined]
  edit (·.replace assignment plain)
  let declaration ← extract read beforeTarget
  return (plain, ⟨true, if s.before = beforeTarget then declaration else s.before⟩)

/-- Takes the callee of a method call out and keeps its object: `object.member(arguments)` becomes
`member.call(object, arguments)` behind declarations of both names. Gives the new call. -/
def splitMethodCall (s : PassState) (call : NodeId) : Step (NodeId × PassState) := do
  let callee ← firstChildOf call
  let kind ← look (·.kind call)
  if kind ≠ .call ∨ !(← look (·.isMember callee)) then
    refuse call (.notMethodCall kind (← look (·.kind callee)))
  let functionDeclaration ← extract callee s.before
  let functionDeclarator ← firstChildOf functionDeclaration
  let member ← firstChildOf functionDeclarator
  let object ← firstChildOf member
  let objectDeclaration ← extract object functionDeclaration
  let objectDeclarator ← firstChildOf objectDeclaration
  let functionName := (← look (·.name? functionDeclarator)).getD ""
  let objectName := (← look (·.name? objectDeclarator)).getD ""
  let span ← look (·.span call)
  let functionReference ← makeName functionName span
  let newCallee ← makeOver (.property "call") span [functionReference]
  let objectReference ← makeName objectName span
  let newCall ← makeOver .call span [newCallee, objectReference]
  let arguments ← look fun t => (t.children call).drop 1
  edit fun t => .ok (t.detachChildren call)
  for argument in arguments do
    edit (·.appendChild newCall argument)
  edit (·.replace call newCall)
  return (newCall, ⟨true, objectDeclaration⟩)

/-- A value, assigned to a name where there is one. -/
def resultExpression (result : Option String) (span : Span) (value : NodeId) :
    Step NodeId := do
  match result with
  | none => return value
  | some name =>
    let target ← makeName name span
    makeOver .assign span [target, value]

/-- A statement that evaluates a value, and assigns it to a name where there is one. -/
def resultStatement (result : Option String) (span : Span) (value : NodeId) :
    Step NodeId := do
  let expression ← resultExpression result span value
  makeOver .expression span [expression]

/-- Puts a statement that evaluates a value into a block. -/
def fillBlock (result : Option String) (span : Span) (block value : NodeId) : Step Unit := do
  let statement ← resultStatement result span value
  edit (·.prependChild block statement)

/-- Puts the operands of a conditional where an `if` has them, and gives its condition. -/
def placeOperands (n : NodeId) (op : ConditionalOp) (operands : List NodeId)
    (result : Option String) (span : Span) (thenBlock elseBlock : NodeId) : Step NodeId := do
  match op, operands with
  | .choice, [condition, first, second] =>
    fillBlock result span thenBlock first
    fillBlock result span elseBlock second
    return condition
  | .and_, [left, right] =>
    fillBlock result span thenBlock right
    resultExpression result span left
  | .or_, [left, right] =>
    fillBlock result span elseBlock right
    resultExpression result span left
  | _, _ => refuse n (.operandCount (← look (·.kind n)) operands.length)

/-- Turns a conditional into an `if`. Where its value is needed, both branches assign it to a
temporary, which is declared before a statement and takes the place of the conditional. Otherwise
the conditional is a whole statement, and the `if` takes the place of that. -/
def splitConditional (n before : NodeId) (needResult : Bool) : Step NodeId := do
  let parent ← parentOf n
  match ← look (·.role n) with
  | .conditional op =>
    if !needResult ∧ (← look (·.kind parent)) ≠ .expression then
      refuse n (.unusedValue (← look (·.kind n)) (← look (·.kind parent)))
    let name ← freshName
    let result := if needResult then some name else none
    let span ← look (·.span n)
    let operands ← look (·.children n)
    edit fun t => .ok (t.detachChildren n)
    let thenBlock ← make .block span
    let elseBlock ← make .block span
    let condition ← placeOperands n op operands result span thenBlock elseBlock
    let hasElse ← look (·.hasChildren elseBlock)
    let statement ← makeOver .if_ span
      (if hasElse then [condition, thenBlock, elseBlock] else [condition, thenBlock])
    if needResult then
      let declarator ← makeName name span
      let declaration ← makeOver .var span [declarator]
      edit (·.insertBefore declaration before)
      edit (·.insertAfter statement declaration)
      let reference ← makeName name span
      edit (·.replace n reference)
    else
      edit (·.replace parent statement)
    return statement
  | _ => refuse n (.notConditional (← look (·.kind n)))

end Step

end Hoist
