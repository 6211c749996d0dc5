import Hoist.Splits

namespace Hoist

namespace Step

/-- Takes out what a node evaluates before the child that holds the expression. Gives the node that
stands in its place afterwards. -/
def exposeIn (s : PassState) (parent child : NodeId) : Step (NodeId × PassState) := do
  match ← look (·.role parent) with
  | .conditional _ =>
    if (← look (·.firstChild parent)) ≠ some child then
      refuse parent (.conditionalOperand (← look (·.kind parent)))
    return (parent, s)
  | .assignment .name none => return (parent, s)
  | .assignment form none => return (parent, ← extractTargetParts s parent child form)
  | .assignment form (some op) => splitCompound s parent child form op
  | .call true =>
    let callee ← firstChildOf parent
    if callee = child then return (parent, s)
    let s ← extractBefore s parent 1 child
    if ← mustPrecede s.effects callee then
      splitMethodCall s parent
    else
      return (parent, s)
  | .call false | .plain => return (parent, ← extractBefore s parent 0 child)
  | .root | .boundary => refuse parent (.reachedBeforeRoot (← look (·.kind parent)))

/-- Takes out what the nodes of a path evaluate before the expression, from the inside out. -/
def exposeAlong (s : PassState) (child : NodeId) : List NodeId → Step Unit
  | [] => return
  | parent :: above => do
    let (next, s) ← exposeIn s parent child
    exposeAlong s next above

/-- One pass over the statement of an expression: takes out what is evaluated before the outermost
conditional around it, and turns that conditional into control flow. -/
def exposeUnder (root n : NodeId) : Step Unit := do
  let outer ← look (·.alwaysEvaluated root n)
  let before ← ask (·.findInjection outer)
  let effects ← look (·.hasSideEffects outer)
  exposeAlong ⟨effects, before⟩ outer (← look (·.pathTo root outer))
  if outer ≠ n then
    let isStatement ← look fun t => (t.parent outer).any (t.kind · = .expression)
    discard (splitConditional outer before !isStatement)

/-- One pass over the statement of an expression, which need not be movable afterwards. -/
def exposeOnce (n : NodeId) : Step Unit := do
  match ← ask (·.findRoot n) with
  | some root =>
    exposeUnder root n
    reportChange
  | none => refuse n (.noRootToExpose (← look (·.kind n)))

/-- How an expression can be moved in front of its statement. -/
def classify (n : NodeId) : Step Movability := do
  let constants := (← get).constants
  ask (·.classify constants n)

/-- Passes over the statement of an expression until the expression is movable. -/
def exposeWithin (n : NodeId) (budget : Nat) : Step Unit := do
  match ← classify n with
  | .movable => return
  | .undecomposable => refuse n (.noStatementToDecompose (← look (·.kind n)))
  | .decomposable =>
    match budget with
    | 0 => refuse n (.noProgress (← look (·.kind n)))
    | budget + 1 =>
      exposeOnce n
      exposeWithin n budget

/-- Works on the statement of an expression until the expression is movable. -/
def expose (n : NodeId) : Step Unit := do
  match ← ask (·.findRoot n) with
  | some root => exposeWithin n (2 * (← look fun t => (t.preorder root).length) + 1)
  | none => exposeWithin n 0

/-- Moves a movable expression in front of its statement, as the value of a new temporary that takes
its place. Gives the declaration of the temporary. -/
def relocate (n : NodeId) : Step NodeId := do
  if (← classify n) ≠ .movable then
    refuse n (.notMovable (← look (·.kind n)))
  let before ← ask (·.findInjection n)
  let declaration ← declare (← freshName) n before
  reportChange
  return declaration

end Step

end Hoist
