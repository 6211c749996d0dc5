import Hoist.Workspace

namespace Hoist

/-- Where one pass has got to. -/
structure PassState where
  /-- Whether something that is evaluated later may have a side effect. -/
  effects : Bool
  /-- The statement that the next declaration goes before. What is taken out goes right to left,
  so this is always the declaration of what comes next. -/
  before : NodeId

namespace Step

/-- Declares a node as a temporary that is assigned once, right before a statement. -/
def extract (n before : NodeId) : Step NodeId := do
  declare (← freshConstant) n before

/-- Asks whether a node has to be evaluated before what comes behind it. -/
def mustPrecede (effects : Bool) (n : NodeId) : Step Bool := do
  let w ← get
  return w.tree.mustPrecede w.constants effects n

/-- Takes a node out where it has to be evaluated before what comes behind it. -/
def extractIfNeeded (s : PassState) (n : NodeId) : Step PassState := do
  if ← mustPrecede s.effects n then
    return ⟨true, ← extract n s.before⟩
  else
    return s

/-- Takes nodes out, the last first. -/
def extractAll (s : PassState) : List NodeId → Step PassState
  | [] => return s
  | n :: rest => do
    let s ← extractAll s rest
    extractIfNeeded s n

/-- Takes out what stands before a child, from an index on. -/
def extractBefore (s : PassState) (parent : NodeId) (first : Nat) (child : NodeId) :
    Step PassState := do
  let siblings ← look fun t => ((t.children parent).drop first).takeWhile (· ≠ child)
  extractAll s siblings

/-- Takes out the object and the key of the target of an assignment, which are evaluated before the
value. -/
def extractTargetParts (s : PassState) (assignment child : NodeId) (form : TargetForm) :
    Step PassState := do
  let target ← firstChildOf assignment
  if target = child then return s
  match form with
  | .name => return s
  | .property => extractIfNeeded s (← firstChildOf target)
  | .element =>
    let s ← match ← look fun t => (t.children target)[1]? with
      | some key => extractIfNeeded s key
      | none => pure s
    extractIfNeeded s (← firstChildOf target)

end Step

end Hoist
