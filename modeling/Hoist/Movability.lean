import Hoist.ExpressionRoot

namespace Hoist

/-- How an expression can be moved in front of its statement. -/
inductive Movability
  /-- There is no place in front of it. -/
  | undecomposable
  /-- As it stands. -/
  | movable
  /-- Once what holds it back is taken out. -/
  | decomposable
  deriving DecidableEq

namespace Tree

/-- Whether a side effect could change what a node evaluates to. Only names that are known to be
assigned once are sure to stay. -/
def isAlterable (t : Tree) (constants : List String) (n : NodeId) : Bool :=
  (t.preorder n).any fun m =>
    match t.kind m with
    | .call | .new => true
    | .name x => !t.isConstantName m && !constants.contains x
    | _ => false

/-- Whether a node has to be evaluated before what comes behind it. Where that may have side
effects, a node that reads state has to; where it has none, only a node that writes state. -/
def mustPrecede (t : Tree) (constants : List String) (effects : Bool) (n : NodeId) : Bool :=
  if effects then t.isAlterable constants n else t.hasSideEffects n

/-- Whether a compound assignment has to read its target before its value is evaluated. A member
may be anything, so any side effect may change it. -/
def readMustPrecede (t : Tree) (constants : List String) (effects : Bool) (form : TargetForm)
    (target : NodeId) : Bool :=
  match form with
  | .name => t.mustPrecede constants effects target
  | .property | .element => effects || t.hasSideEffects target

/-- The children of a node that stand before one of them. -/
def childrenBefore (t : Tree) (parent child : NodeId) : List NodeId :=
  (t.children parent).takeWhile (· ≠ child)

/-- Whether a node keeps one of its children from being moved out. -/
def holdsBack (t : Tree) (constants : List String) (effects : Bool) (parent child : NodeId) :
    Bool :=
  match t.role parent with
  | .conditional _ => t.firstChild parent != some child
  | .assignment .name none => false
  | .assignment form (some _) =>
    match t.firstChild parent with
    | some target => target != child && t.readMustPrecede constants effects form target
    | none => false
  | _ => (t.childrenBefore parent child).any (t.mustPrecede constants effects)

/-- Whether no node of a path keeps the one below it from being moved out. -/
def isPathFree (t : Tree) (constants : List String) (effects : Bool) : NodeId → List NodeId → Bool
  | _, [] => true
  | child, parent :: above =>
    !t.holdsBack constants effects parent child && t.isPathFree constants effects parent above

/-- Whether a node can be moved in front of its root as it stands. -/
def isMovable (t : Tree) (constants : List String) (root n : NodeId) : Bool :=
  t.isPathFree constants (t.hasSideEffects n) n (t.pathTo root n)

/-- How a node can be moved in front of its statement. -/
def classify (t : Tree) (constants : List String) (n : NodeId) : Except Refusal Movability :=
  match t.findRoot n with
  | .error refusal => .error refusal
  | .ok none => .ok .undecomposable
  | .ok (some root) => .ok (if t.isMovable constants root n then .movable else .decomposable)

end Tree

end Hoist
