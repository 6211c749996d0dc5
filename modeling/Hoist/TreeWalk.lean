import Hoist.Tree

namespace Hoist

namespace Tree

/-- The nodes below a stack of nodes, each before its children. The budget bounds their number. -/
def preorderFrom (t : Tree) : Nat → List NodeId → List NodeId
  | 0, _ => []
  | _, [] => []
  | budget + 1, n :: stack => n :: preorderFrom t budget (t.children n ++ stack)

/-- A node and all below it, parents before children and children from left to right. -/
def preorder (t : Tree) (n : NodeId) : List NodeId := t.preorderFrom t.size [n]

/-- The nodes on the way up from an optional node on. The budget bounds their number. -/
def ancestorsFrom (t : Tree) : Nat → Option NodeId → List NodeId
  | 0, _ => []
  | _, none => []
  | budget + 1, some n => n :: ancestorsFrom t budget (t.parent n)

/-- The parent of a node, the parent of that, and so on. -/
def ancestors (t : Tree) (n : NodeId) : List NodeId := t.ancestorsFrom t.size (t.parent n)

/-- Whether a node is another or stands below it. -/
def isDescendantOrSelf (t : Tree) (n ancestor : NodeId) : Bool :=
  n == ancestor || (t.ancestors n).contains ancestor

end Tree

/-- Whether running a node of this kind changes the state of the program by itself. -/
def Kind.writes : Kind → Bool
  | .assign | .assignOp _ | .increment _ _ | .unary .delete | .call | .new | .throw => true
  | _ => false

/-- Whether running a node of this kind leaves its children alone. -/
def Kind.isFunction : Kind → Bool
  | .function _ _ => true
  | _ => false

namespace Tree

/-- Whether running the nodes below a stack of nodes may change the state of the program. -/
def sideEffectsFrom (t : Tree) : Nat → List NodeId → Bool
  | 0, _ => false
  | _, [] => false
  | budget + 1, n :: stack =>
    if (t.kind n).writes then true
    else if (t.kind n).isFunction then sideEffectsFrom t budget stack
    else sideEffectsFrom t budget (t.children n ++ stack)

/-- Whether running a node may change the state of the program. A function is only made, not run. -/
def hasSideEffects (t : Tree) (n : NodeId) : Bool := t.sideEffectsFrom t.size [n]

end Tree

end Hoist
