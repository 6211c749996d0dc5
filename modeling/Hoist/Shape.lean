import Hoist.Tree

namespace Hoist

/-- A program or a piece of one without names of nodes and places in a text. -/
inductive Shape
  | node (kind : Kind) (constant : Bool) (children : List Shape)

namespace Shape

def kind : Shape → Kind
  | .node kind _ _ => kind

def constant : Shape → Bool
  | .node _ constant _ => constant

def children : Shape → List Shape
  | .node _ _ children => children

end Shape

/-- The shape of a subtree. The budget bounds the depth. -/
def Tree.shapeFrom (t : Tree) : Nat → NodeId → Shape
  | 0, n => .node (t.kind n) (t.constant n) []
  | budget + 1, n => .node (t.kind n) (t.constant n) ((t.children n).map (t.shapeFrom budget))

/-- The shape of a subtree. -/
def Tree.shape (t : Tree) (n : NodeId) : Shape := t.shapeFrom t.size n

end Hoist
