import Hoist.Role
import Hoist.TreeEdit

namespace Hoist

namespace Tree

/-- Walks up from a child to the nearest statement that holds all of `start`. -/
def findRootFrom (t : Tree) (start : NodeId) : NodeId → List NodeId →
    Except Refusal (Option NodeId)
  | _, [] => .error (t.problem start (.unattached start (t.kind start)))
  | child, parent :: above =>
    match t.role parent with
    | .root =>
      if t.firstChild parent = some child then .ok (some parent)
      else .error (t.problem start (.notThroughFirstChild (t.kind parent)))
    | .boundary => .ok none
    | _ => t.findRootFrom start parent above

/-- The statement that holds the whole expression a node is in, or nothing where a node comes first
before which nothing can be declared. -/
def findRoot (t : Tree) (n : NodeId) : Except Refusal (Option NodeId) :=
  t.findRootFrom n n (t.ancestors n)

/-- The outermost of the labels right around a node, or the node itself. -/
def outermostLabel (t : Tree) : NodeId → List NodeId → NodeId
  | n, [] => n
  | n, parent :: above => if t.isLabel parent then t.outermostLabel parent above else n

/-- The statement that new declarations go before: the root of an expression with its labels. -/
def findInjection (t : Tree) (n : NodeId) : Except Refusal NodeId :=
  match t.findRoot n with
  | .error refusal => .error refusal
  | .ok none => .error (t.problem n (.noRootToInjectBefore (t.kind n)))
  | .ok (some root) =>
    let point := t.outermostLabel root (t.ancestors root)
    if (t.parent point).any t.isStatementList then .ok point
    else .error (t.problem point (.outsideStatementList (t.kind point)))

/-- The nodes between a node and its root, from the inside out. -/
def pathTo (t : Tree) (root n : NodeId) : List NodeId :=
  (t.ancestors n).takeWhile (· ≠ root)

/-- Walks up a path and keeps the last conditional that holds the path in an operand other than its
first. -/
def outermostConditional (t : Tree) : NodeId → NodeId → List NodeId → NodeId
  | found, _, [] => found
  | found, child, parent :: above =>
    if t.isConditional parent && t.firstChild parent != some child then
      t.outermostConditional parent parent above
    else t.outermostConditional found parent above

/-- The outermost conditional that evaluates a node only sometimes, or the node itself. -/
def alwaysEvaluated (t : Tree) (root n : NodeId) : NodeId :=
  t.outermostConditional n n (t.pathTo root n)

end Tree

end Hoist
