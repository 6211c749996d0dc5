import Hoist.NameChar
import Hoist.Tree

namespace Hoist

/-- A parsed piece of a program, whose nodes have no names yet. -/
inductive Draft
  /-- A node, whose children are `before` and then `after`. The former are made before the node,
  the latter when it is already there. -/
  | node (kind : Kind) (span : Span) (before after : List Draft)
  /-- A statement that declares several names: one declaration for each declarator. All declarators
  are made before the first declaration. -/
  | declarations (declarators : List Draft)

namespace Draft

def kind : Draft → Kind
  | .node kind _ _ _ => kind
  | .declarations _ => .var

def span : Draft → Span
  | .node _ span _ _ => span
  | .declarations _ => .nowhere

/-- A node without children. -/
def leaf (kind : Kind) (span : Span) : Draft := .node kind span [] []

/-- A node that is made after its operands and spans them. -/
def spanning (kind : Kind) (first last : Draft) (operands : List Draft) : Draft :=
  .node kind (first.span.to last.span) operands []

end Draft

/-- Whether a node is made as a constant: names in capitals are. -/
def Kind.isConstant (kind : Kind) : Bool := kind.name?.any isConstantCase

/-- Puts nodes under a node that has no children yet. -/
def Tree.adopt (t : Tree) (parent : NodeId) (children : List NodeId) : Tree :=
  let owned := children.foldl (fun t c => t.update c fun node =>
    { node with parent := some parent }) t
  owned.update parent fun node => { node with children := children }

/-- Makes a declaration for each declarator. -/
def Tree.declareEach (t : Tree) : List NodeId → List NodeId × Tree
  | [] => ([], t)
  | d :: ds =>
    let declared := (t.push (.alone .var (t.span d) false)).adopt t.size [d]
    let (rest, u) := declared.declareEach ds
    (t.size :: rest, u)

mutual

/-- Makes the nodes of a draft and gives those that stand in its place. -/
def Draft.plant (t : Tree) : Draft → List NodeId × Tree
  | .node kind span before after =>
    let (first, t) := Draft.plantAll t before
    let n := t.size
    let (last, t) := Draft.plantAll (t.push (.alone kind span kind.isConstant)) after
    ([n], t.adopt n (first ++ last))
  | .declarations declarators =>
    let (ds, t) := Draft.plantAll t declarators
    t.declareEach ds

/-- Makes the nodes of several drafts, one after the other. -/
def Draft.plantAll (t : Tree) : List Draft → List NodeId × Tree
  | [] => ([], t)
  | d :: ds =>
    let (first, t) := Draft.plant t d
    let (rest, t) := Draft.plantAll t ds
    (first ++ rest, t)

end

/-- The script with these statements. -/
def Tree.ofStatements (statements : List Draft) : Tree :=
  let (children, t) := Draft.plantAll .empty statements
  t.adopt Tree.root children

end Hoist
