import Hoist.Kind
import Hoist.Position

namespace Hoist

/-- A node is named by its place in the order of creation. -/
abbrev NodeId := Nat

/-- A node of a program. -/
structure Node where
  kind : Kind
  parent : Option NodeId
  children : List NodeId
  span : Span
  /-- Whether this is a name that is known to be assigned once and never again. -/
  constant : Bool
  deriving DecidableEq

instance : Inhabited Node := ⟨⟨.empty, none, [], .nowhere, false⟩⟩

/-- A node that stands alone. -/
def Node.alone (kind : Kind) (span : Span) (constant : Bool) : Node :=
  ⟨kind, none, [], span, constant⟩

/-- A program as nodes that name each other. Nodes are never taken away, only detached, so the name
of a node stays good. The script is the first one made. -/
structure Tree where
  nodes : Array Node

/-- The script. -/
def Tree.root : NodeId := 0

/-- A script without statements. -/
def Tree.empty : Tree := ⟨#[.alone .script .nowhere false]⟩

namespace Tree

/-- How many nodes were ever made. -/
def size (t : Tree) : Nat := t.nodes.size

/-- The node of a name. A name that was never given out stands for an empty node alone. -/
def node (t : Tree) (n : NodeId) : Node := t.nodes[n]?.getD default

def kind (t : Tree) (n : NodeId) : Kind := (t.node n).kind

def parent (t : Tree) (n : NodeId) : Option NodeId := (t.node n).parent

def children (t : Tree) (n : NodeId) : List NodeId := (t.node n).children

def span (t : Tree) (n : NodeId) : Span := (t.node n).span

def constant (t : Tree) (n : NodeId) : Bool := (t.node n).constant

def firstChild (t : Tree) (n : NodeId) : Option NodeId := (t.children n).head?

def lastChild (t : Tree) (n : NodeId) : Option NodeId := (t.children n).getLast?

def hasChildren (t : Tree) (n : NodeId) : Bool := !(t.children n).isEmpty

/-- Where a node stands among the children of another. -/
def childIndex (t : Tree) (parent child : NodeId) : Option Nat :=
  (t.children parent).idxOf? child

/-- The child after a node, under the same parent. -/
def nextSibling (t : Tree) (n : NodeId) : Option NodeId := do
  let parent ← t.parent n
  let index ← t.childIndex parent n
  (t.children parent)[index + 1]?

/-- Whether the script has no statements. -/
def isEmpty (t : Tree) : Bool := !t.hasChildren root

/-- Whether a node is a list of statements. -/
def isStatementList (t : Tree) (n : NodeId) : Bool := (t.kind n).isStatementList

/-- Whether a node reads a member of an object. -/
def isMember (t : Tree) (n : NodeId) : Bool := (t.kind n).isMember

/-- The name that a node is, if it is one. -/
def name? (t : Tree) (n : NodeId) : Option String := (t.kind n).name?

/-- Whether a node is a name that is known to be assigned once. -/
def isConstantName (t : Tree) (n : NodeId) : Bool :=
  (t.name? n).isSome && t.constant n

/-- Changes one node. -/
def update (t : Tree) (n : NodeId) (f : Node → Node) : Tree :=
  ⟨t.nodes.modify n f⟩

/-- Adds a node, whose name is the old size. -/
def push (t : Tree) (node : Node) : Tree := ⟨t.nodes.push node⟩

@[simp] theorem size_update (t : Tree) (n : NodeId) (f : Node → Node) :
    (t.update n f).size = t.size := by
  simp [size, update]

@[simp] theorem size_push (t : Tree) (node : Node) : (t.push node).size = t.size + 1 := by
  simp [size, push]

theorem node_update (t : Tree) (n m : NodeId) (f : Node → Node) :
    (t.update n f).node m = if n = m ∧ m < t.size then f (t.node m) else t.node m := by
  simp only [node, update, size, Array.getElem?_modify]
  split <;> rename_i h
  · subst h
    by_cases hs : n < t.nodes.size <;> simp [hs]
  · simp [h]

theorem node_push (t : Tree) (node : Node) (m : NodeId) :
    (t.push node).node m = if m = t.size then node else t.node m := by
  simp only [Tree.node, push, size, Array.getElem?_push]
  split <;> simp_all

end Tree

end Hoist
