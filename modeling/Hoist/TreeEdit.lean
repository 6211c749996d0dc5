import Hoist.Problem
import Hoist.TreeWalk

namespace Hoist

/-- Why a step on a tree was refused. -/
inductive Refusal
  /-- A node was to be put under a second parent. -/
  | owned (node : NodeId)
  | problem (problem : Problem)

namespace Tree

/-- A problem with a node. -/
def problem (t : Tree) (n : NodeId) (cause : Cause) : Refusal :=
  .problem (.ofCause cause (t.span n))

/-- Refuses a node that has a parent. -/
def requireFree (t : Tree) (n : NodeId) : Except Refusal Unit :=
  match t.parent n with
  | none => .ok ()
  | some _ => .error (.owned n)

/-- The parent of a node, and where the node stands under it. -/
def placeOf (t : Tree) (n : NodeId) : Except Refusal (NodeId × Nat) :=
  match t.parent n with
  | none => .error (t.problem n (.noParent n (t.kind n)))
  | some parent =>
    match t.childIndex parent n with
    | some index => .ok (parent, index)
    | none => .error (t.problem n (.notListed n parent))

/-- Gives a node a parent, or none. -/
def setParent (t : Tree) (n : NodeId) (parent : Option NodeId) : Tree :=
  t.update n fun node => { node with parent := parent }

/-- Changes the list of children of a node. -/
def mapChildren (t : Tree) (n : NodeId) (f : List NodeId → List NodeId) : Tree :=
  t.update n fun node => { node with children := f node.children }

/-- Puts a node that has no parent under another, at a place among its children. -/
def attach (t : Tree) (parent : NodeId) (index : Nat) (child : NodeId) : Tree :=
  (t.setParent child (some parent)).mapChildren parent fun cs => cs.insertIdx index child

/-- Puts a node behind the children of another. -/
def attachLast (t : Tree) (parent child : NodeId) : Tree :=
  t.attach parent (t.children parent).length child

/-- Puts a node that has no parent behind the children of another. -/
def appendChild (t : Tree) (parent child : NodeId) : Except Refusal Tree := do
  t.requireFree child
  return t.attachLast parent child

/-- Puts a node that has no parent before the children of another. -/
def prependChild (t : Tree) (parent child : NodeId) : Except Refusal Tree := do
  t.requireFree child
  return t.attach parent 0 child

/-- Puts a node that has no parent right before another. -/
def insertBefore (t : Tree) (new existing : NodeId) : Except Refusal Tree := do
  let (parent, index) ← t.placeOf existing
  t.requireFree new
  return t.attach parent index new

/-- Puts a node that has no parent right behind another. -/
def insertAfter (t : Tree) (new existing : NodeId) : Except Refusal Tree := do
  let (parent, index) ← t.placeOf existing
  t.requireFree new
  return t.attach parent (index + 1) new

/-- Puts a node that has no parent in the place of another, which is left without a parent. -/
def replace (t : Tree) (old new : NodeId) : Except Refusal Tree := do
  t.requireFree new
  let (parent, index) ← t.placeOf old
  return ((t.mapChildren parent fun cs => cs.set index new).setParent new (some parent)).setParent
    old none

/-- Takes a node from its parent. -/
def detach (t : Tree) (n : NodeId) : Except Refusal Tree := do
  let (parent, index) ← t.placeOf n
  return (t.mapChildren parent fun cs => cs.eraseIdx index).setParent n none

/-- Takes all children from a node. -/
def detachChildren (t : Tree) (n : NodeId) : Tree :=
  (t.children n).foldl (fun t c => t.setParent c none) (t.mapChildren n fun _ => [])

/-- Marks a name as assigned once, or not. -/
def setConstant (t : Tree) (n : NodeId) (constant : Bool) : Tree :=
  t.update n fun node => { node with constant := constant }

/-- Copies the nodes of a subtree, each before its children. The budget bounds the depth. -/
def copyFrom : Nat → Tree → NodeId → Tree
  | 0, t, _ => t
  | budget + 1, t, n =>
    let source := t.node n
    let copy := t.size
    source.children.foldl (fun t c => (copyFrom budget t c).attachLast copy t.size)
      (t.push (.alone source.kind source.span source.constant))

/-- Copies a subtree. The copy of the node is named by the old size and has no parent. -/
def copy (t : Tree) (n : NodeId) : Tree := copyFrom t.size t n

/-- Finds the first node that is listed twice or that does not name its parent. -/
def findStray (t : Tree) : List NodeId → List NodeId → Option Refusal
  | _, [] => none
  | seen, n :: rest =>
    if seen.contains n then some (t.problem n (.ownedTwice n))
    else
      match (t.children n).find? fun c => t.parent c != some n with
      | some c => some (t.problem c (.strayParent c n))
      | none => t.findStray (n :: seen) rest

/-- Checks that every node below the script is listed once, and under the parent that it names. -/
def check (t : Tree) : Except Refusal Unit :=
  match t.findStray [] (t.preorder root) with
  | some refusal => .error refusal
  | none => .ok ()

end Tree

end Hoist
