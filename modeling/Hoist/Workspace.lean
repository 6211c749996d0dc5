import Hoist.Movability

namespace Hoist

/-- A tree that is worked on, with what the work has to remember. -/
structure Workspace where
  tree : Tree
  /-- The number of changes reported so far. -/
  changes : Nat
  /-- The id of the next temporary. -/
  nextId : Nat
  /-- The names that are known to be assigned once, without repetition. -/
  constants : List String
  /-- What the names of temporaries begin with. -/
  tempPrefix : String

/-- What temporaries are called where nothing else is asked for. -/
def defaultTempPrefix : String := "JSCompiler_temp_"

/-- Nothing is done yet to a tree. -/
def Workspace.ofTree (t : Tree) (tempPrefix : String) : Workspace := ⟨t, 0, 0, [], tempPrefix⟩

/-- Adds a name to those that are known to be assigned once. -/
def Workspace.addConstant (w : Workspace) (name : String) : Workspace :=
  if w.constants.contains name then w else { w with constants := w.constants ++ [name] }

/-- A step of work on a tree. What was done before a refusal stays done. -/
abbrev Step := EStateM Refusal Workspace

namespace Step

/-- Looks at the tree. -/
def look {α : Type} (f : Tree → α) : Step α := fun w => .ok (f w.tree) w

/-- Asks a question about the tree that may be refused. -/
def ask {α : Type} (f : Tree → Except Refusal α) : Step α := fun w =>
  match f w.tree with
  | .ok a => .ok a w
  | .error refusal => .error refusal w

/-- Changes the tree. -/
def edit (f : Tree → Except Refusal Tree) : Step Unit := fun w =>
  match f w.tree with
  | .ok t => .ok () { w with tree := t }
  | .error refusal => .error refusal w

/-- Refuses, because of a node. -/
def refuse {α : Type} (n : NodeId) (cause : Cause) : Step α := fun w =>
  .error (w.tree.problem n cause) w

/-- Makes a node without children. -/
def make (kind : Kind) (span : Span) : Step NodeId := fun w =>
  .ok w.tree.size { w with tree := w.tree.push (.alone kind span false) }

/-- Makes a name, which is no constant however it is written. -/
def makeName (name : String) (span : Span) : Step NodeId := make (.name name) span

/-- Makes a node and puts nodes under it. -/
def makeOver (kind : Kind) (span : Span) (children : List NodeId) : Step NodeId := do
  let n ← make kind span
  for child in children do
    edit (·.appendChild n child)
  return n

/-- The next id. -/
def freshId : Step String := fun w =>
  .ok (toString w.nextId) { w with nextId := w.nextId + 1 }

/-- A new name that may be assigned more than once. -/
def freshName : Step String := do
  let id ← freshId
  return (← get).tempPrefix ++ id

/-- A new name that is assigned once. -/
def freshConstant : Step String := do
  let id ← freshId
  let name := (← get).tempPrefix ++ "const_" ++ id
  modify (·.addConstant name)
  return name

/-- Reports a change. -/
def reportChange : Step Unit := modify fun w => { w with changes := w.changes + 1 }

/-- The parent of a node on the way to its root. -/
def parentOf (n : NodeId) : Step NodeId := do
  match ← look (·.parent n) with
  | some parent => return parent
  | none => refuse n (.lostParent n (← look (·.kind n)))

/-- The first child of a node that has to have one. -/
def firstChildOf (n : NodeId) : Step NodeId := do
  match ← look (·.firstChild n) with
  | some child => return child
  | none => refuse n (.missingOperand (← look (·.kind n)))

/-- Puts a name in the place of a node, and declares the name right before a statement with the node
as its value. -/
def declare (name : String) (n before : NodeId) : Step NodeId := do
  let span ← look (·.span n)
  let reference ← makeName name span
  edit (·.replace n reference)
  let declarator ← makeName name span
  edit (·.appendChild declarator n)
  let declaration ← makeOver .var span [declarator]
  edit (·.insertBefore declaration before)
  return declaration

end Step

end Hoist
