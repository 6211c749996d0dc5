import Hoist.Exposure
import Hoist.Layout
import Hoist.Program
import Hoist.Settings

namespace Hoist

/-- A call, as it was found before it was exposed. -/
structure CallSite where
  callee : String
  start : Position
  movability : Movability
  /-- Whether the call was moved into a temporary of its own. -/
  relocated : Bool
  deriving DecidableEq

/-- A call that can not be exposed. -/
structure Warning where
  /-- The call as it is written. -/
  source : String
  span : Span
  file : String
  deriving DecidableEq

/-- What became of a program. -/
structure Decomposition where
  source : String
  report : List CallSite
  warnings : List Warning
  changes : Nat

namespace Tree

/-- The name that a call calls, if it is one. -/
def callee? (t : Tree) (call : NodeId) : Option String :=
  (t.firstChild call).bind t.name?

/-- The calls to expose, in the order in which they are written. -/
def callSites (t : Tree) (settings : Settings) : List NodeId :=
  (t.preorder root).filter fun n =>
    t.kind n = .call && (t.callee? n).any settings.exposes

/-- Whether a call is a whole statement or a whole initial value already. -/
def standsAlone (t : Tree) (call : NodeId) : Bool :=
  match t.parent call with
  | none => false
  | some parent =>
    match t.kind parent with
    | .expression => true
    | .name _ => (t.parent parent).any (t.kind · = .var)
    | _ => false

end Tree

namespace Step

/-- Exposes a call whose movability is known, and moves it where that is asked for. Tells whether it
was moved. -/
def exposeKnown (settings : Settings) (call : NodeId) : Movability → Step Bool
  | .undecomposable => return false
  | _ => do
    expose call
    if settings.relocate && !(← look (·.standsAlone call)) then
      discard (relocate call)
      return true
    else
      return false

/-- Exposes a call. A call that is not in the program any more is left out. -/
def exposeSite (settings : Settings) (call : NodeId) : Step (Option CallSite) := do
  if !(← look (·.isDescendantOrSelf call Tree.root)) then return none
  let start ← look fun t => (t.span call).start
  let movability ← classify call
  let relocated ← exposeKnown settings call movability
  let callee := (← look (·.callee? call)).getD ""
  return some ⟨callee, start, movability, relocated⟩

/-- The warning about a call that can not be exposed. -/
def warningOf (file : String) (call : NodeId) (site : CallSite) : Step (Option Warning) := do
  match site.movability with
  | .undecomposable =>
    return some ⟨← look (·.sourceOf call), ← look (·.span call), file⟩
  | _ => return none

/-- Exposes calls, one after the other. -/
def exposeSites (settings : Settings) (file : String) :
    List NodeId → Step (List CallSite × List Warning)
  | [] => return ([], [])
  | call :: calls => do
    match ← exposeSite settings call with
    | none => exposeSites settings file calls
    | some site =>
      let warning ← warningOf file call site
      let (sites, warnings) ← exposeSites settings file calls
      return (site :: sites, warning.toList ++ warnings)

end Step

/-- A refusal as a problem. A node that was to be put under a second parent is owned twice. -/
def Refusal.toProblem : Refusal → Problem
  | .owned n => .ofCause (.ownedTwice n) .nowhere
  | .problem p => p

/-- Exposes the calls of a tree that the settings ask for, and checks the tree. -/
def Tree.exposeCalls (t : Tree) (settings : Settings) (file : String) :
    Step (List CallSite × List Warning) := do
  let found ← Step.exposeSites settings file (t.callSites settings)
  Step.ask Tree.check
  return found

/-- Reads a program and exposes its calls. -/
def decompose (settings : Settings) (file text : String) : Except Problem Decomposition := do
  let t ← readTree file text
  match t.exposeCalls settings file |>.run (.ofTree t settings.tempPrefix) with
  | .ok (report, warnings) w => return ⟨w.tree.sourceLines, report, warnings, w.changes⟩
  | .error refusal _ => throw (refusal.toProblem.inFile file)

end Hoist
