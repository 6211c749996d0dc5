import Hoist.Proofs.Stepping

namespace Hoist

namespace Supply

/-- The next name that is assigned once. -/
def constantName (s : Supply) : String := s.tempPrefix ++ "const_" ++ toString s.nextId

/-- The next name that may be assigned more than once. -/
def valueName (s : Supply) : String := s.tempPrefix ++ toString s.nextId

/-- The supply after a name that is assigned once was drawn. -/
def afterConstant (s : Supply) : Supply :=
  { s with
    nextId := s.nextId + 1
    constants := if s.constants.contains s.constantName then s.constants
      else s.constants ++ [s.constantName] }

/-- The supply after a name that may be assigned more than once was drawn. -/
def afterName (s : Supply) : Supply := { s with nextId := s.nextId + 1 }

end Supply

namespace Branch

/-- A name as it is made. -/
def madeName (id : NodeId) (name : String) (span : Span) : Branch := .made id (.name name) span []

/-- The declaration of a name with a branch as its value. -/
def declaring (first : NodeId) (name : String) (value : Branch) : Branch :=
  .made (first + 1) .var value.span [.made first (.name name) value.span [value]]

/-- Whether a branch has to be evaluated before what comes behind it. -/
def mustPrecede (constants : List String) (effects : Bool) (b : Branch) : Bool :=
  if effects then b.isAlterable constants else b.hasSideEffects

/-- Whether a compound assignment has to read its target before its value is evaluated. -/
def readMustPrecede (constants : List String) (effects : Bool) (target : Branch) : Bool :=
  if target.kind.isMember then effects || target.hasSideEffects
  else target.mustPrecede constants effects

end Branch

/-- How far a pass over a statement has got. -/
structure Pass where
  /-- Whether something that is evaluated later may have a side effect. -/
  effects : Bool
  /-- The declarations of what was taken out, in the order of their evaluation. -/
  taken : List Branch
  supply : Supply

namespace Pass

/-- Takes a branch out. A name stands in its place. -/
def takeOut (s : Pass) (b : Branch) : Branch × Pass :=
  (.madeName s.supply.size s.supply.constantName b.span,
    ⟨true, .declaring (s.supply.size + 1) s.supply.constantName b :: s.taken,
      s.supply.afterConstant.grow 3⟩)

/-- Takes a branch out where it has to be evaluated before what comes behind it. -/
def takeIfNeeded (s : Pass) (b : Branch) : Branch × Pass :=
  if b.mustPrecede s.supply.constants s.effects then s.takeOut b else (b, s)

/-- Takes branches out, the last first. -/
def takeAll (s : Pass) : List Branch → List Branch × Pass
  | [] => ([], s)
  | b :: o =>
    let rest := s.takeAll o
    let first := rest.2.takeIfNeeded b
    (first.1 :: rest.1, first.2)

/-- Takes out what a target is made of. -/
def takeParts (s : Pass) (target : Branch) : Branch × Pass :=
  let parts := s.takeAll target.children
  (.node target.tag parts.1, parts.2)

/-- The declaration of the value of a target goes behind those of its parts, in front of all that
was taken before. -/
def splitCompound (s : Pass) (tag : Tag) (target : Branch) (op : BinaryOp) : List Frame × Pass :=
  let parts := { s with taken := [] }.takeParts target
  let r := parts.2
  if parts.1.readMustPrecede r.supply.constants r.effects then
    let read := parts.1.renumber r.supply.size
    let made := r.supply.grow (parts.1.ids.length + 2)
    let reference := Branch.madeName made.size made.constantName read.span
    ([⟨⟨r.supply.size + parts.1.ids.length, .binary op, tag.span, false⟩, [reference], []⟩,
      ⟨⟨r.supply.size + parts.1.ids.length + 1, .assign, tag.span, false⟩, [parts.1], []⟩],
      ⟨true, r.taken ++ .declaring (made.size + 1) made.constantName read :: s.taken,
        made.afterConstant.grow 3⟩)
  else ([⟨tag, [parts.1], []⟩], { r with taken := r.taken ++ s.taken })

/-- The callee of a method call goes out behind its object, both in front of the arguments. -/
def splitMethodCall (s : Pass) (tag : Tag) (callee : Branch) (object : Branch)
    (keys arguments right : List Branch) : Frame × Pass :=
  let p := s.supply
  let q := p.afterConstant.grow 3
  let r := q.afterConstant.grow 3
  let member := Branch.node callee.tag (.madeName q.size q.constantName object.span :: keys)
  (⟨⟨r.size + 3, .call, tag.span, false⟩,
      .made (r.size + 1) (.property "call") tag.span [.madeName r.size p.constantName tag.span] ::
        .madeName (r.size + 2) q.constantName tag.span :: arguments, right⟩,
    ⟨true, .declaring (q.size + 1) q.constantName object ::
      .declaring (p.size + 1) p.constantName member :: s.taken, r.grow 4⟩)

/-- Takes out what stands before the branch in the place of a frame. -/
def exposeLeft (s : Pass) (f : Frame) : List Frame × Pass :=
  let left := s.takeAll f.left
  ([⟨f.tag, left.1, f.right⟩], left.2)

/-- Takes out what a node evaluates before the branch in its place. -/
def exposeFrame (s : Pass) (f : Frame) : List Frame × Pass :=
  match f.left with
  | [] => ([f], s)
  | first :: rest =>
    match f.tag.kind with
    | .assign =>
      let target := s.takeParts first
      ([⟨f.tag, target.1 :: rest, f.right⟩], target.2)
    | .assignOp op => s.splitCompound f.tag first op
    | .call =>
      match first.kind.isMember, first.children with
      | true, object :: keys =>
        let arguments := s.takeAll rest
        if first.mustPrecede arguments.2.supply.constants arguments.2.effects then
          let split := arguments.2.splitMethodCall f.tag first object keys arguments.1 f.right
          ([split.1], split.2)
        else ([⟨f.tag, first :: arguments.1, f.right⟩], arguments.2)
      | _, _ => s.exposeLeft f
    | _ => s.exposeLeft f

/-- What can become of a node when what it evaluates before the branch in its place is taken out. -/
inductive Exposure (s : Pass) : Frame → List Frame → Pass → Prop
  /-- Nothing stands before the branch. -/
  | first (tag : Tag) (right : List Branch) :
    Exposure s ⟨tag, [], right⟩ [⟨tag, [], right⟩] s
  /-- What stands before the branch is taken out. -/
  | left (tag : Tag) (first : Branch) (rest right : List Branch) (assign : tag.kind ≠ .assign)
    (compound : ∀ op, tag.kind ≠ .assignOp op)
    (method : tag.kind = .call → first.kind.isMember = true → first.children = []) :
    Exposure s ⟨tag, first :: rest, right⟩ [⟨tag, (s.takeAll (first :: rest)).1, right⟩]
      (s.takeAll (first :: rest)).2
  /-- What the target of an assignment is made of is taken out. -/
  | target (tag : Tag) (target : Branch) (rest right : List Branch) (kind : tag.kind = .assign) :
    Exposure s ⟨tag, target :: rest, right⟩ [⟨tag, (s.takeParts target).1 :: rest, right⟩]
      (s.takeParts target).2
  /-- The target of a compound assignment is taken out or read first. -/
  | compound (tag : Tag) (op : BinaryOp) (target : Branch) (rest right : List Branch)
    (kind : tag.kind = .assignOp op) :
    Exposure s ⟨tag, target :: rest, right⟩ (s.splitCompound tag target op).1
      (s.splitCompound tag target op).2
  /-- The callee of a method call stays, since nothing can alter it. -/
  | callee (tag : Tag) (callee : Branch) (rest right : List Branch) (kind : tag.kind = .call)
    (needless : callee.mustPrecede (s.takeAll rest).2.supply.constants
      (s.takeAll rest).2.effects = false) (member : callee.kind.isMember = true) :
    Exposure s ⟨tag, callee :: rest, right⟩ [⟨tag, callee :: (s.takeAll rest).1, right⟩]
      (s.takeAll rest).2
  /-- The callee of a method call is taken out. -/
  | method (tag part : Tag) (object : Branch) (keys rest right : List Branch)
    (kind : tag.kind = .call) (member : part.kind.isMember = true)
    (needed : Branch.mustPrecede (s.takeAll rest).2.supply.constants (s.takeAll rest).2.effects
      (.node part (object :: keys)) = true) :
    Exposure s ⟨tag, .node part (object :: keys) :: rest, right⟩
      [((s.takeAll rest).2.splitMethodCall tag (.node part (object :: keys)) object keys
        (s.takeAll rest).1 right).1]
      ((s.takeAll rest).2.splitMethodCall tag (.node part (object :: keys)) object keys
        (s.takeAll rest).1 right).2

theorem exposure (s : Pass) (f : Frame) : s.Exposure f (s.exposeFrame f).1 (s.exposeFrame f).2 := by
  obtain ⟨tag, left, right⟩ := f
  rw [exposeFrame]
  cases left with
  | nil => exact .first tag right
  | cons first rest =>
    cases hk : tag.kind with
    | assign => exact .target tag first rest right hk
    | assignOp op => exact .compound tag op first rest right hk
    | call =>
      have hleft := Exposure.left (s := s) tag first rest right (by simp [hk]) (by simp [hk])
      obtain ⟨part, children⟩ := first
      cases hm : part.kind.isMember with
      | false => simpa [hm, exposeLeft] using hleft
      | true =>
        cases children with
        | nil => simpa [hm, exposeLeft] using hleft fun _ _ => rfl
        | cons object keys =>
          simp only [Branch.kind_node, hm, Branch.children_node]
          by_cases hn : Branch.mustPrecede (s.takeAll rest).2.supply.constants
              (s.takeAll rest).2.effects (.node part (object :: keys))
          · rw [if_pos hn]
            exact .method tag part object keys rest right hk hm hn
          · rw [if_neg hn]
            exact .callee tag _ rest right hk (by simpa using hn) hm
    | _ => exact .left tag first rest right (by simp [hk]) (by simp [hk]) (by simp [hk])

/-- Takes out what nodes evaluate before the branch in their place, from the inside out. -/
def exposeFrames (s : Pass) : List Frame → List Frame × Pass
  | [] => ([], s)
  | f :: z =>
    let inner := s.exposeFrame f
    let outer := inner.2.exposeFrames z
    (inner.1 ++ outer.1, outer.2)

theorem exposeFrames_append (s : Pass) (z gs : List Frame) :
    s.exposeFrames (z ++ gs) = ((s.exposeFrames z).1 ++ ((s.exposeFrames z).2.exposeFrames gs).1,
      ((s.exposeFrames z).2.exposeFrames gs).2) := by
  induction z generalizing s with
  | nil => rfl
  | cons f z ih => rw [List.cons_append, exposeFrames, ih, exposeFrames, List.append_assoc]

end Pass

end Hoist
