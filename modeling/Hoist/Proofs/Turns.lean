import Hoist.Proofs.ConditionalSplitting

namespace Hoist

namespace Pass

/-- The nodes around a branch are the same after a pass, or take the place of a call or of a
compound assignment. -/
theorem Exposure.tags {s r : Pass} {f : Frame} {gs : List Frame} (h : s.Exposure f gs r) :
    gs ≠ [] ∧ ∀ g ∈ gs, g.tag = f.tag ∨ g.tag.kind = .assign ∨ g.tag.kind = .call ∨
      ∃ op, g.tag.kind = .binary op := by
  cases h with
  | compound tag op target =>
    rw [splitCompound]
    dsimp only
    split <;> simp
  | method => simp [splitMethodCall]
  | _ => simp

theorem exposeFrames_tags (s : Pass) (z : List Frame) :
    ((s.exposeFrames z).1 = [] ↔ z = []) ∧ ∀ g ∈ (s.exposeFrames z).1,
      (∃ f ∈ z, g.tag = f.tag) ∨ g.tag.kind = .assign ∨ g.tag.kind = .call ∨
        ∃ op, g.tag.kind = .binary op := by
  induction z generalizing s with
  | nil => simp [exposeFrames]
  | cons f z ih =>
    have hf := (s.exposure f).tags
    have hrest := (ih (s.exposeFrame f).2).2
    simp only [exposeFrames, List.append_eq_nil_iff, iff_false, not_and, List.mem_append,
      reduceCtorEq]
    refine ⟨fun h => absurd h hf.1, fun g hg => ?_⟩
    rcases hg with hg | hg
    · exact (hf.2 g hg).imp_left fun h => ⟨f, List.mem_cons_self, h⟩
    · rcases hrest g hg with ⟨e, he, h⟩ | h
      · exact .inl ⟨e, List.mem_cons_of_mem _ he, h⟩
      · exact .inr h

theorem exposeFrames_around (s : Pass) {z : List Frame} (h : ∀ f ∈ z, f.tag.kind.isAround) :
    ∀ g ∈ (s.exposeFrames z).1, g.tag.kind.isAround := by
  intro g hg
  rcases (s.exposeFrames_tags z).2 g hg with ⟨f, hf, he⟩ | he | he | ⟨op, he⟩
  · rw [he]
    exact h f hf
  all_goals
    rw [he]
    rfl

end Pass

/-- A supply with a number of nodes. -/
def Supply.sized (s : Supply) (size : Nat) : Supply := { s with size := size }

/-- The supply after a change was reported. -/
def Supply.reported (s : Supply) : Supply := { s with changes := s.changes + 1 }

/-- A pass that has taken nothing out. -/
def Pass.begin (effects : Bool) (s : Supply) : Pass := ⟨effects, [], s⟩

/-- A pass over a statement in which something has a side effect. -/
def Pass.start (s : Supply) : Pass := ⟨true, [], s⟩

namespace Site

/-- A site after declarations were put before its statement. -/
def behind (s : Site) (ds : List Branch) : Site :=
  { s with spot := { s.spot with before := s.spot.before ++ ds } }

/-- A site with other nodes around its expression. -/
def within (s : Site) (inner : List Frame) : Site := { s with inner := inner }

theorem frames_behind (s : Site) (ds : List Branch) :
    (s.behind ds).frames = s.inner ++ s.base ++ s.spot.around ds := by
  simp [frames, behind, base, Spot.around]

end Site

/-- Whether a node keeps the branch in its place from being moved out. -/
def Frame.holdsBack (constants : List String) (f : Frame) : Bool :=
  match f.left with
  | [] => false
  | first :: _ =>
    match f.tag.kind with
    | .conditional | .and_ | .or_ => true
    | .assign => first.kind.isMember && f.left.any (Branch.isAlterable constants)
    | .assignOp _ => first.readMustPrecede constants true
    | _ => f.left.any (Branch.isAlterable constants)

/-- The `if` of a conditional that a branch stands in, and the number of nodes made by then. -/
def Frame.choosing (f : Frame) (size : Nat) (result : Option String) (b : Branch) : Branch × Nat :=
  Branch.choosing size result f.tag.span (f.tag.kind.conditionalOp?.getD .choice)
    (f.left ++ b :: f.right)

namespace Site

/-- A site after what is evaluated before its expression was taken out, where what is evaluated later
may have side effects or not. -/
def exposedFrom (s : Site) (effects : Bool) (supply : Supply) : Site × Supply :=
  let r := (Pass.begin effects supply).exposeFrames s.inner
  ((s.within r.1).behind r.2.taken, r.2.supply)

/-- A site after what is evaluated before its expression was taken out. -/
def exposed (s : Site) (supply : Supply) : Site × Supply :=
  let r := (Pass.start supply).exposeFrames s.inner
  ((s.within r.1).behind r.2.taken, r.2.supply)

theorem frames_exposedFrom (s : Site) (effects : Bool) (supply : Supply) (ds : List Branch) :
    ((s.exposedFrom effects supply).1.behind ds).frames =
      ((Pass.begin effects supply).exposeFrames s.inner).1 ++ s.base ++
        s.spot.around (((Pass.begin effects supply).exposeFrames s.inner).2.taken ++ ds) := by
  simp [exposedFrom, frames, behind, within, base, Spot.around]

theorem plug_exposedFrom (s : Site) (effects : Bool) (supply : Supply) (b : Branch) :
    plug (s.exposedFrom effects supply).1.frames b =
      plug (((Pass.begin effects supply).exposeFrames s.inner).1 ++ s.base ++
        s.spot.around ((Pass.begin effects supply).exposeFrames s.inner).2.taken) b := by
  simp [exposedFrom, frames, behind, within, base, Spot.around]

theorem frames_exposed (s : Site) (supply : Supply) (ds : List Branch) :
    ((s.exposed supply).1.behind ds).frames =
      ((Pass.start supply).exposeFrames s.inner).1 ++ s.base ++
        s.spot.around (((Pass.start supply).exposeFrames s.inner).2.taken ++ ds) :=
  s.frames_exposedFrom true supply ds

theorem plug_exposed (s : Site) (supply : Supply) (b : Branch) :
    plug (s.exposed supply).1.frames b =
      plug (((Pass.start supply).exposeFrames s.inner).1 ++ s.base ++
        s.spot.around ((Pass.start supply).exposeFrames s.inner).2.taken) b :=
  s.plug_exposedFrom true supply b

/-- A program after a conditional, with a branch as one of its operands, was decided before its
statement, where the conditional may have side effects or not. -/
def decidedFrom (s : Site) (effects : Bool) (f : Frame) (supply : Supply) (b : Branch) :
    Branch × Supply :=
  let r := s.exposedFrom effects supply
  let c := f.choosing r.2.size (some r.2.valueName) b
  (plug (r.1.behind [.made (c.2 + 1) .var f.tag.span [.madeName c.2 r.2.valueName f.tag.span],
      c.1]).frames (.madeName (c.2 + 2) r.2.valueName f.tag.span),
    r.2.afterName.sized (c.2 + 3))

/-- A program after a conditional, with a branch as one of its operands, was decided before its
statement. -/
def decided (s : Site) (f : Frame) (supply : Supply) (b : Branch) : Branch × Supply :=
  let r := s.exposed supply
  let c := f.choosing r.2.size (some r.2.valueName) b
  (plug (r.1.behind [.made (c.2 + 1) .var f.tag.span [.madeName c.2 r.2.valueName f.tag.span],
      c.1]).frames (.madeName (c.2 + 2) r.2.valueName f.tag.span),
    r.2.afterName.sized (c.2 + 3))

/-- A program after a conditional, with a branch as one of its operands, took the place of its
statement. -/
def rewritten (s : Site) (f : Frame) (supply : Supply) (b : Branch) : Branch × Supply :=
  let c := f.choosing supply.size none b
  (plug (s.labels ++ s.spot.around []) c.1, supply.afterName.sized c.2)

/-- A program after a branch was moved in front of its statement. -/
def relocated (s : Site) (supply : Supply) (x : Branch) : Branch × Supply :=
  (plug (s.behind [.declaring (supply.size + 1) supply.valueName x]).frames
      (.madeName supply.size supply.valueName x.span),
    supply.afterName.grow 3)

end Site

/-- What becomes of a program in one step of the work on a call, with what is supplied: a pass over
the statement of the call, or the move of the call itself. -/
inductive Turn (x : Branch) : (moved : Bool) → Branch → Supply → Branch → Supply → Prop
  /-- What is evaluated before the call is taken out. -/
  | expose (s : Site) (supply : Supply) (rooted : s.Rooted) (regular : ∀ f ∈ s.inner, f.Regular)
    (always : ∀ f ∈ s.inner, f.isSometimes = false) :
    Turn x false (plug s.frames x) supply (plug (s.exposed supply).1.frames x)
      (s.exposed supply).2.reported
  /-- What is evaluated before a conditional around the call is taken out, and the conditional is
  decided before the statement. -/
  | decide (s : Site) (below : List Frame) (f : Frame) (supply : Supply) (rooted : s.Rooted)
    (regular : ∀ g ∈ f :: s.inner, g.Regular) (around : ∀ g ∈ below ++ [f], g.tag.kind.isAround)
    (sometimes : f.isSometimes = true) (always : ∀ g ∈ s.inner, g.isSometimes = false)
    (needed : s.inner ≠ [] ∨ s.root.kind ≠ .expression) :
    Turn x false (plug (below ++ f :: s.frames) x) supply (s.decided f supply (plug below x)).1
      (s.decided f supply (plug below x)).2.reported
  /-- A conditional that is a whole statement becomes another statement. -/
  | rewrite (s : Site) (below : List Frame) (f : Frame) (supply : Supply) (rooted : s.Rooted)
    (regular : f.Regular) (around : ∀ g ∈ below ++ [f], g.tag.kind.isAround)
    (sometimes : f.isSometimes = true) (inner : s.inner = []) (right : s.right = [])
    (root : s.root.kind = .expression) :
    Turn x false (plug (below ++ f :: s.frames) x) supply (s.rewritten f supply (plug below x)).1
      (s.rewritten f supply (plug below x)).2.reported
  /-- The call itself is moved in front of its statement. -/
  | relocate (s : Site) (supply : Supply) (rooted : s.Rooted) (regular : ∀ f ∈ s.inner, f.Regular)
    (free : ∀ f ∈ s.inner, f.holdsBack supply.constants = false) :
    Turn x true (plug s.frames x) supply (s.relocated supply x).1 (s.relocated supply x).2.reported

end Hoist
