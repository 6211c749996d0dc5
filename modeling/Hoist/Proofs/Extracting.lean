import Hoist.Proofs.Pass

namespace Hoist

/-- Where a statement stands: the list it is in, what is before and behind it, and what is around
the list. -/
structure Spot where
  tag : Tag
  before : List Branch
  behind : List Branch
  outer : List Frame

/-- The frames around a statement before which declarations stand. -/
def Spot.around (p : Spot) (ds : List Branch) : List Frame :=
  ⟨p.tag, p.before ++ ds, p.behind⟩ :: p.outer

namespace Step

variable {s : Supply} {o : List Branch}

theorem leads_freshId :
    freshId.Leads s o (toString s.nextId) { s with nextId := s.nextId + 1 } o := by
  intro w hw
  refine ⟨{ w with nextId := w.nextId + 1 }, by rw [freshId, hw.nextId], ?_⟩
  exact ⟨hw.holds, hw.size, hw.changes, by rw [hw.nextId], hw.constants, hw.tempPrefix⟩

theorem leads_freshConstant :
    freshConstant.Leads s o s.constantName s.afterConstant o := by
  refine .bind leads_freshId ?_
  intro w hw
  refine ⟨w.addConstant s.constantName, ?_, ?_⟩
  · have hp := hw.tempPrefix
    simp only at hp
    show EStateM.Result.ok (w.tempPrefix ++ "const_" ++ toString s.nextId)
      (w.addConstant (w.tempPrefix ++ "const_" ++ toString s.nextId)) = _
    rw [hp]
    rfl
  · have hc := hw.constants
    simp only at hc
    rw [Workspace.addConstant, hc]
    split
    · rename_i h
      exact ⟨hw.holds, hw.size, hw.changes, hw.nextId, by rw [hc, Supply.afterConstant, if_pos h],
        hw.tempPrefix⟩
    · rename_i h
      exact ⟨hw.holds, hw.size, hw.changes, hw.nextId, by rw [Supply.afterConstant, if_neg h],
        hw.tempPrefix⟩

theorem leads_freshName : freshName.Leads s o s.valueName s.afterName o := by
  refine .bind leads_freshId ?_
  intro w hw
  have hp := hw.tempPrefix
  simp only at hp
  refine ⟨w, ?_, hw⟩
  show EStateM.Result.ok (w.tempPrefix ++ toString s.nextId) w = _
  rw [hp]
  rfl

/-- What a tree says of a branch that it shows. -/
theorem leads_look_of_shows {α : Type} {f : Tree → α} {a : α} {z : List Frame} {b : Branch}
    {cs : List Branch} (hb : o = plug z b :: cs) (h : ∀ t : Tree, t.Shows b → f t = a) :
    (look f).Leads s o a s o :=
  leads_look fun t ht _ => h t (hb ▸ ht).shows

theorem leads_firstChildOf {z : List Frame} {b c : Branch} {cs ds : List Branch}
    (hb : o = plug z b :: ds) (h : b.children = c :: cs) :
    (firstChildOf b.id).Leads s o c.id s o := by
  refine .bind (leads_look_of_shows (a := some c.id) hb fun t ht => ?_) leads_pure
  rw [Tree.firstChild, ht.children, h]
  rfl

/-- A branch goes in front of the declarations that stand before a statement. -/
theorem leads_insertFront (p : Spot) (d : Branch) {ds : List Branch} {b : Branch}
    {before : NodeId} (hb : (ds ++ [b]).head?.map Branch.id = some before) :
    (edit (·.insertBefore d.id before)).Leads s (plug (p.around ds) b :: d :: o) () s
      (plug (p.around (d :: ds)) b :: o) := by
  cases ds with
  | nil =>
    have hid : b.id = before := by simpa using hb
    subst hid
    have h := leads_insertBefore (s := s) (o := o) ⟨p.tag, p.before, p.behind⟩ p.outer b d
    simpa [Spot.around, Frame.fill] using h
  | cons c ds =>
    have hid : c.id = before := by simpa using hb
    subst hid
    have h := leads_insertBefore (s := s) (o := o) ⟨p.tag, p.before, ds ++ b :: p.behind⟩
      p.outer c d
    simpa [Spot.around, Frame.fill] using h

/-- Declaring puts a name in the place of a branch and its declaration in front of the declarations
that stand before the statement. -/
theorem leads_declare (name : String) {e : Branch} {f : Frame} {z : List Frame} {p : Spot}
    (ds : List Branch) {before : NodeId}
    (hb : (ds ++ [plug (f :: z) e]).head?.map Branch.id = some before) :
    (declare name e.id before).Leads s (plug (f :: z ++ p.around ds) e :: o) (s.size + 2)
      (s.grow 3)
      (plug (f :: z ++ p.around (.declaring (s.size + 1) name e :: ds))
        (.madeName s.size name e.span) :: o) := by
  refine .bind (leads_look_of_shows rfl fun t ht => ht.span) ?_
  refine .bind ((leads_make _ _).perm_right (.swap _ _ _)) ?_
  refine .bind ((leads_replace f (z ++ p.around ds) e
    (.madeName s.size name e.span)).perm_right (.swap _ _ _)) ?_
  refine .bind (leads_make _ _) ?_
  refine .bind (leads_appendChild ⟨s.size + 1, .name name, e.span, false⟩ [] e) ?_
  refine .bind (leads_makeOver .var e.span [.made (s.size + 1) (.name name) e.span [e]]) ?_
  refine .bind (a := ()) ?_ leads_pure
  have hid : (plug (f :: z) e).id = (plug (f :: z) (.madeName s.size name e.span)).id :=
    congrArg Tag.id (plug_congr_tag (b := f.fill e) rfl)
  have hb' : (ds ++ [plug (f :: z) (.madeName s.size name e.span)]).head?.map Branch.id =
      some before := by
    cases ds with
    | nil => exact (congrArg some hid).symm.trans hb
    | cons d ds => exact hb
  rw [← List.cons_append, plug_append, plug_append]
  exact (leads_insertFront p (.declaring (s.size + 1) name e) hb').perm_left (.swap _ _ _)

/-- Extracting draws a name that is assigned once and declares it. -/
theorem leads_extract {e : Branch} {f : Frame} {z : List Frame} {p : Spot} (ds : List Branch)
    {before : NodeId} (hb : (ds ++ [plug (f :: z) e]).head?.map Branch.id = some before) :
    (extract e.id before).Leads s (plug (f :: z ++ p.around ds) e :: o) (s.size + 2)
      (s.afterConstant.grow 3)
      (plug (f :: z ++ p.around (.declaring (s.size + 1) s.constantName e :: ds))
        (.madeName s.size s.constantName e.span) :: o) :=
  .bind leads_freshConstant (leads_declare _ ds hb)

end Step

/-- The statement before which a pass declares what it takes out next. -/
def Pass.cursor (s : Pass) (statement : NodeId) : NodeId := (s.taken.head?.map Branch.id).getD statement

/-- A pass as the work on the tree knows it. -/
def Pass.state (s : Pass) (statement : NodeId) : PassState := ⟨s.effects, s.cursor statement⟩

theorem Pass.head?_taken (s : Pass) {b : Branch} {statement : NodeId} (hs : b.id = statement) :
    (s.taken ++ [b]).head?.map Branch.id = some (s.cursor statement) := by
  rw [Pass.cursor, ← hs]
  cases s.taken <;> rfl

namespace Step

variable {o : List Branch}

theorem leads_mustPrecede {s : Supply} {z : List Frame} {b : Branch} {cs : List Branch}
    (effects : Bool) (hb : o = plug z b :: cs) :
    (mustPrecede effects b.id).Leads s o (b.mustPrecede s.constants effects) s o := by
  intro w hw
  refine ⟨w, ?_, hw⟩
  have ht : w.tree.Holds (plug z b :: cs) := hb ▸ hw.holds
  show EStateM.Result.ok (w.tree.mustPrecede w.constants effects b.id) w = _
  rw [Tree.mustPrecede, ht.isAlterable, ht.hasSideEffects, hw.constants]
  rfl

/-- Taking out where it is needed does what the pass says. -/
theorem leads_extractIfNeeded (s : Pass) {e : Branch} {f : Frame} {z : List Frame} {p : Spot}
    {statement : NodeId} (hs : (plug (f :: z) e).id = statement) :
    (extractIfNeeded (s.state statement) e.id).Leads s.supply
      (plug (f :: z ++ p.around s.taken) e :: o)
      ((s.takeIfNeeded e).2.state statement) (s.takeIfNeeded e).2.supply
      (plug (f :: z ++ p.around (s.takeIfNeeded e).2.taken) (s.takeIfNeeded e).1 :: o) := by
  refine .bind (leads_mustPrecede s.effects rfl) ?_
  rw [Pass.takeIfNeeded]
  cases e.mustPrecede s.supply.constants s.effects with
  | false => exact leads_pure
  | true => exact .bind (leads_extract _ (s.head?_taken hs)) leads_pure

/-- Taking out siblings does what the pass says. -/
theorem leads_extractAll (s : Pass) (tag : Tag) (es right : List Branch) {z : List Frame}
    {p : Spot} {statement : NodeId} (left : List Branch)
    (hs : ∀ b : Branch, b.id = tag.id → (plug z b).id = statement) :
    (extractAll (s.state statement) (es.map Branch.id)).Leads s.supply
      (plug (z ++ p.around s.taken) (.node tag (left ++ es ++ right)) :: o)
      ((s.takeAll es).2.state statement) (s.takeAll es).2.supply
      (plug (z ++ p.around (s.takeAll es).2.taken)
        (.node tag (left ++ (s.takeAll es).1 ++ right)) :: o) := by
  induction es generalizing left with
  | nil => exact leads_pure
  | cons e es ih =>
    have hrest := ih (left ++ [e])
    simp only [List.append_assoc, List.cons_append, List.nil_append] at hrest ⊢
    exact .bind hrest (leads_extractIfNeeded (s.takeAll es).2
      (f := ⟨tag, left, (s.takeAll es).1 ++ right⟩) (hs _ rfl))

end Step

end Hoist
