import Hoist.Proofs.Regular

namespace Hoist

namespace Branch

/-- A value, assigned to a name where there is one, and the number of nodes made by then. -/
def resulting (size : Nat) (result : Option String) (span : Span) (value : Branch) : Branch × Nat :=
  match result with
  | none => (value, size)
  | some name => (.made (size + 1) .assign span [.madeName size name span, value], size + 2)

/-- A statement of a value. -/
def resultStatement (size : Nat) (result : Option String) (span : Span) (value : Branch) :
    Branch × Nat :=
  let expression := value.resulting size result span
  (.made expression.2 .expression span [expression.1], expression.2 + 1)

/-- The `if` of a conditional, and the number of nodes made by then. -/
def choosing (size : Nat) (result : Option String) (span : Span) :
    ConditionalOp → List Branch → Branch × Nat
  | .choice, [condition, first, second] =>
    let one := first.resultStatement (size + 2) result span
    let two := second.resultStatement one.2 result span
    (.made two.2 .if_ span [condition, .made size .block span [one.1],
      .made (size + 1) .block span [two.1]], two.2 + 1)
  | .and_, [left, right] =>
    let one := right.resultStatement (size + 2) result span
    let condition := left.resulting one.2 result span
    (.made condition.2 .if_ span [condition.1, .made size .block span [one.1]], condition.2 + 1)
  | .or_, [left, right] =>
    let one := right.resultStatement (size + 2) result span
    let condition := left.resulting one.2 result span
    (.made condition.2 .if_ span [condition.1, .made size .block span [],
      .made (size + 1) .block span [one.1]], condition.2 + 1)
  | _, operands => (.made size .block span operands, size)

end Branch

/-- How many operands a conditional has. -/
def ConditionalOp.operands : ConditionalOp → Nat
  | .choice => 3
  | .and_ | .or_ => 2

section Perm

variable (a b c d e : Branch) (o : List Branch)

theorem perm_first : (a :: b :: ([c, d, e] ++ o)).Perm (d :: b :: e :: a :: c :: o) := by
  classical
  rw [List.perm_iff_count]
  intro x
  simp only [List.count_cons, List.count_append, List.count_nil]
  omega

theorem perm_second : (a :: b :: c :: d :: o).Perm (b :: c :: d :: a :: o) := by
  classical
  rw [List.perm_iff_count]
  intro x
  simp only [List.count_cons]
  omega

theorem perm_fourth : (a :: b :: ([c, d] ++ o)).Perm (d :: b :: c :: a :: o) := by
  classical
  rw [List.perm_iff_count]
  intro x
  simp only [List.count_cons, List.count_append, List.count_nil]
  omega

theorem perm_fifth : (a :: b :: ([c, d] ++ o)).Perm (d :: a :: c :: b :: o) := by
  classical
  rw [List.perm_iff_count]
  intro x
  simp only [List.count_cons, List.count_append, List.count_nil]
  omega

theorem perm_third : (a :: b :: c :: o).Perm ([b, c, a] ++ o) := by
  classical
  rw [List.perm_iff_count]
  intro x
  simp only [List.count_cons, List.count_append, List.count_nil]
  omega

end Perm

/-- Which conditional a node of this kind is, if it is one. -/
def Kind.conditionalOp? : Kind → Option ConditionalOp
  | .conditional => some .choice
  | .and_ => some .and_
  | .or_ => some .or_
  | _ => none

namespace Step

variable {s : Supply} {o : List Branch}

theorem leads_resultExpression (result : Option String) (span : Span) (value : Branch) :
    (resultExpression result span value.id).Leads s (value :: o)
      (value.resulting s.size result span).1.id
      { s with size := (value.resulting s.size result span).2 }
      ((value.resulting s.size result span).1 :: o) := by
  cases result with
  | none => exact leads_pure
  | some name =>
    exact .bind (leads_make _ _)
      (leads_makeOver .assign span [.madeName s.size name span, value])

theorem leads_resultStatement (result : Option String) (span : Span) (value : Branch) :
    (resultStatement result span value.id).Leads s (value :: o)
      (value.resultStatement s.size result span).1.id
      { s with size := (value.resultStatement s.size result span).2 }
      ((value.resultStatement s.size result span).1 :: o) :=
  .bind (leads_resultExpression result span value)
    (leads_makeOver .expression span [(value.resulting s.size result span).1])

theorem leads_fillBlock (result : Option String) (span : Span) (block value : Branch)
    (hb : block.children = []) :
    (fillBlock result span block.id value.id).Leads s (value :: block :: o) ()
      { s with size := (value.resultStatement s.size result span).2 }
      (.node block.tag [(value.resultStatement s.size result span).1] :: o) := by
  obtain ⟨tag, cs⟩ := block
  obtain rfl : cs = [] := hb
  exact .bind (leads_resultStatement result span value)
    ((leads_prependChild tag [] (value.resultStatement s.size result span).1).perm_left
      (.swap _ _ _))

/-- The blocks and the condition of an `if` are made of the operands of a conditional. -/
theorem leads_choosing {α : Type} {k : NodeId → Step α} {a : α} {s' : Supply} {o' : List Branch}
    (n : NodeId) {op : ConditionalOp} {operands : List Branch} (result : Option String)
    (span : Span) (h : operands.length = op.operands)
    (hk : (k (Branch.choosing s.size result span op operands).1.id).Leads
      { s with size := (Branch.choosing s.size result span op operands).2 }
      ((Branch.choosing s.size result span op operands).1 :: o) a s' o') :
    (do
      let thenBlock ← make .block span
      let elseBlock ← make .block span
      let condition ← placeOperands n op (operands.map Branch.id) result span thenBlock elseBlock
      let hasElse ← look (·.hasChildren elseBlock)
      let statement ← makeOver .if_ span
        (if hasElse then [condition, thenBlock, elseBlock] else [condition, thenBlock])
      k statement).Leads s (operands ++ o) a s' o' := by
  refine .bind (leads_make _ _) (.bind (leads_make _ _) ?_)
  let thenBlock : Tag := ⟨s.size, .block, span, false⟩
  let elseBlock : Tag := ⟨s.size + 1, .block, span, false⟩
  cases op with
  | choice =>
    obtain ⟨condition, first, second, rfl⟩ : ∃ a b c, operands = [a, b, c] :=
      List.length_eq_three.mp h
    let one := first.resultStatement (s.size + 2) result span
    let two := second.resultStatement one.2 result span
    have hfirst := leads_fillBlock (s := s.grow 2) result span (.node thenBlock []) first rfl
      (o := second :: .node elseBlock [] :: condition :: o)
    have hsecond := leads_fillBlock (s := { s with size := one.2 }) result span
      (.node elseBlock []) second rfl (o := condition :: .node thenBlock [one.1] :: o)
    refine .bind (.bind (hfirst.perm_left (perm_first _ _ _ _ _ _))
      (.bind (hsecond.perm_left (perm_second _ _ _ _ _)) leads_pure)) ?_
    refine .bind (leads_look_of_shows (a := true) (b := .node elseBlock [two.1]) (z := []) rfl
      fun t ht => ht.hasChildren) ?_
    exact .bind ((leads_makeOver .if_ span [condition, .node thenBlock [one.1], .node elseBlock
      [two.1]]).perm_left (perm_third _ _ _ _)) hk
  | and_ =>
    obtain ⟨left, right, rfl⟩ : ∃ a b, operands = [a, b] := List.length_eq_two.mp h
    let one := right.resultStatement (s.size + 2) result span
    have hright := leads_fillBlock (s := s.grow 2) result span (.node thenBlock []) right rfl
      (o := left :: .node elseBlock [] :: o)
    have hleft := leads_resultExpression (s := { s with size := one.2 }) result span left
      (o := .node thenBlock [one.1] :: .node elseBlock [] :: o)
    refine .bind (.bind (hright.perm_left (perm_fourth _ _ _ _ _))
      (hleft.perm_left (.swap _ _ _))) ?_
    refine .bind ((leads_look_of_shows (a := false) (b := .node elseBlock []) (z := []) rfl
      fun t ht => ht.hasChildren).perm_left (perm_third _ _ _ _).symm) ?_
    exact .bind ((leads_makeOver .if_ span [(left.resulting one.2 result span).1, .node
      thenBlock [one.1]]).forget) hk
  | or_ =>
    obtain ⟨left, right, rfl⟩ : ∃ a b, operands = [a, b] := List.length_eq_two.mp h
    let one := right.resultStatement (s.size + 2) result span
    have hright := leads_fillBlock (s := s.grow 2) result span (.node elseBlock []) right rfl
      (o := left :: .node thenBlock [] :: o)
    have hleft := leads_resultExpression (s := { s with size := one.2 }) result span left
      (o := .node elseBlock [one.1] :: .node thenBlock [] :: o)
    refine .bind (.bind (hright.perm_left (perm_fifth _ _ _ _ _))
      (hleft.perm_left (.swap _ _ _))) ?_
    refine .bind ((leads_look_of_shows (a := true) (b := .node elseBlock [one.1]) (z := []) rfl
      fun t ht => ht.hasChildren).perm_left (.swap _ _ _)) ?_
    exact .bind ((leads_makeOver .if_ span [(left.resulting one.2 result span).1, .node thenBlock
      [], .node elseBlock [one.1]]).perm_left (perm_third _ _ _ _)) hk

/-- The kind of a conditional tells what it is. -/
theorem role_of_conditionalOp {t : Tree} {n : NodeId} {op : ConditionalOp}
    (h : (t.kind n).conditionalOp? = some op) : t.role n = .conditional op := by
  rw [Tree.role]
  cases hk : t.kind n <;> rw [hk] at h <;> cases h <;> rfl

theorem leads_parentOf {f : Frame} {z : List Frame} {b : Branch} :
    (parentOf b.id).Leads s (plug (f :: z) b :: o) f.tag.id s (plug (f :: z) b :: o) :=
  .bind (leads_look fun _ ht _ => ht.parent_eq) leads_pure

/-- A conditional whose value is needed becomes a declaration of a name and an `if`, in front of the
statement and behind what stands there already. The name takes its place. -/
theorem leads_splitConditional_value {tag : Tag} {op : ConditionalOp} {operands : List Branch}
    {z : List Frame} {p : Spot} (ds : List Branch) (before : NodeId)
    (hop : tag.kind.conditionalOp? = some op) (hl : operands.length = op.operands) (hf : z ≠ [])
    (hb : ∀ b : Branch, (plug z b).id = before) :
    (splitConditional tag.id before true).Leads s
      (plug (z ++ p.around ds) (.node tag operands) :: o)
      (Branch.choosing s.size (some s.valueName) tag.span op operands).1.id
      { s.afterName with
        size := (Branch.choosing s.size (some s.valueName) tag.span op operands).2 + 3 }
      (plug (z ++ p.around (ds ++
          [.made ((Branch.choosing s.size (some s.valueName) tag.span op operands).2 + 1) .var
            tag.span [.madeName (Branch.choosing s.size (some s.valueName) tag.span op operands).2
              s.valueName tag.span],
          (Branch.choosing s.size (some s.valueName) tag.span op operands).1]))
        (.madeName ((Branch.choosing s.size (some s.valueName) tag.span op operands).2 + 2)
          s.valueName tag.span) :: o) := by
  obtain ⟨f, z, rfl⟩ := List.exists_cons_of_ne_nil hf
  refine .bind (leads_parentOf (b := .node tag operands)) (leads_look_bind fun t ht _ => ?_)
  have hk : t.kind tag.id = tag.kind := ht.shows.kind
  rw [role_of_conditionalOp (hk ▸ hop)]
  refine leads_look_bind fun t ht _ => ?_
  rw [if_neg (by simp)]
  refine .bind leads_freshName ?_
  refine .bind (leads_look_of_shows rfl fun t ht => ht.span) ?_
  refine .bind (leads_look_of_shows rfl fun t ht => ht.children) ?_
  refine .bind (leads_detachChildren (f :: z ++ p.around ds) tag operands) ?_
  refine (leads_choosing tag.id (some s.valueName) tag.span hl ?_).perm_left
    List.perm_middle.symm
  let c := Branch.choosing s.size (some s.valueName) tag.span op operands
  let place := plug (f :: z) (.node tag [])
  let declaration := Branch.made (c.2 + 1) .var tag.span [.madeName c.2 s.valueName tag.span]
  have hplace : place.id = before := hb _
  have hinsert := leads_insertBefore (s := { s.afterName with size := c.2 + 2 })
    (o := c.1 :: o) ⟨p.tag, p.before ++ ds, p.behind⟩ p.outer place declaration
  rw [hplace] at hinsert
  have hsplit : plug (f :: z ++ p.around ds) (.node tag []) =
      plug (⟨p.tag, p.before ++ ds, p.behind⟩ :: p.outer) place := plug_append _ _ _
  rw [hsplit]
  refine .bind (leads_make _ _) ?_
  refine .bind (leads_makeOver .var tag.span [.madeName c.2 s.valueName tag.span]) ?_
  refine .bind (hinsert.perm_left (perm_third _ _ _ _).symm) ?_
  refine .bind (leads_insertAfter ⟨p.tag, p.before ++ ds, place :: p.behind⟩ p.outer declaration
    c.1) ?_
  have hjoin : plug (⟨p.tag, p.before ++ ds ++ [declaration], place :: p.behind⟩ :: p.outer) c.1 =
      plug (f :: z ++ p.around (ds ++ [declaration, c.1])) (.node tag []) := by
    rw [plug_append]
    simp [Spot.around, Frame.fill, place]
  rw [hjoin]
  refine .bind (leads_make _ _) ?_
  refine .bind ((leads_replace f (z ++ p.around (ds ++ [declaration, c.1])) (.node tag [])
    (.madeName (c.2 + 2) s.valueName tag.span)).perm_left (.swap _ _ _)) ?_
  exact leads_pure.forget.perm_left (.swap _ _ _)

/-- A conditional that is a whole statement is replaced by an `if`. -/
theorem leads_splitConditional_statement {tag root : Tag} {op : ConditionalOp}
    {operands : List Branch} {z : List Frame} (before : NodeId) (hr : root.kind = .expression)
    (hop : tag.kind.conditionalOp? = some op) (hl : operands.length = op.operands) (hf : z ≠ []) :
    (splitConditional tag.id before false).Leads s
      (plug z (.node root [.node tag operands]) :: o)
      (Branch.choosing s.size none tag.span op operands).1.id
      { s.afterName with size := (Branch.choosing s.size none tag.span op operands).2 }
      (plug z (Branch.choosing s.size none tag.span op operands).1 :: o) := by
  obtain ⟨g, gs, rfl⟩ := List.exists_cons_of_ne_nil hf
  have hwhole : plug (g :: gs) (.node root [.node tag operands]) =
      plug (⟨root, [], []⟩ :: g :: gs) (.node tag operands) := rfl
  rw [hwhole]
  refine .bind (leads_parentOf (b := .node tag operands)) (leads_look_bind fun t ht _ => ?_)
  have hk : t.kind tag.id = tag.kind := ht.shows.kind
  rw [role_of_conditionalOp (hk ▸ hop)]
  refine leads_look_bind fun t ht _ => ?_
  have hrk : t.kind root.id = root.kind := ht.kind_frame
  rw [if_neg (by simp [hrk, hr])]
  refine .bind leads_freshName ?_
  refine .bind (leads_look_of_shows rfl fun t ht => ht.span) ?_
  refine .bind (leads_look_of_shows rfl fun t ht => ht.children) ?_
  refine .bind (leads_detachChildren (⟨root, [], []⟩ :: g :: gs) tag operands) ?_
  refine (leads_choosing tag.id none tag.span hl ?_).perm_left List.perm_middle.symm
  refine .bind ((leads_replace g gs (.node root [.node tag []]) _).perm_left (.swap _ _ _)) ?_
  exact leads_pure.forget.perm_left (.swap _ _ _)

end Step

end Hoist
