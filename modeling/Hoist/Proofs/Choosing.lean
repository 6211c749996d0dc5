import Hoist.Proofs.Preparing
import Hoist.Proofs.ConditionalSplitting

namespace Hoist

universe u

variable {Value : Type u} {m : Machine Value} {p : String} {n : Nat}

/-- Statements run one after the other. -/
theorem run_list {tag : Tag} (h : tag.kind.isStatementList = true) (cs : List Branch)
    (w : World Value) : (Branch.node tag cs).run m p w = (m.undefined, runAll m p cs w) := by
  rw [run_node, runAll]
  cases hk : tag.kind with
  | script | block =>
    cases firstName cs <;> rfl
  | _ => rw [hk] at h; cases h

theorem run_expression {tag : Tag} (h : tag.kind = .expression) (b : Branch) (w : World Value) :
    (Branch.node tag [b]).run m p w = (m.undefined, (b.run m p w).2) := by
  rw [run_node, h]
  cases firstName [b] <;> rfl

/-- A conditional runs its first child and what is chosen then. -/
theorem run_selective {tag : Tag} (h : tag.kind.isSelective = true) (first : Branch)
    (rest : List Branch) (w : World Value) : (Branch.node tag (first :: rest)).run m p w =
      match tag.kind.chosen (m.truthy (first.run m p w).1) (rest.map (Branch.run m p)) with
      | some next => next (first.run m p w).2
      | none => first.run m p w := by
  rw [run_node]
  unfold Kind.run
  rw [if_pos h]
  rfl

section Resulting

variable {size : Nat} {result : Option String} {span : Span}

theorem run_resulting (b : Branch) (w : World Value) :
    (b.resulting size result span).1.run m p w =
      ((b.run m p w).1, (b.run m p w).2.update result (some (b.run m p w).1)) := by
  cases result with
  | none => rfl
  | some x =>
    rw [Branch.resulting, Branch.made, run_node]
    exact Kind.run_assign_name x _ _ w

theorem runAll_resultStatement (b : Branch) (w : World Value) :
    runAll m p [(b.resultStatement size result span).1] w =
      (b.run m p w).2.update result (some (b.run m p w).1) := by
  rw [runAll_cons, Branch.resultStatement, Branch.made, run_expression rfl, run_resulting]
  rfl

theorem run_block {id : NodeId} (ds : List Branch) (w : World Value) :
    (Branch.made id .block span ds).run m p w = (m.undefined, runAll m p ds w) :=
  run_list rfl ds w

end Resulting

/-- A result is in a world when the value is, under the name for it if there is one. -/
structure Resulted (p : String) (n : Nat) (result : Option String) (r : Value × World Value)
    (w : World Value) : Prop where
  world : Agree p n r.2 w
  value : ∀ x, result = some x → w.store x = r.1

theorem resulted_update {result : Option String} {r r' : Value × World Value}
    (h : Alike p n r r') (hx : ∀ x, result = some x → ¬ Known p n x) :
    Resulted p n result r (r'.2.update result (some r'.1)) := by
  cases result with
  | none => exact ⟨h.world, fun _ hx => by cases hx⟩
  | some x =>
    refine ⟨h.world.assign_right (hx x rfl) _, fun y hy => ?_⟩
    obtain rfl := Option.some.inj hy
    rw [World.update, World.assign_store, h.value]

/-- The `if` of a conditional does what the conditional does. -/
theorem resulted_choosing {tag : Tag} {op : ConditionalOp} {operands : List Branch} {size : Nat}
    {result : Option String} {span : Span} {w w' : World Value}
    (hop : tag.kind.conditionalOp? = some op) (hlen : operands.length = op.operands)
    (ho : ∀ b ∈ operands, b.Tame p n) (hx : ∀ x, result = some x → ¬ Known p n x)
    (hw : Agree p n w w') :
    Resulted p n result ((Branch.node tag operands).run m p w)
      ((Branch.choosing size result span op operands).1.run m p w').2 := by
  have hs : tag.kind.isSelective = true := by
    cases hk : tag.kind <;> rw [hk] at hop <;> first | rfl | cases hop
  cases op with
  | choice =>
    obtain ⟨condition, first, second, rfl⟩ := List.length_eq_three.mp hlen
    have hkind : tag.kind = .conditional := by
      cases hk : tag.kind <;> rw [hk] at hop <;> first | rfl | cases hop
    have hcondition := (ho condition (by simp)).runs_alike (m := m) w w' hw
    have hfirst := (ho first (by simp)).runs_alike (m := m) _ _ hcondition.world
    have hsecond := (ho second (by simp)).runs_alike (m := m) _ _ hcondition.world
    rw [run_selective hs, Branch.choosing, Branch.made, run_selective rfl, hkind, hcondition.value]
    cases m.truthy (condition.run m p w').1 with
    | true =>
      simp only [Kind.chosen, List.map_cons, List.getElem?_cons_zero, run_block,
        runAll_resultStatement]
      exact resulted_update hfirst hx
    | false =>
      simp only [Kind.chosen, List.map_cons, List.getElem?_cons_zero, List.getElem?_cons_succ,
        run_block, runAll_resultStatement]
      exact resulted_update hsecond hx
  | and_ =>
    obtain ⟨left, right, rfl⟩ := List.length_eq_two.mp hlen
    have hkind : tag.kind = .and_ := by
      cases hk : tag.kind <;> rw [hk] at hop <;> first | rfl | cases hop
    have hleft := (ho left (by simp)).runs_alike (m := m) w w' hw
    have hkept := resulted_update (n := n) hleft hx
    have hright := (ho right (by simp)).runs_alike (m := m) _ _ hkept.world
    rw [run_selective hs, Branch.choosing, Branch.made, run_selective rfl, hkind, run_resulting,
      hleft.value]
    cases m.truthy (left.run m p w').1 with
    | true =>
      simp only [Kind.chosen, List.map_cons, List.getElem?_cons_zero, run_block,
        runAll_resultStatement]
      exact resulted_update hright hx
    | false =>
      simp only [Kind.chosen, List.map_cons, List.map_nil, List.getElem?_cons_succ,
        List.getElem?_nil]
      exact hkept
  | or_ =>
    obtain ⟨left, right, rfl⟩ := List.length_eq_two.mp hlen
    have hkind : tag.kind = .or_ := by
      cases hk : tag.kind <;> rw [hk] at hop <;> first | rfl | cases hop
    have hleft := (ho left (by simp)).runs_alike (m := m) w w' hw
    have hkept := resulted_update (n := n) hleft hx
    have hright := (ho right (by simp)).runs_alike (m := m) _ _ hkept.world
    rw [run_selective hs, Branch.choosing, Branch.made, run_selective rfl, hkind, run_resulting,
      hleft.value]
    cases m.truthy (left.run m p w').1 with
    | true =>
      simp only [Kind.chosen, List.map_cons, List.getElem?_cons_zero, run_block]
      exact hkept
    | false =>
      simp only [Kind.chosen, List.map_cons, List.getElem?_cons_zero, List.getElem?_cons_succ,
        run_block, runAll_resultStatement]
      exact resulted_update hright hx

end Hoist
