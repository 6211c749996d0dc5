import Hoist.Layout
import Mathlib.Data.List.Forall2

namespace Hoist

/-- What can stand in a place of a program. -/
inductive Slot
  | program
  | statement
  | block
  /-- A clause of a `switch`. -/
  | clause
  | expression
  /-- The initial value of a name. -/
  | value
  /-- What a value is assigned to. -/
  | target
  /-- An entry of an object. -/
  | entry
  /-- A name that is declared, with its initial value if there is one. -/
  | declarator
  /-- The initializer of a `for` loop. -/
  | initial
  /-- The condition or the update of a `for` loop. -/
  | optional
  deriving DecidableEq

/-- Whether a node of this kind is a value where it stands alone. -/
def Kind.isOperand : Kind → Bool
  | .key _ => false
  | k => k.level?.isSome

/-- Whether a node of this kind and with so many children is a statement. -/
def Kind.isStatement : Kind → Nat → Bool
  | .var, n => n = 1
  | .block, _ | .expression, _ | .if_, _ | .return_, _ | .switch, _ | .label _, _ | .while_, _
  | .doWhile, _ | .for_, _ | .break_ _, _ | .continue_ _, _ | .throw, _ | .empty, _
  | .function _ _, _ => true
  | _, _ => false

/-- Whether an expression of this kind and with so many children can stand anywhere. A name has a
child only where it is declared. -/
def Kind.isExpression (k : Kind) (n : Nat) : Bool := k.isOperand && (k.name?.isNone || n = 0)

/-- Whether a node of a kind and with so many children can stand in a place. In a loose program a
name may stand in the place of an entry, and an entry in that of an initial value. -/
def Slot.admits (loose : Bool) : Slot → Kind → Nat → Bool
  | .program, k, _ => k = .script
  | .statement, k, n => k.isStatement n
  | .block, k, _ => k = .block
  | .clause, k, _ => k = .case_ || k = .default_
  | .expression, k, n => k.isExpression n
  | .value, .key _, _ => loose
  | .value, k, n => k.isExpression n
  | .target, k, n => k.isTarget && k.isExpression n
  | .entry, .key _, _ => true
  | .entry, k, n => loose && k.name?.isSome && n = 0
  | .declarator, k, _ => k.name?.isSome
  | .initial, k, n => k = .empty || k = .var || k.isExpression n
  | .optional, k, n => k = .empty || k.isExpression n

/-- What the children of a node of a kind are, where there are so many. -/
def Kind.parts : Kind → Nat → Option (List Slot)
  | .script, n | .block, n => some (List.replicate n .statement)
  | .var, n + 1 => some (List.replicate (n + 1) .declarator)
  | .if_, 2 => some [.expression, .block]
  | .if_, 3 => some [.expression, .block, .block]
  | .switch, n + 1 => some (.expression :: List.replicate n .clause)
  | .case_, 2 => some [.expression, .block]
  | .default_, 1 | .function _ _, 1 => some [.block]
  | .label _, 1 => some [.statement]
  | .while_, 2 => some [.expression, .block]
  | .doWhile, 2 => some [.block, .expression]
  | .for_, 4 => some [.initial, .optional, .optional, .block]
  | .expression, 1 | .return_, 1 | .throw, 1 | .key _, 1 | .property _, 1 | .unary _, 1 =>
    some [.expression]
  | .return_, 0 | .break_ _, 0 | .continue_ _, 0 | .empty, 0 | .name _, 0 | .number _, 0 | .text _, 0
  | .true_, 0 | .false_, 0 | .null, 0 | .this_, 0 => some []
  | .name _, 1 => some [.value]
  | .array, n => some (List.replicate n .expression)
  | .object, n => some (List.replicate n .entry)
  | .call, n + 1 | .new, n + 1 => some (List.replicate (n + 1) .expression)
  | .element, 2 | .and_, 2 | .or_, 2 | .binary _, 2 | .comma, 2 => some [.expression, .expression]
  | .assign, 2 | .assignOp _, 2 => some [.target, .expression]
  | .conditional, 3 => some [.expression, .expression, .expression]
  | .increment _ _, 1 => some [.target]
  | _, _ => none

/-- Where a node may stand depends on the number of its children only for names and declarations. -/
theorem Slot.admits_count {loose : Bool} {slot : Slot} {k : Kind} (hn : k.name? = none)
    (hv : k ≠ .var) (n m : Nat) : slot.admits loose k n = slot.admits loose k m := by
  cases k
  case name | var => simp_all [Kind.name?]
  all_goals cases slot <;> first | rfl | simp [Slot.admits, Kind.name?]

mutual

/-- Whether a shape can stand in a place, with all that it is made of. -/
def Shape.fits (loose : Bool) (slot : Slot) : Shape → Bool
  | .node kind _ children =>
    slot.admits loose kind children.length &&
      match kind.parts children.length with
      | some slots => Shape.fitAll loose slots children
      | none => false

/-- Whether shapes can stand in places, one in each. -/
def Shape.fitAll (loose : Bool) : List Slot → List Shape → Bool
  | slot :: slots, s :: rest => s.fits loose slot && Shape.fitAll loose slots rest
  | [], [] => true
  | _, _ => false

end

/-- A shape can stand in a place. -/
def Shape.Fits (loose : Bool) (slot : Slot) (s : Shape) : Prop := s.fits loose slot = true

variable {loose : Bool}

theorem Shape.fitAll_iff {slots : List Slot} {ss : List Shape} :
    Shape.fitAll loose slots ss = true ↔ List.Forall₂ (Shape.Fits loose) slots ss := by
  induction slots generalizing ss with
  | nil => cases ss <;> simp [Shape.fitAll]
  | cons slot slots ih =>
    cases ss with
    | nil => simp [Shape.fitAll]
    | cons s ss => rw [Shape.fitAll, Bool.and_eq_true, ih, List.forall₂_cons, Shape.Fits]

theorem Shape.fits_node {slot : Slot} {kind : Kind} {constant : Bool} {ss : List Shape} :
    (Shape.node kind constant ss).Fits loose slot ↔
      slot.admits loose kind ss.length = true ∧
        ∃ slots, kind.parts ss.length = some slots ∧ List.Forall₂ (Shape.Fits loose) slots ss := by
  rw [Shape.Fits, Shape.fits, Bool.and_eq_true]
  refine and_congr_right fun _ => ?_
  cases hp : kind.parts ss.length with
  | none => simp
  | some slots => simp [Shape.fitAll_iff]

end Hoist
