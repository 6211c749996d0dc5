import Hoist.NameChar
import Hoist.Proofs.Legible
import Hoist.Proofs.Temporaries

namespace Hoist

universe u

/-- What operators make of values, and what calls make of values and variables. -/
structure Machine (Value : Type u) where
  undefined : Value
  literal : Kind → Value
  truthy : Value → Bool
  unary : UnaryOp → Value → Value
  binary : BinaryOp → Value → Value → Value
  /-- What an increment gives, and what it assigns. -/
  increment : (isDecrement isPostfix : Bool) → Value → Value × Value
  /-- What a call gives, and what it leaves in the variables. -/
  call : Value → List Value → (String → Value) → Value × (String → Value)

/-- The values of the variables, and the callees and arguments of the calls so far. -/
structure World (Value : Type u) where
  store : String → Value
  calls : List (Value × List Value)

variable {Value : Type u} (m : Machine Value) (tempPrefix : String)

namespace World

def assign (w : World Value) (x : String) (v : Value) : World Value :=
  { w with store := fun y => if y = x then v else w.store y }

@[simp] theorem assign_store (w : World Value) (x : String) (v : Value) :
    (w.assign x v).store x = v := if_pos rfl

theorem assign_store_of_ne (w : World Value) {x y : String} (h : y ≠ x) (v : Value) :
    (w.assign x v).store y = w.store y := if_neg h

/-- A target is assigned a value, where there are both. -/
def update (w : World Value) : Option String → Option Value → World Value
  | some x, some v => w.assign x v
  | _, _ => w

/-- What a call sees of the variables: not the temporaries. -/
def visible (w : World Value) : String → Value := fun x =>
  if isReserved tempPrefix x then m.undefined else w.store x

end World

/-- A call is noted and changes the variables that it sees. -/
def Machine.perform (callee : Value) (arguments : List Value) (w : World Value) :
    Value × World Value :=
  let result := m.call callee arguments (w.visible m tempPrefix)
  (result.1, ⟨fun x => if isReserved tempPrefix x then w.store x else result.2 x,
    w.calls ++ [(callee, arguments)]⟩)

/-- What is done when something runs, and the value that it gives. -/
abbrev Effect (Value : Type u) : Type u := World Value → Value × World Value

/-- One action after the other. -/
def Effect.inOrder : List (Effect Value) → World Value → List Value × World Value
  | [], w => ([], w)
  | first :: rest, w =>
    let result := first w
    let others := inOrder rest result.2
    (result.1 :: others.1, others.2)

namespace Kind

/-- Whether only the first part of a node of this kind always runs. -/
def isSelective : Kind → Bool
  | .conditional | .if_ | .and_ | .or_ => true
  | _ => false

/-- The part that runs after the first one, which is true or not. -/
def chosen {α : Type u} (kind : Kind) (isTrue : Bool) (parts : List α) : Option α :=
  match kind, isTrue with
  | .conditional, true | .if_, true | .and_, true | .or_, false => parts[0]?
  | .conditional, false | .if_, false => parts[1]?
  | _, _ => none

/-- What a node of this kind gives for the values of its parts. -/
def value (kind : Kind) (values : List Value) : Value :=
  match kind, values with
  | .number _, _ | .text _, _ | .true_, _ | .false_, _ | .null, _ => m.literal kind
  | .unary op, [a] => m.unary op a
  | .binary op, [a, b] | .assignOp op, [a, b] => m.binary op a b
  | .comma, [_, b] => b
  | .assign, [b] => b
  | .increment isDecrement isPostfix, [a] => (m.increment isDecrement isPostfix a).1
  | _, _ => m.undefined

/-- What a node of this kind assigns for the values of its parts, if it assigns. -/
def assigned (kind : Kind) (values : List Value) : Option Value :=
  match kind, values with
  | .var, [a] | .assign, [a] => some a
  | .assignOp op, [a, b] => some (m.binary op a b)
  | .increment isDecrement isPostfix, [a] => some (m.increment isDecrement isPostfix a).2
  | _, _ => none

/-- What is done when the parts of a node have run. A name without an initial value is read. -/
def conclude (kind : Kind) (target : Option String) (values : List Value) : Effect Value := fun w =>
  match kind with
  | .name x => (values.head?.getD (w.store x), w)
  | .call => m.perform tempPrefix (values.head?.getD m.undefined) values.tail w
  | _ => (kind.value m values, w.update target (kind.assigned m values))

/-- Runs a node whose first child is a name or is none. The target of a plain assignment is not
read. -/
def run (kind : Kind) (target : Option String) (parts : List (Effect Value)) : Effect Value := fun w =>
  if kind.isSelective then
    match parts with
    | [] => (m.undefined, w)
    | first :: rest =>
      let condition := first w
      match kind.chosen (m.truthy condition.1) rest with
      | some next => next condition.2
      | none => condition
  else
    let results := Effect.inOrder (if kind = .assign then parts.tail else parts) w
    kind.conclude m tempPrefix target results.1 results.2

end Kind

/-- Runs a program or a piece of one: from left to right, and of a conditional only what is decided
on. -/
def Shape.run : Shape → Effect Value
  | .node kind _ children =>
    kind.run m tempPrefix (children.head?.bind fun c => c.kind.name?) (children.map run)

/-- Whether nodes of this kind are in the programs whose runs are considered. -/
def Kind.isCore : Kind → Bool
  | .script | .block | .expression | .var | .if_ | .name _ | .number _ | .text _ | .true_ | .false_
  | .null | .call | .assign | .assignOp _ | .conditional | .and_ | .or_ | .binary _
  | .unary .not_ | .unary .negate | .unary .plus | .increment _ _ | .comma => true
  | _ => false

/-- Whether a node of this kind, if it is a name, is not one of a constant or of a temporary. -/
def Kind.isOrdinary (k : Kind) : Bool :=
  k.isCore && k.name?.all fun x => !isConstantCase x && !isReserved tempPrefix x

end Hoist
