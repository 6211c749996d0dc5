import Hoist.Layout
import Hoist.Proofs.Naming

namespace Hoist

/-- The number that a name has behind a stem. -/
def numberAfter? (stem name : String) : Option Nat :=
  let n := Nat.ofDigitChars 10 (name.toList.drop stem.length) 0
  if name = stem ++ toString n then some n else none

/-- What stands for a name where so many temporaries were made before: the numbers of temporaries are
counted on, other names are left as they are. -/
def shiftedName (p : String) (drawn : Nat) (name : String) : String :=
  match numberAfter? p name, numberAfter? (p ++ "const_") name with
  | some n, _ => valueAt p (n + drawn)
  | none, some n => constantAt p (n + drawn)
  | none, none => name

/-- The text of a script with each statement on a line of its own. -/
def Shape.lines (s : Shape) : String :=
  String.join (s.written.children.map fun w => piecesText w.statement ++ "\n")

theorem numberAfter?_append (stem : String) (n : Nat) :
    numberAfter? stem (stem ++ toString n) = some n := by
  have hdigits : (stem ++ toString n).toList.drop stem.length = Nat.toDigits 10 n := by
    rw [String.toList_append, ← String.length_toList, List.drop_left, toList_toString_nat]
  unfold numberAfter?
  rw [hdigits, Nat.ofDigitChars_ten_toDigits]
  exact if_pos rfl

theorem eq_of_numberAfter? {stem name : String} {n : Nat} (h : numberAfter? stem name = some n) :
    name = stem ++ toString n := by
  unfold numberAfter? at h
  dsimp only at h
  split at h
  · rename_i hname
    cases h
    exact hname
  · cases h

section Names

variable {p x : String} {d k : Nat}

/-- A name is a temporary of one of two sorts, or none. -/
inductive NameForm (p : String) : String → Prop
  | value (k : Nat) : NameForm p (valueAt p k)
  | constant (k : Nat) : NameForm p (constantAt p k)
  | other {x : String} (value : ∀ k, x ≠ valueAt p k) (constant : ∀ k, x ≠ constantAt p k) :
    NameForm p x

theorem nameForm (p x : String) : NameForm p x := by
  by_cases hvalue : ∃ k, x = valueAt p k
  · obtain ⟨k, rfl⟩ := hvalue
    exact .value k
  by_cases hconstant : ∃ k, x = constantAt p k
  · obtain ⟨k, rfl⟩ := hconstant
    exact .constant k
  · exact .other (not_exists.mp hvalue) (not_exists.mp hconstant)

theorem shiftedName_valueAt (p : String) (d k : Nat) :
    shiftedName p d (valueAt p k) = valueAt p (k + d) := by
  unfold shiftedName
  rw [valueAt, numberAfter?_append]

theorem shiftedName_constantAt (p : String) (d k : Nat) :
    shiftedName p d (constantAt p k) = constantAt p (k + d) := by
  have hvalue : numberAfter? p (constantAt p k) = none := by
    cases h : numberAfter? p (constantAt p k) with
    | none => rfl
    | some n => exact absurd (eq_of_numberAfter? h).symm valueAt_ne_constantAt
  have hconstant : numberAfter? (p ++ "const_") (constantAt p k) = some k :=
    numberAfter?_append _ k
  unfold shiftedName
  rw [hvalue, hconstant]

theorem shiftedName_other (hvalue : ∀ k, x ≠ valueAt p k) (hconstant : ∀ k, x ≠ constantAt p k) :
    shiftedName p d x = x := by
  have hnone : ∀ stem, (∀ k : Nat, x ≠ stem ++ toString k) → numberAfter? stem x = none := by
    intro stem h
    cases hn : numberAfter? stem x with
    | none => rfl
    | some n => exact absurd (eq_of_numberAfter? hn) (h n)
  unfold shiftedName
  rw [hnone p hvalue, hnone _ hconstant]

theorem eq_valueAt_of_shiftedName (h : shiftedName p d x = valueAt p k) :
    ∃ j, x = valueAt p j ∧ j + d = k := by
  cases nameForm p x with
  | value j => exact ⟨j, rfl, valueAt_injective ((shiftedName_valueAt p d j).symm.trans h)⟩
  | constant j =>
    rw [shiftedName_constantAt] at h
    exact absurd h.symm valueAt_ne_constantAt
  | other hvalue hconstant =>
    rw [shiftedName_other hvalue hconstant] at h
    exact absurd h (hvalue k)

theorem eq_constantAt_of_shiftedName (h : shiftedName p d x = constantAt p k) :
    ∃ j, x = constantAt p j ∧ j + d = k := by
  cases nameForm p x with
  | value j =>
    rw [shiftedName_valueAt] at h
    exact absurd h valueAt_ne_constantAt
  | constant j => exact ⟨j, rfl, constantAt_injective ((shiftedName_constantAt p d j).symm.trans h)⟩
  | other hvalue hconstant =>
    rw [shiftedName_other hvalue hconstant] at h
    exact absurd h (hconstant k)

theorem shiftedName_injective (p : String) (d : Nat) : Function.Injective (shiftedName p d) := by
  intro x y h
  cases nameForm p x with
  | value j =>
    rw [shiftedName_valueAt] at h
    obtain ⟨k, rfl, hk⟩ := eq_valueAt_of_shiftedName h.symm
    rw [Nat.add_right_cancel hk]
  | constant j =>
    rw [shiftedName_constantAt] at h
    obtain ⟨k, rfl, hk⟩ := eq_constantAt_of_shiftedName h.symm
    rw [Nat.add_right_cancel hk]
  | other hvalue hconstant =>
    rw [shiftedName_other hvalue hconstant] at h
    cases nameForm p y with
    | value k => exact absurd (h.trans (shiftedName_valueAt p d k)) (hvalue _)
    | constant k => exact absurd (h.trans (shiftedName_constantAt p d k)) (hconstant _)
    | other hvalue' hconstant' => rwa [shiftedName_other hvalue' hconstant'] at h

/-- No temporary that was made before is taken again. -/
theorem shiftedName_ne_constantAt (h : k < d) : shiftedName p d x ≠ constantAt p k := by
  intro he
  obtain ⟨j, -, hj⟩ := eq_constantAt_of_shiftedName he
  omega

end Names

end Hoist
