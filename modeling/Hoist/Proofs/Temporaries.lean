import Mathlib.Data.List.Basic

namespace Hoist

/-- Whether a name is one of those that a prefix is kept for. -/
def isReserved (tempPrefix name : String) : Bool := tempPrefix.toList.isPrefixOf name.toList

/-- A temporary that may be assigned more than once. -/
def valueAt (tempPrefix : String) (k : Nat) : String := tempPrefix ++ toString k

/-- A temporary that is assigned once. -/
def constantAt (tempPrefix : String) (k : Nat) : String := tempPrefix ++ "const_" ++ toString k

theorem toList_toString_nat (n : Nat) : (toString n).toList = Nat.toDigits 10 n := by
  rw [Nat.toString_eq_repr, Nat.repr, String.toList_ofList]

theorem isDigit_toString {n : Nat} : ∀ c ∈ (toString n).toList, c.isDigit = true := by
  intro c hc
  rw [toList_toString_nat] at hc
  exact Nat.isDigit_of_mem_toDigits (by decide) (by decide) hc

variable {p : String} {j k n : Nat}

theorem toString_injective (h : toString j = toString k) : j = k := by
  have hdigits : Nat.toDigits 10 j = Nat.toDigits 10 k := by
    rw [← toList_toString_nat, h, toList_toString_nat]
  calc
    j = Nat.ofDigitChars 10 (Nat.toDigits 10 j) 0 := Nat.ofDigitChars_ten_toDigits.symm
    _ = Nat.ofDigitChars 10 (Nat.toDigits 10 k) 0 := by rw [hdigits]
    _ = k := Nat.ofDigitChars_ten_toDigits

theorem append_left_injective {a b : String} (h : p ++ a = p ++ b) : a = b := by
  have hlist := congrArg String.toList h
  rw [String.toList_append, String.toList_append] at hlist
  exact String.toList_inj.mp (List.append_cancel_left hlist)

theorem isReserved_append (rest : String) : isReserved p (p ++ rest) = true := by
  rw [isReserved, String.toList_append]
  exact List.isPrefixOf_iff_prefix.mpr (List.prefix_append _ _)

theorem isReserved_valueAt : isReserved p (valueAt p k) = true := isReserved_append _

theorem isReserved_constantAt : isReserved p (constantAt p k) = true := by
  rw [constantAt, String.append_assoc]
  exact isReserved_append _

theorem valueAt_injective (h : valueAt p j = valueAt p k) : j = k :=
  toString_injective (append_left_injective h)

theorem constantAt_injective (h : constantAt p j = constantAt p k) : j = k :=
  toString_injective (append_left_injective h)

/-- A number begins with a digit. -/
theorem valueAt_ne_constantAt : valueAt p j ≠ constantAt p k := by
  intro h
  rw [constantAt, String.append_assoc] at h
  have hrest := congrArg String.toList (append_left_injective h)
  rw [String.toList_append] at hrest
  have hc : 'c' ∈ (toString j).toList := by
    rw [hrest]
    exact List.mem_append_left _ (by decide)
  have hdigit := isDigit_toString 'c' hc
  cases hdigit

/-- A name that may occur while so many temporaries have been made. -/
def Known (p : String) (n : Nat) (x : String) : Prop :=
  isReserved p x = true → ∃ k < n, x = valueAt p k ∨ x = constantAt p k

theorem known_of_not_reserved {x : String} (h : isReserved p x = false) : Known p n x := fun hx => by
  rw [h] at hx
  cases hx

theorem known_valueAt (h : k < n) : Known p n (valueAt p k) := fun _ => ⟨k, h, .inl rfl⟩

theorem known_constantAt (h : k < n) : Known p n (constantAt p k) := fun _ => ⟨k, h, .inr rfl⟩

theorem Known.mono {x : String} (h : Known p j x) (hn : j ≤ n) : Known p n x := fun hx => by
  obtain ⟨k, hk, hname⟩ := h hx
  exact ⟨k, by omega, hname⟩

theorem lt_of_known_valueAt (h : Known p n (valueAt p k)) : k < n := by
  obtain ⟨j, hj, he | he⟩ := h isReserved_valueAt
  · have heq := valueAt_injective he
    omega
  · exact absurd he valueAt_ne_constantAt

theorem lt_of_known_constantAt (h : Known p n (constantAt p k)) : k < n := by
  obtain ⟨j, hj, he | he⟩ := h isReserved_constantAt
  · exact absurd he.symm valueAt_ne_constantAt
  · have heq := constantAt_injective he
    omega

end Hoist
