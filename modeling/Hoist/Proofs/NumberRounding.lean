import Hoist.NumberReading
import Hoist.NumberText
import Mathlib.Algebra.Ring.Nat

namespace Hoist

/-- Rounding depends on the quotient only. -/
theorem roundHalfEven_scale {k : Nat} (hk : 0 < k) (num den : Nat) :
    roundHalfEven (num * k) (den * k) = roundHalfEven num den := by
  have hlt : ∀ a b : Nat, a * k < b * k ↔ a < b := fun _ _ => Nat.mul_lt_mul_right hk
  have hdouble : ∀ a : Nat, 2 * (a * k) = 2 * a * k := fun a => (Nat.mul_assoc 2 a k).symm
  unfold roundHalfEven
  simp only [Nat.mul_div_mul_right _ _ hk, Nat.mul_mod_mul_right, hdouble, hlt]

theorem roundHalfEven_exact {num den : Nat} (hd : 0 < den) :
    roundHalfEven (num * den) den = num := by
  unfold roundHalfEven
  simp only [Nat.mul_div_cancel _ hd, Nat.mul_mod_left, Nat.mul_zero, if_pos hd]

/-- The rank nearest to a quotient of units. -/
def unitsRank (units den : Nat) : Nat :=
  let whole := units / den
  let shift := if whole < Nat.pow 2 53 then 0 else whole.log2 - 52
  shift * Nat.pow 2 52 + roundHalfEven units (den * Nat.pow 2 shift)

theorem nearestRank_eq (num den : Nat) : nearestRank num den = unitsRank (num * Nat.pow 2 1074) den :=
  rfl

/-- The nearest rank depends on the quotient only. -/
theorem unitsRank_scale {k : Nat} (hk : 0 < k) (units den : Nat) :
    unitsRank (units * k) (den * k) = unitsRank units den := by
  unfold unitsRank
  simp only [Nat.mul_div_mul_right _ _ hk]
  rw [Nat.mul_right_comm den k, roundHalfEven_scale hk]

theorem nearestRank_scale {k : Nat} (hk : 0 < k) (num den : Nat) :
    nearestRank (num * k) (den * k) = nearestRank num den := by
  rw [nearestRank_eq, nearestRank_eq, Nat.mul_right_comm, unitsRank_scale hk]

theorem nearestDecimalRank_eq (digits : Nat) (exponent : Int) :
    nearestDecimalRank digits exponent =
      nearestRank (digits * 10 ^ exponent.toNat) (10 ^ (-exponent).toNat) := by
  cases exponent with
  | ofNat e =>
    rw [show (-Int.ofNat e).toNat = 0 by simp]
    rfl
  | negSucc e =>
    rw [show (Int.negSucc e).toNat = 0 from rfl, Nat.pow_zero, Nat.mul_one]
    rfl

/-- Zeros behind the digits are as good as a larger exponent. -/
theorem nearestDecimalRank_shift (digits n : Nat) (exponent : Int) :
    nearestDecimalRank (digits * 10 ^ n) exponent = nearestDecimalRank digits (exponent + n) := by
  obtain ⟨k, hup, hdown⟩ : ∃ k, n + exponent.toNat = (exponent + n).toNat + k ∧
      (-exponent).toNat = (-(exponent + n)).toNat + k :=
    ⟨n + exponent.toNat - (exponent + n).toNat, by omega, by omega⟩
  rw [nearestDecimalRank_eq, nearestDecimalRank_eq, Nat.mul_assoc, ← Nat.pow_add, hup, hdown,
    Nat.pow_add, Nat.pow_add, ← Nat.mul_assoc, nearestRank_scale (Nat.pow_pos (by omega))]

theorem nearestDecimalRank_zero (exponent : Int) : nearestDecimalRank 0 exponent = 0 := by
  have hzero : ∀ unit den : Nat, unitsRank (0 * unit) den = 0 := by
    intro unit den
    rw [Nat.zero_mul]
    simp [unitsRank, roundHalfEven]
  rw [nearestDecimalRank_eq, Nat.zero_mul]
  exact (nearestRank_eq _ _).trans (hzero _ _)

theorem log2_mul_pow {a : Nat} (k : Nat) (hlow : 2 ^ 52 ≤ a) (hhigh : a < 2 ^ 53) :
    (a * 2 ^ k).log2 = 52 + k := by
  have hne : a * 2 ^ k ≠ 0 :=
    Nat.ne_of_gt (Nat.mul_pos (Nat.lt_of_lt_of_le (by decide) hlow) (Nat.two_pow_pos k))
  refine (Nat.log2_eq_iff hne).mpr ⟨?_, ?_⟩
  · rw [Nat.pow_add]
    exact Nat.mul_le_mul_right _ hlow
  · rw [show 52 + k + 1 = 53 + k by omega, Nat.pow_add]
    exact (Nat.mul_lt_mul_right (Nat.two_pow_pos k)).mpr hhigh

theorem split_block {q : Nat} (hq : 1 ≤ q) (block m : Nat) :
    (q - 1) * block + (block + m) = q * block + m := by
  obtain ⟨p, rfl⟩ := Nat.exists_eq_add_of_le' hq
  rw [Nat.add_sub_cancel, Nat.succ_mul, Nat.add_assoc]

/-- A rank is the nearest one to its own magnitude. -/
theorem unitsRank_rankUnits {den : Nat} (hd : 0 < den) (rank : Nat) :
    unitsRank (rankUnits rank * den) den = rank := by
  have hround : ∀ shift a : Nat, rankUnits rank = a * 2 ^ shift →
      roundHalfEven (rankUnits rank * den) (den * Nat.pow 2 shift) = a := by
    intro shift a ha
    rw [ha, Nat.mul_assoc, Nat.mul_comm (2 ^ shift)]
    exact roundHalfEven_exact (Nat.mul_pos hd (Nat.two_pow_pos _))
  unfold unitsRank
  simp only [Nat.mul_div_cancel _ hd]
  by_cases hsub : rank < 2 ^ 52
  · have hunits : rankUnits rank = rank := if_pos hsub
    have hlt : rankUnits rank < Nat.pow 2 53 := by
      rw [hunits]
      exact Nat.lt_trans hsub (by decide)
    rw [if_pos hlt, hround 0 rank (by rw [hunits, Nat.pow_zero, Nat.mul_one]), Nat.zero_mul,
      Nat.zero_add]
  · have hunits : rankUnits rank = (2 ^ 52 + rank % 2 ^ 52) * 2 ^ (rank / 2 ^ 52 - 1) := if_neg hsub
    have hmod : rank % 2 ^ 52 < 2 ^ 52 := Nat.mod_lt _ (Nat.two_pow_pos 52)
    have hdiv : rank / 2 ^ 52 * 2 ^ 52 + rank % 2 ^ 52 = rank := Nat.div_add_mod' rank (2 ^ 52)
    have hpos : 1 ≤ rank / 2 ^ 52 := by omega
    have hne : rankUnits rank ≠ 0 := by
      rw [hunits]
      exact Nat.ne_of_gt (Nat.mul_pos (by omega) (Nat.two_pow_pos _))
    have hlog : (rankUnits rank).log2 = 52 + (rank / 2 ^ 52 - 1) := by
      rw [hunits]
      exact log2_mul_pow _ (by omega) (by omega)
    have hshift : (if rankUnits rank < Nat.pow 2 53 then 0 else (rankUnits rank).log2 - 52) =
        rank / 2 ^ 52 - 1 := by
      split
      · rename_i hlt
        have hle : (rankUnits rank).log2 < 53 := (Nat.log2_lt hne).mpr hlt
        omega
      · omega
    rw [hshift, hround _ _ hunits]
    exact (split_block hpos _ _).trans hdiv

/-- Tenths are halves and fifths. -/
theorem nearestDecimalRank_fifths (num e : Nat) :
    nearestDecimalRank (num * 5 ^ e) (-(e : Int)) = nearestRank num (Nat.pow 2 e) := by
  have hten : (10 : Nat) ^ e = Nat.pow 2 e * 5 ^ e := Nat.mul_pow 2 5 e
  rw [nearestDecimalRank_eq, show (-(e : Int)).toNat = 0 by omega,
    show (-(-(e : Int))).toNat = e by omega, Nat.pow_zero, Nat.mul_one, hten,
    nearestRank_scale (Nat.pow_pos (by omega))]

/-- The exact decimal of a rank reads back as the rank. -/
theorem nearestDecimalRank_exactDecimal (rank : Nat) :
    nearestDecimalRank (exactDecimal rank).digits (exactDecimal rank).exponent = rank := by
  refine (nearestDecimalRank_fifths (rankUnits rank) 1074).trans ?_
  exact (nearestRank_eq _ _).trans (unitsRank_rankUnits (Nat.two_pow_pos _) rank)

/-- The decimal that is written for a rank reads back as the rank. -/
theorem nearestDecimalRank_shortestDecimal (rank : Nat) :
    nearestDecimalRank (shortestDecimal rank).digits (shortestDecimal rank).exponent = rank := by
  unfold shortestDecimal
  split
  · rename_i hzero
    rw [hzero]
    exact nearestDecimalRank_zero 0
  · cases hd : (List.range' 1 17).findSome? (shortestWith rank) with
    | none => exact nearestDecimalRank_exactDecimal rank
    | some d =>
      obtain ⟨places, -, hplaces⟩ := List.exists_of_findSome?_eq_some hd
      unfold shortestWith at hplaces
      obtain ⟨digits, hfound, rfl⟩ := Option.map_eq_some_iff.mp hplaces
      simpa using List.find?_some hfound

end Hoist
