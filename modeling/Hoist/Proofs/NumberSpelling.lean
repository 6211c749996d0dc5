import Hoist.Proofs.NumberRounding

namespace Hoist

theorem ofDigits_eq (cs : List Char) : ofDigits cs = Nat.ofDigitChars 10 cs 0 := by
  have h : (fun (n : Nat) (c : Char) => n * 10 + (c.toNat - 48)) =
      fun n c => 10 * n + (c.toNat - '0'.toNat) := by
    funext n c
    rw [Nat.mul_comm]
    rfl
  rw [ofDigits, Nat.ofDigitChars_eq_foldl, h]

theorem ofDigits_zeros_append (n : Nat) (cs : List Char) :
    ofDigits (List.replicate n '0' ++ cs) = ofDigits cs := by
  rw [ofDigits_eq, ofDigits_eq, Nat.ofDigitChars_append, Nat.ofDigitChars_replicate_zero,
    Nat.mul_zero]

theorem ofDigits_append_zeros (cs : List Char) (n : Nat) :
    ofDigits (cs ++ List.replicate n '0') = ofDigits cs * 10 ^ n := by
  rw [ofDigits_eq, ofDigits_eq, Nat.ofDigitChars_append, Nat.ofDigitChars_replicate_zero,
    Nat.mul_comm]

theorem ofDigits_decimalDigits (n : Nat) : ofDigits (decimalDigits n) = n := by
  rw [ofDigits_eq, decimalDigits, Nat.ofDigitChars_ten_toDigits]

/-- Only zeros are stripped. -/
theorem stripZeros_append (cs : List Char) :
    ∃ n, cs = stripZeros cs ++ List.replicate n '0' := by
  refine ⟨(cs.reverse.takeWhile (· = '0')).length, ?_⟩
  have hsplit := List.takeWhile_append_dropWhile (p := (· = '0')) (l := cs.reverse)
  have hreverse := congrArg List.reverse hsplit
  rw [List.reverse_append, List.reverse_reverse] at hreverse
  refine hreverse.symm.trans (congrArg (stripZeros cs ++ ·) ?_)
  refine List.eq_replicate_iff.mpr ⟨List.length_reverse, fun c hc => ?_⟩
  simpa using List.all_eq_true.mp List.all_takeWhile c (List.mem_reverse.mp hc)

namespace PlacedDigits

/-- The digits around the point have the value of the digits at their places. -/
theorem nearestDecimalRank_places (p : PlacedDigits) :
    nearestDecimalRank (ofDigits (p.whole ++ p.fraction)) (-(p.fraction.length : Int)) =
      nearestDecimalRank (ofDigits p.digits) (p.places - p.digits.length) := by
  unfold whole fraction
  by_cases hp : p.places ≤ 0
  · rw [if_pos hp, if_pos hp, ← List.append_assoc]
    have hzeros : ['0'] ++ List.replicate (-p.places).toNat '0' =
        List.replicate ((-p.places).toNat + 1) '0' := rfl
    rw [hzeros, ofDigits_zeros_append, List.length_append, List.length_replicate]
    congr 1
    omega
  · rw [if_neg hp, if_neg hp]
    by_cases hlen : p.digits.length ≤ p.places.toNat
    · rw [List.take_of_length_le hlen, List.drop_of_length_le hlen, List.append_nil,
        ofDigits_append_zeros, nearestDecimalRank_shift]
      congr 1
      simp only [List.length_nil]
      omega
    · rw [Nat.sub_eq_zero_of_le (by omega), List.replicate_zero, List.append_nil,
        List.take_append_drop, List.length_drop]
      congr 1
      omega

theorem whole_ne_nil {p : PlacedDigits} (h : p.digits ≠ []) : p.whole ≠ [] := by
  unfold whole
  split
  · exact List.cons_ne_nil _ _
  · intro hnil
    obtain ⟨htake, -⟩ := List.append_eq_nil_iff.mp hnil
    rcases List.take_eq_nil_iff.mp htake with hzero | hdigits
    · omega
    · exact h hdigits

theorem isDigit_whole {p : PlacedDigits} (h : ∀ c ∈ p.digits, c.isDigit) :
    ∀ c ∈ p.whole, c.isDigit := by
  intro c hc
  unfold whole at hc
  split at hc
  · obtain rfl := List.mem_singleton.mp hc
    rfl
  · rcases List.mem_append.mp hc with hc | hc
    · exact h c (List.mem_of_mem_take hc)
    · obtain rfl := List.eq_of_mem_replicate hc
      rfl

theorem isDigit_fraction {p : PlacedDigits} (h : ∀ c ∈ p.digits, c.isDigit) :
    ∀ c ∈ p.fraction, c.isDigit := by
  intro c hc
  unfold fraction at hc
  split at hc
  · rcases List.mem_append.mp hc with hc | hc
    · obtain rfl := List.eq_of_mem_replicate hc
      rfl
    · exact h c hc
  · exact h c (List.mem_of_mem_drop hc)

end PlacedDigits

theorem Decimal.isDigit_placed (d : Decimal) : ∀ c ∈ d.placed.digits, c.isDigit := by
  intro c hc
  unfold placed at hc
  split at hc
  · obtain rfl := List.mem_singleton.mp hc
    rfl
  · have hmem : c ∈ decimalDigits d.digits := by
      obtain ⟨n, hn⟩ := stripZeros_append (decimalDigits d.digits)
      rw [hn]
      exact List.mem_append_left _ hc
    exact Nat.isDigit_of_mem_toDigits (by decide) (by decide) hmem

theorem Decimal.placed_ne_nil (d : Decimal) : d.placed.digits ≠ [] := by
  unfold placed
  split
  · exact List.cons_ne_nil _ _
  · rename_i hne
    intro hnil
    obtain ⟨n, hn⟩ := stripZeros_append (decimalDigits d.digits)
    rw [show stripZeros (decimalDigits d.digits) = [] from hnil, List.nil_append] at hn
    have hvalue := ofDigits_decimalDigits d.digits
    rw [hn, ← List.append_nil (List.replicate n '0'), ofDigits_zeros_append] at hvalue
    exact hne hvalue.symm

/-- Placing the digits of a decimal keeps its value. -/
theorem Decimal.nearestDecimalRank_placed (d : Decimal) :
    nearestDecimalRank (ofDigits d.placed.digits) (d.placed.places - d.placed.digits.length) =
      nearestDecimalRank d.digits d.exponent := by
  unfold placed
  split
  · rename_i hzero
    rw [hzero, nearestDecimalRank_zero]
    exact nearestDecimalRank_zero _
  · obtain ⟨n, hn⟩ := stripZeros_append (decimalDigits d.digits)
    have hvalue := ofDigits_decimalDigits d.digits
    rw [hn, ofDigits_append_zeros] at hvalue
    have hlen := congrArg List.length hn
    rw [List.length_append, List.length_replicate] at hlen
    have hshift := nearestDecimalRank_shift (ofDigits (stripZeros (decimalDigits d.digits))) n
      d.exponent
    rw [hvalue] at hshift
    rw [hshift]
    dsimp only
    congr 1
    omega

/-- What is written around the point of a number reads back as the number. -/
theorem ofPlaces_shortestDecimal (rank : Fin finiteRanks) :
    Binary64.ofPlaces (shortestDecimal rank).placed.whole (shortestDecimal rank).placed.fraction =
      .finite false rank := by
  have hrank : nearestDecimalRank (ofDigits ((shortestDecimal rank).placed.whole ++
      (shortestDecimal rank).placed.fraction))
      (-((shortestDecimal rank).placed.fraction.length : Int)) = rank := by
    rw [PlacedDigits.nearestDecimalRank_places, Decimal.nearestDecimalRank_placed,
      nearestDecimalRank_shortestDecimal]
  rw [Binary64.ofPlaces, Binary64.ofDecimal, hrank, Binary64.ofRank, dif_pos rank.isLt]

end Hoist
