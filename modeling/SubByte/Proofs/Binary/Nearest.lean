/-
# Nearest — rounding follows the order and stays close

The index found for a quotient is a coefficient with the spacing in front of it, and the
units of that index are the coefficient as many times as the spacing says, also where it
has carried into the next exponent field (`unitsOf_spaced`, `unitsOf_nearestIndex`).

From this come the two laws that everything about rounded values rests on.  A larger
quotient has no smaller index (`nearestIndex_le_of_num_le`): within one spacing because whole
numbers are rounded in order, and across two because the smaller coefficient ends where
the larger one begins.  And the units are off by half a spacing at most, which is half a
unit where the fractions are whole units and else one part in `2 ^ (fractionBits + 1)`
of the quotient (`two_mul_units_le`).
-/
import Mathlib.Data.Nat.Log
import SubByte.Proofs.Binary.Order

namespace SubByte

/-! ## The whole number -/

theorem nearestEven_le {num num' den : Nat} (hden : 0 < den) (h : num ≤ num') :
    nearestEven num den ≤ nearestEven num' den := by
  rcases Nat.eq_or_lt_of_le h with rfl | hlt
  · exact Nat.le_refl _
  refine Nat.le_of_not_lt fun hreverse => ?_
  -- Both would lie half way between the same two numbers.
  have hbelow := two_mul_nearestEven_le num den
  have habove := two_mul_le_nearestEven num' hden
  have hstep : (nearestEven num' den + 1) * den ≤ nearestEven num den * den :=
    Nat.mul_le_mul_right den hreverse
  rw [Nat.succ_mul] at hstep
  omega

theorem nearestEven_le_of_le {num den n : Nat} (hden : 0 < den) (h : num ≤ n * den) :
    nearestEven num den ≤ n := by
  have hle := nearestEven_le hden h
  rwa [nearestEven_mul n hden] at hle

theorem le_nearestEven_of_le {num den n : Nat} (hden : 0 < den) (h : n * den ≤ num) :
    n ≤ nearestEven num den := by
  have hle := nearestEven_le hden h
  rwa [nearestEven_mul n hden] at hle

theorem nearestEven_eq_zero_iff {num den : Nat} (hden : 0 < den) :
    nearestEven num den = 0 ↔ 2 * num ≤ den := by
  have hbelow := two_mul_le_nearestEven num hden
  constructor
  · intro hzero
    rwa [hzero, Nat.zero_mul, Nat.mul_zero, Nat.zero_add] at hbelow
  · intro hle
    have hlt : num < den := by omega
    rw [nearestEven, Nat.div_eq_of_lt hlt, Nat.mod_eq_of_lt hlt]
    exact if_pos (by omega)

namespace Format

variable (F : Format)

/-! ## Coefficients -/

/-- The spacing of the magnitudes around a quotient, as a power of two. -/
def spacingOf (num den : Nat) : Nat :=
  (num / den).log2 - F.fractionBits

/-- The whole number of spacings nearest to a quotient. -/
def coefficientOf (num den : Nat) : Nat :=
  nearestEven num (den * 2 ^ F.spacingOf num den)

theorem nearestIndex_eq (num den : Nat) :
    F.nearestIndex num den =
      F.spacingOf num den * 2 ^ F.fractionBits + F.coefficientOf num den := by
  rw [nearestIndex, coefficientOf, spacingOf, Nat.shiftLeft_eq, Nat.shiftLeft_eq]

/-- A coefficient of the width of a fraction and its hidden bit, with the spacing in front,
has as many units as the spacing says; one past the width carries into the next field. -/
theorem unitsOf_spaced {spacing coefficient : Nat} (hle : coefficient ≤ 2 * 2 ^ F.fractionBits)
    (hfull : spacing = 0 ∨ 2 ^ F.fractionBits ≤ coefficient) :
    F.unitsOf (spacing * 2 ^ F.fractionBits + coefficient) = coefficient * 2 ^ spacing := by
  have hpos := Nat.two_pow_pos F.fractionBits
  rw [Nat.mul_comm spacing]
  by_cases hhidden : coefficient < 2 ^ F.fractionBits
  · -- No hidden bit: a magnitude below the first full field.
    have hzero : spacing = 0 := hfull.resolve_right (Nat.not_le.mpr hhidden)
    subst hzero
    rw [unitsOf_fields F 0 hhidden, if_pos rfl, Nat.pow_zero, Nat.mul_one]
  · have hhidden := Nat.not_lt.mp hhidden
    rcases Nat.lt_or_eq_of_le hle with hlt | hcarry
    · have hindex : 2 ^ F.fractionBits * spacing + coefficient =
          2 ^ F.fractionBits * (spacing + 1) + (coefficient - 2 ^ F.fractionBits) := by
        rw [Nat.mul_succ]
        omega
      rw [hindex, unitsOf_fields F (spacing + 1) (by omega), if_neg (Nat.succ_ne_zero _),
        Nat.add_sub_cancel, Nat.add_sub_cancel' hhidden]
    · have hindex : 2 ^ F.fractionBits * spacing + coefficient =
          2 ^ F.fractionBits * (spacing + 2) + 0 := by
        rw [hcarry, Nat.mul_add, Nat.mul_comm 2]
        rfl
      rw [hindex, unitsOf_fields F (spacing + 2) hpos, if_neg (Nat.succ_ne_zero _), hcarry,
        Nat.add_zero, Nat.add_sub_assoc (by decide), Nat.pow_succ, Nat.mul_comm (2 ^ spacing),
        ← Nat.mul_assoc, Nat.mul_comm 2]

/-- Every short coefficient is found among the magnitudes, whatever the power of two. -/
theorem exists_unitsOf_eq {coefficient : Nat} (hle : coefficient ≤ 2 * 2 ^ F.fractionBits) :
    ∀ spacing, ∃ index, F.unitsOf index = coefficient * 2 ^ spacing := by
  intro spacing
  induction spacing generalizing coefficient with
  | zero => exact ⟨_, F.unitsOf_spaced hle (.inl rfl)⟩
  | succ spacing ih =>
      by_cases hhidden : 2 ^ F.fractionBits ≤ coefficient
      · exact ⟨_, F.unitsOf_spaced hle (.inr hhidden)⟩
      · -- A coefficient without hidden bit takes one more doubling.
        obtain ⟨index, hindex⟩ := ih (show coefficient * 2 ≤ _ by omega)
        exact ⟨index, by rw [hindex, Nat.pow_succ', Nat.mul_assoc]⟩

section Quotient

variable {num den : Nat}

theorem quotient_lt (hden : 0 < den) :
    num < 2 * 2 ^ F.fractionBits * (den * 2 ^ F.spacingOf num den) := by
  have hlog : (num / den).log2 < F.fractionBits + 1 + F.spacingOf num den := by
    rw [spacingOf]
    omega
  have hquotient : num / den < 2 ^ (F.fractionBits + 1 + F.spacingOf num den) :=
    Nat.lt_of_lt_of_le Nat.lt_log2_self (Nat.pow_le_pow_right (by decide) hlog)
  have hnum := (Nat.div_lt_iff_lt_mul hden).mp hquotient
  calc num < 2 ^ (F.fractionBits + 1 + F.spacingOf num den) * den := hnum
    _ = _ := by
      rw [Nat.pow_add, Nat.pow_succ']
      ac_rfl

theorem le_quotient (hden : 0 < den) (hspacing : F.spacingOf num den ≠ 0) :
    2 ^ F.fractionBits * (den * 2 ^ F.spacingOf num den) ≤ num := by
  have hlog : (num / den).log2 = F.fractionBits + F.spacingOf num den := by
    rw [spacingOf] at hspacing ⊢
    omega
  have hquotient : num / den ≠ 0 := by
    intro hzero
    rw [hzero, Nat.log2_zero] at hlog
    omega
  have hle := Nat.log2_self_le hquotient
  rw [hlog] at hle
  have hnum := (Nat.le_div_iff_mul_le hden).mp hle
  calc 2 ^ F.fractionBits * (den * 2 ^ F.spacingOf num den)
      = 2 ^ (F.fractionBits + F.spacingOf num den) * den := by
        rw [Nat.pow_add]
        ac_rfl
    _ ≤ num := hnum

theorem spaced_pos (hden : 0 < den) (spacing : Nat) : 0 < den * 2 ^ spacing :=
  Nat.mul_pos hden (Nat.two_pow_pos spacing)

theorem coefficientOf_le (hden : 0 < den) :
    F.coefficientOf num den ≤ 2 * 2 ^ F.fractionBits :=
  nearestEven_le_of_le (spaced_pos hden _) (Nat.le_of_lt (F.quotient_lt hden))

theorem le_coefficientOf (hden : 0 < den) (hspacing : F.spacingOf num den ≠ 0) :
    2 ^ F.fractionBits ≤ F.coefficientOf num den :=
  le_nearestEven_of_le (spaced_pos hden _) (F.le_quotient hden hspacing)

/-- The nearest magnitude is a whole number of spacings. -/
theorem unitsOf_nearestIndex (hden : 0 < den) :
    F.unitsOf (F.nearestIndex num den) = F.coefficientOf num den * 2 ^ F.spacingOf num den := by
  rw [nearestIndex_eq]
  refine F.unitsOf_spaced (F.coefficientOf_le hden) ?_
  by_cases hspacing : F.spacingOf num den = 0
  · exact .inl hspacing
  · exact .inr (F.le_coefficientOf hden hspacing)

/-- The nearest magnitude is off by half a spacing at most. -/
theorem two_mul_units_le (num : Nat) {den : Nat} (hden : 0 < den) :
    2 * (F.unitsOf (F.nearestIndex num den) * den) ≤
        2 * num + den * 2 ^ F.spacingOf num den ∧
      2 * num ≤ 2 * (F.unitsOf (F.nearestIndex num den) * den) +
        den * 2 ^ F.spacingOf num den := by
  have hunits : F.unitsOf (F.nearestIndex num den) * den =
      F.coefficientOf num den * (den * 2 ^ F.spacingOf num den) := by
    rw [F.unitsOf_nearestIndex hden]
    ac_rfl
  rw [hunits]
  exact ⟨two_mul_nearestEven_le _ _, two_mul_le_nearestEven _ (spaced_pos hden _)⟩

theorem spacing_le (num : Nat) {den : Nat} (hden : 0 < den) :
    F.spacingOf num den = 0 ∨ 2 ^ F.fractionBits * (den * 2 ^ F.spacingOf num den) ≤ num := by
  by_cases hspacing : F.spacingOf num den = 0
  · exact .inl hspacing
  · exact .inr (F.le_quotient hden hspacing)

end Quotient

/-! ## Order -/

/-- Larger quotients of one denominator have no smaller indices. -/
theorem nearestIndex_le_of_num_le {num num' den : Nat} (hden : 0 < den) (h : num ≤ num') :
    F.nearestIndex num den ≤ F.nearestIndex num' den := by
  have hspacing : F.spacingOf num den ≤ F.spacingOf num' den := by
    rw [spacingOf, spacingOf, Nat.log2_eq_log_two, Nat.log2_eq_log_two]
    exact Nat.sub_le_sub_right (Nat.log_mono_right (Nat.div_le_div_right h)) _
  rw [nearestIndex_eq, nearestIndex_eq]
  rcases Nat.eq_or_lt_of_le hspacing with heq | hlt
  · rw [coefficientOf, coefficientOf, heq]
    exact Nat.add_le_add_left (nearestEven_le (spaced_pos hden _) h) _
  · have hcarry : F.coefficientOf num den ≤ _ := F.coefficientOf_le hden
    have hfull : _ ≤ F.coefficientOf num' den :=
      F.le_coefficientOf hden (Nat.ne_of_gt (Nat.zero_lt_of_lt hlt))
    have hnext : (F.spacingOf num den + 1) * 2 ^ F.fractionBits ≤
        F.spacingOf num' den * 2 ^ F.fractionBits := Nat.mul_le_mul_right _ hlt
    rw [Nat.succ_mul] at hnext
    omega

theorem nearestIndex_zero {den : Nat} (hden : 0 < den) : F.nearestIndex 0 den = 0 := by
  have heven := nearestEven_mul 0 hden
  rw [Nat.zero_mul] at heven
  simp only [nearestIndex, Nat.zero_div, Nat.log2_zero, Nat.zero_sub, Nat.zero_shiftLeft,
    Nat.shiftLeft_zero, heven]

end Format

end SubByte
