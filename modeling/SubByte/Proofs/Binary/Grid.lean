/-
# Grid — the multiples of a gap near a rounded number

A result is a whole number of the gaps that its magnitude has (`Rounds.exists_gap`).  Other
values are whole numbers of the same gap when they are as large as `2 ^ fractionBits` of them
(`exists_mul_gap`); smaller values are on a finer grid, and none of them is nearer to this bound
than half a gap (`abs_add_gap_le`).

So two things can be said of a number and a value next to it (`Rounds.exists_grid`).  Either
the value, and all larger ones, are on the grid of the result; or the value is on the finer
grid below it, and then the number is at least half a gap away from it, and the result is
nearer to the number than the value is by as much.
-/
import SubByte.Proofs.Binary.Operations

namespace SubByte

namespace Format

variable (F : Format)

theorem two_pow_dvd_unitsOf {k i : Nat} (h : 2 ^ F.fractionBits * 2 ^ k ≤ F.unitsOf i) :
    2 ^ k ∣ F.unitsOf i := by
  obtain ⟨coefficient, spacing, hle, -, hunits⟩ := F.exists_coefficient i
  rcases Nat.lt_or_ge spacing k with hlt | hge
  · -- A coefficient is too short for a smaller power, but for the one that carries.
    have hcarry : F.unitsOf i ≤ 2 ^ F.fractionBits * 2 ^ k := by
      calc F.unitsOf i = coefficient * 2 ^ spacing := hunits
        _ ≤ 2 * 2 ^ F.fractionBits * 2 ^ spacing := Nat.mul_le_mul_right _ hle
        _ = 2 ^ F.fractionBits * 2 ^ (spacing + 1) := by ring
        _ ≤ 2 ^ F.fractionBits * 2 ^ k :=
          Nat.mul_le_mul_left _ (Nat.pow_le_pow_right (by decide) hlt)
    rw [Nat.le_antisymm hcarry h]
    exact Nat.dvd_mul_left _ _
  · rw [hunits]
    exact Nat.dvd_mul_left_of_dvd (Nat.pow_dvd_pow 2 hge) coefficient

theorem unitsOf_add_le {k i : Nat} (h : F.unitsOf i < 2 ^ F.fractionBits * 2 ^ (k + 1)) :
    F.unitsOf i + 2 ^ k ≤ 2 ^ F.fractionBits * 2 ^ (k + 1) := by
  have hone := Nat.mul_le_mul_right (2 ^ k) (Nat.two_pow_pos F.fractionBits)
  have hdouble : 2 ^ F.fractionBits * 2 ^ (k + 1) = 2 * (2 ^ F.fractionBits * 2 ^ k) := by ring
  rcases Nat.lt_or_ge (F.unitsOf i) (2 ^ F.fractionBits * 2 ^ k) with hlt | hge
  · omega
  · obtain ⟨n, hn⟩ := F.two_pow_dvd_unitsOf hge
    rw [Nat.pow_succ', ← Nat.mul_assoc, hn, Nat.mul_comm (2 ^ k)] at h
    have hnext := Nat.mul_le_mul_right (2 ^ k) (Nat.lt_of_mul_lt_mul_right h)
    rw [Nat.pow_succ', ← Nat.mul_assoc, hn, Nat.mul_comm (2 ^ k), ← Nat.succ_mul]
    exact hnext

theorem gap_succ (k : Nat) : F.gap (k + 1) = 2 * F.gap k := by
  rw [gap, gap, pow_succ', mul_div_assoc]

theorem one_unit_le_gap (k : Nat) : 1 / (F.unitsPerOne : ℚ) ≤ F.gap k :=
  div_le_div_of_nonneg_right (one_le_pow₀ (by norm_num)) (le_of_lt F.unitsPerOne_cast_pos)

end Format

namespace Binary

variable {F : Format} {a : Binary F}

theorem abs_toRat_finite (s : Bool) (i : Fin F.magnitudes) :
    |(finite s i : Binary F).toRat| = (F.unitsOf i : ℚ) / F.unitsPerOne := by
  rw [toRat_finite, abs_div, abs_of_pos F.unitsPerOne_cast_pos, ← Int.cast_abs, abs_signed,
    Int.cast_natCast]

/-- Values of `2 ^ fractionBits` gaps or more are whole numbers of gaps, and all values are of
the least gap. -/
theorem exists_mul_gap (ha : a.isFinite) {k : Nat}
    (h : k = 0 ∨ 2 ^ F.fractionBits * F.gap k ≤ |a.toRat|) : ∃ m : ℤ, a.toRat = m * F.gap k := by
  obtain ⟨s, i, rfl⟩ := exists_finite ha
  have hdvd : 2 ^ k ∣ F.unitsOf i := by
    rcases h with rfl | h
    · exact Nat.one_dvd _
    · rw [abs_toRat_finite, Format.gap, ← mul_div_assoc,
        div_le_div_iff_of_pos_right F.unitsPerOne_cast_pos] at h
      exact F.two_pow_dvd_unitsOf (by exact_mod_cast h)
  obtain ⟨n, hn⟩ := hdvd
  refine ⟨signed s n, ?_⟩
  rw [toRat_finite, hn, Nat.mul_comm, ← signed_mul_natCast, Format.gap, ← mul_div_assoc]
  push_cast
  rfl

/-- Values below `2 ^ fractionBits` gaps stay below by half a gap. -/
theorem abs_add_gap_le (ha : a.isFinite) {k : Nat}
    (h : |a.toRat| < 2 ^ F.fractionBits * F.gap (k + 1)) :
    |a.toRat| + F.gap k ≤ 2 ^ F.fractionBits * F.gap (k + 1) := by
  obtain ⟨s, i, rfl⟩ := exists_finite ha
  have hone := F.unitsPerOne_cast_pos
  rw [abs_toRat_finite, Format.gap, ← mul_div_assoc, div_lt_div_iff_of_pos_right hone] at h
  rw [abs_toRat_finite, Format.gap, Format.gap, ← mul_div_assoc, ← add_div,
    div_le_div_iff_of_pos_right hone]
  exact_mod_cast F.unitsOf_add_le (by exact_mod_cast h)

theorem abs_sub_le_of_multiple {step x : ℚ} {m : ℤ} (hstep : 0 < step)
    (hclose : |m * step - x| ≤ step / 2) (n : ℤ) : |m * step - x| ≤ |n * step - x| := by
  by_cases hequal : m = n
  · rw [hequal]
  have happart : step ≤ |m * step - n * step| := by
    rw [← sub_mul, abs_mul, abs_of_pos hstep, ← Int.cast_sub, ← Int.cast_abs]
    refine le_mul_of_one_le_left (le_of_lt hstep) ?_
    exact_mod_cast Int.one_le_abs (sub_ne_zero.mpr hequal)
  have htriangle := abs_sub_le (m * step) x (n * step)
  rw [abs_sub_comm x] at htriangle
  linarith

theorem exists_abs_sub_eq {step x : ℚ} {n : ℤ} (h : n * step ≤ |x|) :
    ∃ i : ℤ, |i * step - x| = |x| - n * step := by
  have hnonneg := sub_nonneg.mpr h
  rcases le_total 0 x with hpos | hneg
  · refine ⟨n, ?_⟩
    rw [abs_of_nonneg hpos] at hnonneg ⊢
    rw [abs_sub_comm, abs_of_nonneg hnonneg]
  · refine ⟨-n, ?_⟩
    rw [abs_of_nonpos hneg] at hnonneg ⊢
    rw [Int.cast_neg, neg_mul, ← neg_sub_comm, abs_of_nonneg hnonneg]

/-- A result, a number that is rounded to it, and a value not further from zero than another:
either both values are on the grid of the result, or the first one is below this grid, and
further away from the number than the result is by half a gap or more. -/
theorem Rounds.exists_grid {x : ℚ} (ha : Rounds x a) (hfinite : a.isFinite) :
    ∃ k, (∃ m : ℤ, a.toRat = m * F.gap k) ∧ |a.toRat - x| ≤ F.gap k / 2 ∧
      |x| ≤ 2 * 2 ^ F.fractionBits * F.gap k ∧
      ∀ v w : Binary F, v.isFinite → w.isFinite → |v.toRat| ≤ |w.toRat| →
        ((∃ i : ℤ, v.toRat = i * F.gap k) ∧ ∃ j : ℤ, w.toRat = j * F.gap k) ∨
          F.gap k / 2 + |a.toRat - x| ≤ |x - v.toRat| := by
  obtain ⟨k, ⟨m, hm⟩, hclose, hsmall, hlarge⟩ := ha.exists_gap hfinite
  refine ⟨k, ⟨m, hm⟩, hclose, hsmall, fun v w hv hw hle => ?_⟩
  by_cases hgrid : k = 0 ∨ 2 ^ F.fractionBits * F.gap k ≤ |v.toRat|
  · exact .inl ⟨exists_mul_gap hv hgrid,
      exists_mul_gap hw (hgrid.imp_right fun h => le_trans h hle)⟩
  right
  obtain ⟨hzero, hbelow⟩ := not_or.mp hgrid
  obtain ⟨j, rfl⟩ := Nat.exists_eq_succ_of_ne_zero hzero
  have hroom := abs_add_gap_le hv (not_le.mp hbelow)
  have hlarge := hlarge.resolve_left hzero
  have hgap := F.gap_pos (j + 1)
  -- The bound of the finer grid is a multiple of the gap, on the side of the number.
  have hmultiple : ((2 ^ F.fractionBits : ℤ) : ℚ) * F.gap (j + 1) ≤ |x| := by exact_mod_cast hlarge
  obtain ⟨n, hn⟩ := exists_abs_sub_eq hmultiple
  have hnearest := abs_sub_le_of_multiple hgap (hm ▸ hclose) n
  rw [← hm, hn, Int.cast_pow, Int.cast_ofNat] at hnearest
  have happart := abs_sub_abs_le_abs_sub x v.toRat
  rw [Nat.succ_eq_add_one, F.gap_succ] at *
  linarith

end Binary

end SubByte
