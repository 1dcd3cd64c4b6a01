/-
# Overflow — where finite weights are lost

Past the largest single the difference of a group's extremes is infinite.  Then the scale is
infinite, the bias zero, and every weight of the group is restored as no number
(`restored_nan`).

A finite difference makes all parameters finite, but not yet all weights: the product of a
code and the scale may still go past the largest single, since the scale may be one and a
half steps.  In the formats that reach as far as a single does this is the only way to lose a
weight (`restored_wide`).  A product that is finite takes from the bias, and no product is
further from zero than the bias and the largest value of the format together.  Where
twice the difference is finite there is room for the products of all codes
(`product_finite`).
-/
import SubByte.Proofs.Quantizer.Edge
import SubByte.Proofs.Quantizer.Magnitude

namespace SubByte

namespace Config

variable {config : Config} {type : FloatType} {group : List (Binary type.format)}

/-! ## Infinite differences -/

/-- With a difference past the largest single nothing of the group is restored. -/
theorem restored_nan (config : Config) (hne : group ≠ []) (hfinite : ∀ v ∈ group, v.isFinite)
    (hspread : (groupSpread group).isFinite = false) :
    (∃ s, (config.affineOf group).scale.narrow type.format = .infinite s) ∧
      ∀ v ∈ group, config.restored group v = .nan := by
  obtain ⟨s, hrange⟩ := (config.spans hne hfinite).ofRange_infinite hspread
  have haffine : config.affineOf group = ⟨.infinite s, 0⟩ := hrange
  refine ⟨⟨s, by rw [haffine]; rfl⟩, fun v hv => ?_⟩
  have hcode : (config.affineOf group).code config.bins v.widen = 0 := by
    have hwide := (Binary.widen_finite (hfinite v hv)).1
    rw [haffine]
    obtain ⟨hdifference, -⟩ := Binary.sub_zero_finite hwide
    obtain ⟨hquotient, hzero⟩ := Binary.div_infinite hdifference s
    refine Affine.code_of_near_bias config hquotient ?_
    rw [hzero, abs_zero]
    norm_num
  have hproduct : ∀ s, (.ofNat .single 0 * .infinite s : Single) = .nan := by decide
  simp only [restored, hcode]
  rw [haffine]
  show ((.ofNat .single 0 * .infinite s + _ : Single)).narrow type.format = .nan
  rw [hproduct]
  rfl

/-! ## Finite differences -/

/-- A weight is restored as a finite one when its product is no further from zero than the bias
and the largest value of the format together. -/
theorem restored_finite_of_product (config : Config) (hne : group ≠ [])
    (hfinite : ∀ v ∈ group, v.isFinite) (hspread : (groupSpread group).isFinite)
    (hlt : (groupMin group).toRat < (groupMax group).toRat) {v : Binary type.format}
    (hproduct : (.ofNat .single ((config.affineOf group).code config.bins v.widen) *
      ((config.affineOf group).stored type.format).scale).isFinite)
    (hwithin : |(.ofNat .single ((config.affineOf group).code config.bins v.widen) *
      ((config.affineOf group).stored type.format).scale).toRat| ≤
        |((config.affineOf group).stored type.format).bias.toRat| +
          (Binary.largest type.format).toRat) :
    (config.restored group v).isFinite := by
  obtain ⟨-, w, hw, hbiasValue⟩ := config.bias_eq hne hfinite
  obtain ⟨-, hbias, hstoredBias⟩ := config.stored_bias hne hfinite
  obtain ⟨-, hscale⟩ := config.stored_scale hne hfinite hspread
  obtain ⟨hlargest, hlargestValue⟩ :=
    Binary.widen_finite (Binary.isFinite_largest (F := type.format))
  have hcode := config.code_short (config.affineOf group) v.widen
  have hbiasLe : |((config.affineOf group).stored type.format).bias.toRat| ≤
      (Binary.largest type.format).widen.toRat := by
    rw [hstoredBias, hbiasValue, hlargestValue]
    exact Binary.abs_toRat_le hw
  rw [← hlargestValue] at hwithin
  obtain ⟨hvalue, hle⟩ := Affine.value_within hcode hscale hbias hlargest
    (config.stored_scale_mul_bias_nonpos hne hfinite hspread hlt) hbiasLe hproduct hwithin
  refine (Binary.narrow_within hvalue Binary.isFinite_largest (le_trans hle ?_)).1
  rw [hlargestValue]
  exact le_abs_self _

/-- All weights have the code zero, or the extremes are different and the edge is past half the
floor. -/
theorem code_zero_or (config : Config) (hne : group ≠ []) (hfinite : ∀ v ∈ group, v.isFinite)
    (hspread : (groupSpread group).isFinite) :
    (∀ v ∈ group, (config.affineOf group).code config.bins v.widen = 0) ∨
      (groupMin group).toRat < (groupMax group).toRat ∧
        scaleFloor.toRat / 2 < |(Affine.edgeOf (groupMin group) (groupMax group)).toRat| := by
  have hspans := config.spans hne hfinite
  by_cases hsmall :
      |(Affine.edgeOf (groupMin group) (groupMax group)).toRat| ≤ scaleFloor.toRat / 2
  · refine .inl fun v hv => ?_
    obtain ⟨-, -, hedge⟩ := group_bounds hfinite hv
    exact (config.code_of_small_edge hne hfinite hspread hsmall (hfinite v hv)
      (le_trans hedge hsmall)).2
  · have hpast := not_le.mp hsmall
    rcases lt_or_eq_of_le hspans.le with hlt | hequal
    · exact .inr ⟨hlt, hpast⟩
    · -- All weights are the bias.
      refine .inl fun v hv => ?_
      obtain ⟨hlow, hhigh, -⟩ := group_bounds hfinite hv
      obtain ⟨hwide, hwideValue⟩ := Binary.widen_finite (hfinite v hv)
      rw [config.affineOf_past hne hfinite hspread hpast]
      refine Affine.code_of_eq_bias config hwide hspans.isFinite_edgeOf ?_
      rw [(Affine.toRat_edgeOf hspans.finiteLow hspans.finiteHigh).2, hwideValue, hequal,
        ite_self]
      exact le_antisymm hhigh (by rwa [← hequal])

/-! ## Wide formats -/

theorem toRat_largest_single : (Binary.largest .single).toRat = (2 ^ 24 - 1) * 2 ^ 104 := by
  have hunits : (Binary.largest .single).units = (2 ^ 24 - 1) * 2 ^ 253 := by decide
  have hone : Format.single.unitsPerOne = 2 ^ 149 := by decide
  rw [Binary.toRat, hunits, hone]
  norm_num

theorem toRat_largest_brain : (Binary.largest .brain).toRat = 255 * 2 ^ 120 := by
  have hunits : (Binary.largest .brain).units = 255 * 2 ^ 253 := by decide
  have hone : Format.brain.unitsPerOne = 2 ^ 133 := by decide
  rw [Binary.toRat, hunits, hone]
  norm_num

theorem largest_wide (h : type ≠ .f16) :
    99 / 100 * (Binary.largest .single).toRat ≤ (Binary.largest type.format).toRat := by
  cases type with
  | f32 =>
      show _ ≤ (Binary.largest .single).toRat
      rw [toRat_largest_single]
      norm_num
  | f16 => exact absurd rfl h
  | bf16 =>
      show _ ≤ (Binary.largest .brain).toRat
      rw [toRat_largest_single, toRat_largest_brain]
      norm_num

theorem spread_of_double {a : Single} (hdouble : (a + a).isFinite) :
    a.isFinite ∧ a.toRat ≤ 501 / 1000 * (Binary.largest .single).toRat := by
  have hfinite := (Binary.isFinite_of_add hdouble).1
  refine ⟨hfinite, ?_⟩
  have hclose := (Binary.add_rounds hfinite hfinite).dist_single_le hdouble
  have hlargest := Binary.abs_toRat_le hdouble
  have hshrink := le_trans (abs_sub_abs_le_abs_sub (a.toRat + a.toRat) (a + a).toRat)
    (le_of_eq_of_le (abs_sub_comm _ _) hclose)
  have hself := le_abs_self (a.toRat + a.toRat)
  rw [toRat_largest_single] at hlargest ⊢
  norm_num at hshrink hlargest ⊢
  linarith

/-- In a wide format a weight is restored where its product is finite. -/
theorem restored_wide (config : Config) (hfinite : ∀ v ∈ group, v.isFinite) (hwide : type ≠ .f16)
    (hspread : (groupSpread group).isFinite) {v : Binary type.format} (hv : v ∈ group)
    (hproduct : (.ofNat .single ((config.affineOf group).code config.bins v.widen) *
      ((config.affineOf group).stored type.format).scale).isFinite) :
    (config.restored group v).isFinite := by
  have hne : group ≠ [] := List.ne_nil_of_mem hv
  rcases config.code_zero_or hne hfinite hspread with hzero | ⟨hlt, hpast⟩
  · exact (config.restored_of_code_zero hne hfinite hspread (hzero v hv)).1
  obtain ⟨-, hscale⟩ := config.stored_scale hne hfinite hspread
  obtain ⟨hwhole, hvalue⟩ := Binary.ofNat_finite (config.code_short (config.affineOf group) v.widen)
  -- The product is little more than three times the bias, and no larger than a single.
  have hclose := (Binary.mul_rounds hwhole hscale).dist_single_le hproduct
  have hgrow := le_trans (abs_sub_abs_le_abs_sub _ _) hclose
  rw [hvalue, abs_mul, Nat.abs_cast] at hgrow
  have hexact := config.code_mul_stored_le hne hfinite hspread hpast v
  have hspreadLe : (groupSpread group).toRat ≤ _ :=
    ((config.spans hne hfinite).spread_le hspread).2
  have hlargest := Binary.abs_toRat_le hproduct
  have hreach := largest_wide hwide
  refine config.restored_finite_of_product hne hfinite hspread hlt hproduct ?_
  rw [config.stored_bias_past hne hfinite hspread hpast]
  rw [toRat_largest_single] at hlargest hreach
  norm_num at hgrow hlargest hreach
  linarith

/-- Where twice the difference is finite there is room for all products. -/
theorem product_finite (config : Config) (hfinite : ∀ v ∈ group, v.isFinite)
    (hdouble : (groupSpread group + groupSpread group).isFinite) {v : Binary type.format}
    (hv : v ∈ group) :
    (.ofNat .single ((config.affineOf group).code config.bins v.widen) *
      ((config.affineOf group).stored type.format).scale).isFinite := by
  have hne : group ≠ [] := List.ne_nil_of_mem hv
  obtain ⟨hspread, hspreadLe⟩ := spread_of_double hdouble
  obtain ⟨-, hscale⟩ := config.stored_scale hne hfinite hspread
  obtain ⟨hwhole, hvalue⟩ := Binary.ofNat_finite (config.code_short (config.affineOf group) v.widen)
  refine ((Binary.mul_rounds hwhole hscale).within Binary.isFinite_largest ?_).1
  rw [hvalue, abs_mul, Nat.abs_cast]
  have hlargest := toRat_largest_single
  rcases config.code_zero_or hne hfinite hspread with hzero | ⟨-, hpast⟩
  · rw [hzero v hv, Nat.cast_zero, zero_mul, hlargest]
    norm_num
  · have hproduct := config.code_mul_stored_le hne hfinite hspread hpast v
    rw [hlargest] at hspreadLe ⊢
    linarith

end Config

end SubByte
