/-
# Magnitude — how large the scale of a group is

All codes together stretch over the difference of the extremes, or over the floor as many
times, but not exactly: the step is rounded, the scale is fitted to a whole number of steps
and rounded again, and what is stored is rounded once more.  Fitting is the coarse one of
these, since an edge of one and a half steps may become one of a single step.  So the
largest code times the stored scale is no more than about one and a half times the
difference (`maxCode_mul_stored_le`).  And a fitted scale is about half a step or more
(`le_fitted`), except where the steps are too many for a single and it is zero.

Between two different extremes the scale leads from the edge past zero
(`stored_scale_mul_bias_nonpos`), so a product of a code and the scale takes from the bias
and does not add to it.
-/
import SubByte.Proofs.Quantizer.Coding

namespace SubByte

/-! ## Errors of one rounding -/

namespace Binary.Rounds

variable {x : ℚ}

theorem dist_single_le {a : Single} (h : Rounds x a) (ha : a.isFinite) :
    |a.toRat - x| ≤ |x| / 2 ^ 24 + 1 / 2 ^ 150 := by
  have hle := h.dist_le_add ha
  have hone : Format.single.unitsPerOne = 2 ^ 149 := by decide
  have hbits : Format.single.fractionBits = 23 := rfl
  rw [hone, hbits] at hle
  norm_num at hle ⊢
  exact hle

theorem dist_half_le {a : Binary .half} (h : Rounds x a) (ha : a.isFinite) :
    |a.toRat - x| ≤ |x| / 2 ^ 11 + 1 / 2 ^ 25 := by
  have hle := h.dist_le_add ha
  have hone : Format.half.unitsPerOne = 2 ^ 24 := by decide
  have hbits : Format.half.fractionBits = 10 := rfl
  rw [hone, hbits] at hle
  norm_num at hle ⊢
  exact hle

theorem dist_stored_le {type : FloatType} {a : Binary type.format} (h : Rounds x a)
    (ha : a.isFinite) : |a.toRat - x| ≤ |x| / 2 ^ 8 + 1 / 2 ^ 25 := by
  have hle := h.dist_le_add ha
  have hbits : 7 ≤ type.format.fractionBits := by cases type <;> decide
  have hone : 2 ^ 24 ≤ type.format.unitsPerOne := by cases type <;> decide
  have hrelative : |x| / (2 * 2 ^ type.format.fractionBits) ≤ |x| / 2 ^ 8 := by
    have hpow : (2 ^ 7 : ℚ) ≤ 2 ^ type.format.fractionBits :=
      pow_le_pow_right₀ (by norm_num) hbits
    refine div_le_div_of_nonneg_left (abs_nonneg x) (by norm_num) ?_
    linarith
  have habsolute : 1 / (2 * type.format.unitsPerOne : ℚ) ≤ 1 / 2 ^ 25 := by
    have hunits : (2 ^ 24 : ℚ) ≤ type.format.unitsPerOne := by exact_mod_cast hone
    refine one_div_le_one_div_of_le (by norm_num) ?_
    linarith
  linarith

end Binary.Rounds

/-! ## The scale -/

namespace Affine

theorem scaleFloor_bounds : 1 / 2 ^ 24 < scaleFloor.toRat ∧ scaleFloor.toRat < 1 / 2 ^ 23 := by
  rw [scaleFloor_toRat]
  norm_num

theorem one_le_abs_nearestInt {ratio : Single} (h : ratio.nearestInt ≠ 0) :
    (1 : ℚ) ≤ |(ratio.nearestInt : ℚ)| := by
  rw [← Int.cast_abs]
  exact_mod_cast Int.one_le_abs h

namespace Spans

variable {low high bins : Single} {count : Nat} (h : Spans low high bins count)
include h

theorem count_mul_stepOf_le (hspread : (high - low).isFinite) (hcount : count ≤ 255) :
    count * (stepOf low high bins).toRat ≤ 1001 / 1000 * (high - low).toRat + 1 / 1000 := by
  obtain ⟨hfinite, hpos, hrounds⟩ := h.quotient_finite hspread
  obtain ⟨hspreadPos, -⟩ := h.spread_le hspread
  have hmany : (count : ℚ) ≤ 255 := by exact_mod_cast hcount
  have hcountPos : (0 : ℚ) < count := by exact_mod_cast Nat.lt_of_lt_of_le (by decide) h.three_le
  have hfloor := scaleFloor_bounds.2
  have hquotient : (count : ℚ) * ((high - low) / bins).toRat ≤
      1001 / 1000 * (high - low).toRat + 1 / 1000 := by
    have hclose := hrounds.dist_single_le hfinite
    have hratio : |(high - low).toRat / count| = (high - low).toRat / count :=
      abs_of_nonneg (div_nonneg hspreadPos (le_of_lt hcountPos))
    rw [hratio] at hclose
    have hupper := (abs_le.mp hclose).2
    have hcancel : count * ((high - low).toRat / count) = (high - low).toRat :=
      mul_div_cancel₀ _ (ne_of_gt hcountPos)
    nlinarith
  have hfloorMany : (count : ℚ) * scaleFloor.toRat ≤
      1001 / 1000 * (high - low).toRat + 1 / 1000 := by
    have hproduct : (count : ℚ) * scaleFloor.toRat ≤ 255 * (1 / 2 ^ 23) := by
      have hnonneg := le_of_lt scaleFloor_pos
      gcongr
    norm_num at hproduct
    linarith
  -- The step is the larger of the quotient and the floor.
  rw [(h.stepOf_finite hspread).2]
  rcases le_total ((high - low) / bins).toRat scaleFloor.toRat with hle | hle
  · rw [sup_eq_right.mpr hle]
    exact hfloorMany
  · rw [sup_eq_left.mpr hle]
    exact hquotient

/-- The number of steps is half a step from the exact one at most, but for a rounding. -/
theorem steps_sub_ratio_le (hspread : (high - low).isFinite)
    (hratio : (edgeOf low high / coarseOf low high bins).isFinite) :
    let exact := |(edgeOf low high).toRat| / (stepOf low high bins).toRat
    |(|((edgeOf low high / coarseOf low high bins).nearestInt : ℚ)| - exact)| ≤
      1 / 2 + (exact / 2 ^ 24 + 1 / 2 ^ 150) := by
  intro exact
  obtain ⟨-, hrounds⟩ := h.ratio_rounds hspread
  generalize edgeOf low high / coarseOf low high bins = ratio at hratio hrounds
  have habs : ratio.abs.isFinite := by rwa [Binary.isFinite_abs]
  have hclose := hrounds.dist_single_le habs
  have hnearest := Binary.abs_nearestInt_sub_le habs
  rw [Binary.nearestInt_abs, Int.cast_abs] at hnearest
  have hpos : 0 ≤ exact := div_nonneg (abs_nonneg _) (le_of_lt (h.stepOf_pos hspread))
  rw [abs_of_nonneg hpos] at hclose
  exact le_trans (abs_sub_le _ _ _) (add_le_add hnearest hclose)

/-- A whole number of steps, at least one, makes up for two thirds of the edge or more. -/
theorem edgeOf_le_steps (hspread : (high - low).isFinite)
    (hratio : (edgeOf low high / coarseOf low high bins).isFinite)
    (hsteps : (edgeOf low high / coarseOf low high bins).nearestInt ≠ 0) :
    |(edgeOf low high).toRat| ≤ 1501 / 1000 * (stepOf low high bins).toRat *
      |((edgeOf low high / coarseOf low high bins).nearestInt : ℚ)| := by
  have hclose := h.steps_sub_ratio_le hspread hratio
  have hstep := h.stepOf_pos hspread
  have hwhole := one_le_abs_nearestInt hsteps
  generalize |((edgeOf low high / coarseOf low high bins).nearestInt : ℚ)| = k at hclose hwhole ⊢
  generalize hx : |(edgeOf low high).toRat| / (stepOf low high bins).toRat = x at hclose
  have hlower := (abs_le.mp hclose).1
  have hxLe : x ≤ 1501 / 1000 * k := by
    norm_num at hlower
    linarith
  rw [div_eq_iff (ne_of_gt hstep)] at hx
  rw [hx]
  nlinarith

/-- A whole number of steps, at least one, is little more than twice the edge. -/
theorem steps_le_edgeOf (hspread : (high - low).isFinite)
    (hratio : (edgeOf low high / coarseOf low high bins).isFinite)
    (hsteps : (edgeOf low high / coarseOf low high bins).nearestInt ≠ 0) :
    (stepOf low high bins).toRat *
        |((edgeOf low high / coarseOf low high bins).nearestInt : ℚ)| ≤
      21 / 10 * |(edgeOf low high).toRat| := by
  have hclose := h.steps_sub_ratio_le hspread hratio
  have hstep := h.stepOf_pos hspread
  have hwhole := one_le_abs_nearestInt hsteps
  generalize |((edgeOf low high / coarseOf low high bins).nearestInt : ℚ)| = k at hclose hwhole ⊢
  generalize hx : |(edgeOf low high).toRat| / (stepOf low high bins).toRat = x at hclose
  have hupper := (abs_le.mp hclose).2
  have hxGe : k ≤ 21 / 10 * x := by
    norm_num at hupper
    linarith
  rw [div_eq_iff (ne_of_gt hstep)] at hx
  rw [hx]
  nlinarith

theorem fitted_close (hspread : (high - low).isFinite)
    (hedge : scaleFloor.toRat / 2 < |(edgeOf low high).toRat|)
    (hsteps : (edgeOf low high / coarseOf low high bins).nearestInt ≠ 0)
    (hfinite : (stepsOf low high bins).isFinite)
    (hvalue : (stepsOf low high bins).toRat =
      (edgeOf low high / coarseOf low high bins).nearestInt) :
    let exact := |(edgeOf low high).toRat| /
      |((edgeOf low high / coarseOf low high bins).nearestInt : ℚ)|
    |(|(edgeOf low high / stepsOf low high bins).toRat| - exact)| ≤
      exact / 2 ^ 24 + 1 / 2 ^ 150 := by
  intro exact
  have hnonzero : (stepsOf low high bins).toRat ≠ 0 := by
    rw [hvalue]
    exact Int.cast_ne_zero.mpr hsteps
  have hrounds := (Binary.div_rounds h.isFinite_edgeOf hfinite hnonzero).abs
  have habs : (edgeOf low high / stepsOf low high bins).abs.isFinite := by
    rw [Binary.isFinite_abs]
    exact (h.fitted_finite hspread hedge).1
  have hclose := hrounds.dist_single_le habs
  rwa [abs_abs, abs_div, hvalue, Binary.toRat_abs] at hclose

theorem fitted_le (hspread : (high - low).isFinite)
    (hedge : scaleFloor.toRat / 2 < |(edgeOf low high).toRat|) :
    |(edgeOf low high / stepsOf low high bins).toRat| ≤
      151 / 100 * (stepOf low high bins).toRat := by
  have hstep := h.stepOf_pos hspread
  rcases h.stepsOf_cases hspread hedge with ⟨s, hinfinite⟩ | ⟨hratio, hne, hfinite, hvalue⟩
  · rw [hinfinite, (Binary.div_infinite h.isFinite_edgeOf s).2, abs_zero]
    positivity
  · have hclose := h.fitted_close hspread hedge hne hfinite hvalue
    have hle := h.edgeOf_le_steps hspread hratio hne
    have hwhole : 0 < |((edgeOf low high / coarseOf low high bins).nearestInt : ℚ)| :=
      abs_pos.mpr (Int.cast_ne_zero.mpr hne)
    rw [← div_le_iff₀ hwhole] at hle
    have hfloor := h.floor_le_stepOf hspread
    have hbound := scaleFloor_bounds.1
    have hupper := (abs_le.mp hclose).2
    norm_num at hupper hbound
    linarith

/-- A fitted scale is about half a step or more, unless it is zero. -/
theorem le_fitted (hspread : (high - low).isFinite)
    (hedge : scaleFloor.toRat / 2 < |(edgeOf low high).toRat|) :
    (edgeOf low high / stepsOf low high bins).toRat = 0 ∨
      47 / 100 * (stepOf low high bins).toRat ≤
        |(edgeOf low high / stepsOf low high bins).toRat| := by
  rcases h.stepsOf_cases hspread hedge with ⟨s, hinfinite⟩ | ⟨hratio, hne, hfinite, hvalue⟩
  · rw [hinfinite]
    exact .inl (Binary.div_infinite h.isFinite_edgeOf s).2
  · right
    have hclose := h.fitted_close hspread hedge hne hfinite hvalue
    have hle := h.steps_le_edgeOf hspread hratio hne
    have hwhole : 0 < |((edgeOf low high / coarseOf low high bins).nearestInt : ℚ)| :=
      abs_pos.mpr (Int.cast_ne_zero.mpr hne)
    rw [← le_div_iff₀ hwhole, mul_div_assoc] at hle
    have hfloor := h.floor_le_stepOf hspread
    have hbound := scaleFloor_bounds.1
    have hlower := (abs_le.mp hclose).1
    norm_num at hlower hbound
    linarith

/-- Between two different extremes a fitted scale leads from the edge past zero. -/
theorem fitted_mul_edgeOf_nonpos (hspread : (high - low).isFinite) (hlt : low.toRat < high.toRat)
    (hedge : scaleFloor.toRat / 2 < |(edgeOf low high).toRat|) :
    (edgeOf low high / stepsOf low high bins).toRat * (edgeOf low high).toRat ≤ 0 := by
  rcases h.stepsOf_cases hspread hedge with ⟨s, hinfinite⟩ | ⟨hratio, hne, hfinite, hvalue⟩
  · rw [hinfinite, (Binary.div_infinite h.isFinite_edgeOf s).2, zero_mul]
  · -- The steps are counted against the sign of the edge.
    have hcoarse := h.edgeOf_mul_coarseOf_nonpos hspread hlt
    have hquotient : (edgeOf low high).toRat / (coarseOf low high bins).toRat ≤ 0 := by
      rw [div_nonpos_iff]
      exact mul_nonpos_iff.mp hcoarse
    have hratioNonpos := (h.ratio_rounds hspread).1.nonpos hratio hquotient
    have hsteps := Binary.nearestInt_le hratio Binary.isFinite_zero
      (by rwa [Binary.toRat_zero])
    rw [show (0 : Single).nearestInt = 0 by decide] at hsteps
    have hstepsNonpos : (stepsOf low high bins).toRat ≤ 0 := by
      rw [hvalue]
      exact Int.cast_nonpos.mpr hsteps
    have hnonzero : (stepsOf low high bins).toRat ≠ 0 := by
      rw [hvalue]
      exact Int.cast_ne_zero.mpr hne
    have hrounds := Binary.div_rounds h.isFinite_edgeOf hfinite hnonzero
    refine hrounds.mul_nonpos (h.fitted_finite hspread hedge).1 ?_
    rw [div_mul_eq_mul_div]
    exact div_nonpos_of_nonneg_of_nonpos (mul_self_nonneg _) hstepsNonpos

end Spans

end Affine

/-! ## What is stored -/

namespace Config

variable {config : Config} {type : FloatType} {group : List (Binary type.format)}

theorem stored_scale_rounds (config : Config) (hne : group ≠ []) (hfinite : ∀ v ∈ group, v.isFinite)
    (hspread : (groupSpread group).isFinite) :
    Binary.Rounds (config.affineOf group).scale.toRat
        ((config.affineOf group).scale.narrow type.format) ∧
      ((config.affineOf group).stored type.format).scale.toRat =
        ((config.affineOf group).scale.narrow type.format).toRat := by
  have hscale := (config.scale_within hne hfinite hspread).1
  have hnarrow := (config.stored_scale hne hfinite hspread).1
  exact ⟨Binary.convert_rounds type.format hscale, (Binary.widen_finite hnarrow).2⟩

/-- The largest code times the stored scale is no more than about one and a half times the
difference of the extremes. -/
theorem maxCode_mul_stored_le (config : Config) (hne : group ≠ [])
    (hfinite : ∀ v ∈ group, v.isFinite) (hspread : (groupSpread group).isFinite)
    (hpast : scaleFloor.toRat / 2 < |(Affine.edgeOf (groupMin group) (groupMax group)).toRat|) :
    config.width.maxCode * |((config.affineOf group).stored type.format).scale.toRat| ≤
      152 / 100 * (groupSpread group).toRat + 1 / 100 := by
  have hspans := config.spans hne hfinite
  obtain ⟨-, -, -, hmany⟩ := config.bins_finite
  obtain ⟨hrounds, hstored⟩ := config.stored_scale_rounds hne hfinite hspread
  have hclose := hrounds.dist_stored_le (config.stored_scale hne hfinite hspread).1
  have hscale : |(config.affineOf group).scale.toRat| ≤ 151 / 100 *
      (Affine.stepOf (groupMin group) (groupMax group) config.bins).toRat := by
    rw [config.affineOf_past hne hfinite hspread hpast]
    exact hspans.fitted_le hspread hpast
  have hsteps := hspans.count_mul_stepOf_le hspread hmany
  have hstepPos := hspans.stepOf_pos hspread
  have hgrow := le_trans (abs_sub_abs_le_abs_sub _ _) hclose
  have hspreadPos := (hspans.spread_le hspread).1
  have hcount : (config.width.maxCode : ℚ) ≤ 255 := by exact_mod_cast hmany
  have hcountPos : (0 : ℚ) ≤ config.width.maxCode := Nat.cast_nonneg _
  rw [hstored]
  change config.width.maxCode * _ ≤ 152 / 100 * (groupMax group - groupMin group).toRat + 1 / 100
  -- What is left is about five numbers.
  generalize (groupMax group - groupMin group).toRat = spread at *
  generalize (Affine.stepOf (groupMin group) (groupMax group) config.bins).toRat = step at *
  generalize |(config.affineOf group).scale.toRat| = scale at *
  generalize |((config.affineOf group).scale.narrow type.format).toRat| = stored at *
  generalize (config.width.maxCode : ℚ) = count at *
  norm_num at hgrow
  have hstoredLe : stored ≤ 15159 / 10000 * step + 1 / 33554432 := by linarith
  calc count * stored ≤ count * (15159 / 10000 * step + 1 / 33554432) := by gcongr
    _ = 15159 / 10000 * (count * step) + count * (1 / 33554432) := by ring
    _ ≤ 152 / 100 * spread + 1 / 100 := by linarith

theorem code_mul_stored_le (config : Config) (hne : group ≠ []) (hfinite : ∀ v ∈ group, v.isFinite)
    (hspread : (groupSpread group).isFinite)
    (hpast : scaleFloor.toRat / 2 < |(Affine.edgeOf (groupMin group) (groupMax group)).toRat|)
    (v : Binary type.format) :
    (config.affineOf group).code config.bins v.widen *
        |((config.affineOf group).stored type.format).scale.toRat| ≤
      152 / 100 * (groupSpread group).toRat + 1 / 100 := by
  refine le_trans ?_ (config.maxCode_mul_stored_le hne hfinite hspread hpast)
  refine mul_le_mul_of_nonneg_right ?_ (abs_nonneg _)
  exact_mod_cast Affine.code_le (config.affineOf group) config v.widen

/-- Between two different extremes the stored scale leads from the bias past zero. -/
theorem stored_scale_mul_bias_nonpos (config : Config) (hne : group ≠ [])
    (hfinite : ∀ v ∈ group, v.isFinite) (hspread : (groupSpread group).isFinite)
    (hlt : (groupMin group).toRat < (groupMax group).toRat) :
    ((config.affineOf group).stored type.format).scale.toRat *
      ((config.affineOf group).stored type.format).bias.toRat ≤ 0 := by
  have hspans := config.spans hne hfinite
  obtain ⟨hrounds, hstored⟩ := config.stored_scale_rounds hne hfinite hspread
  rw [hstored, (config.stored_bias hne hfinite).2.2]
  refine hrounds.mul_nonpos (config.stored_scale hne hfinite hspread).1 ?_
  rw [affineOf, Affine.ofGroup]
  rcases hspans.ofRange_cases hspread with ⟨-, hrange⟩ | ⟨hpast, hrange⟩
  · rw [hrange, Binary.toRat_zero, mul_zero]
  · rw [hrange]
    exact hspans.fitted_mul_edgeOf_nonpos hspread hlt hpast

end Config

end SubByte
