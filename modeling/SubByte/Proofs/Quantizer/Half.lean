/-
# Half — weights that all have room

In the half format finite weights stay finite without any condition (`restored_half`), but
with little to spare.  The arithmetic is in singles, so only the last narrowing could
overflow, when a product is larger than the bias by more than the largest half.

The steps from zero to the edge decide it.  When they are half as many as there are codes, or
more, no product is past twice the edge.  When they are fewer, the extremes are equally
far from zero, and no code is past twice the steps (`code_le_twice_steps`).  Then the products
are twice the edge up to the rounding of the stored scale, one part in 1024 of it, which
fits for every half but the two largest ones.  With those the steps are never that few,
for any width (`steps_at_top`).
-/
import SubByte.Proofs.Quantizer.Overflow

namespace SubByte

namespace Config

variable {config : Config} {group : List (Binary FloatType.f16.format)}

/-! ## The two largest halves -/

theorem toRat_half {i : Fin FloatType.f16.format.magnitudes} {n : Nat}
    (h : FloatType.f16.format.unitsOf i = n * 2 ^ 24) :
    (Binary.finite false i : Binary FloatType.f16.format).toRat = n := by
  have hone : FloatType.f16.format.unitsPerOne = 2 ^ 24 := by decide
  rw [Binary.toRat_finite, hone, h]
  simp only [Binary.signed, Bool.false_eq_true, if_false]
  push_cast
  norm_num

theorem toRat_largest_half : (Binary.largest FloatType.f16.format).toRat = (65504 : Nat) :=
  toRat_half (by decide)

theorem abs_le_largest_half {v : Binary FloatType.f16.format} (hv : v.isFinite) :
    |v.toRat| ≤ 65504 := by
  have hle := Binary.abs_toRat_le hv
  rw [toRat_largest_half] at hle
  exact_mod_cast hle

/-- Past 65440 there are two more halves. -/
theorem half_top {v : Binary FloatType.f16.format} (hv : v.isFinite) (h : 65440 < |v.toRat|) :
    ∃ top : Nat, (top = 65472 ∨ top = 65504) ∧ |v.toRat| = top := by
  have habs : v.abs.isFinite := by rwa [Binary.isFinite_abs]
  have hlargest := abs_le_largest_half hv
  rw [← Binary.toRat_abs] at h hlargest ⊢
  have hfirst : ((65472 : Nat) : ℚ) ≤ v.abs.toRat := by
    have hnext := Binary.next_le (F := FloatType.f16.format) (i := 31741) (by decide) habs
      (by rw [toRat_half (n := 65440) (by decide)]; exact_mod_cast h)
    rwa [toRat_half (n := 65472) (by decide)] at hnext
  rcases eq_or_lt_of_le hfirst with heq | hlt
  · exact ⟨65472, .inl rfl, heq.symm⟩
  · have hnext := Binary.next_le (F := FloatType.f16.format) (i := 31742) (by decide) habs
      (by rw [toRat_half (n := 65472) (by decide)]; exact hlt)
    rw [toRat_half (n := 65504) (by decide)] at hnext
    exact ⟨65504, .inr rfl, le_antisymm (by exact_mod_cast hlargest) hnext⟩

/-- For a difference of twice one of the two largest halves, the steps in one of them, as they
are computed. -/
theorem steps_table (width : CodeWidth) {edge : Nat} (hedge : edge = 65472 ∨ edge = 65504) :
    let step : Single := .ofNat .single (2 * edge) / .ofNat .single width.maxCode
    step.isFinite ∧ step.lt scaleFloor = false ∧ (.ofNat .single edge / step : Single).isFinite ∧
      (width.maxCode + 1 : Int) ≤ 2 * (.ofNat .single edge / step : Single).nearestInt := by
  rcases hedge with rfl | rfl
  · cases width <;> decide +kernel
  · cases width <;> decide +kernel

/-- An edge of one of the two largest halves is half as many steps as there are codes, or
more. -/
theorem steps_at_top {low high : Single}
    (h : Affine.Spans low high config.bins config.width.maxCode)
    (hspread : (high - low).isFinite) {edge : Nat} (hedge : edge = 65472 ∨ edge = 65504)
    (hvalue : |(Affine.edgeOf low high).toRat| = edge)
    (hratio : (Affine.edgeOf low high / Affine.coarseOf low high config.bins).isFinite) :
    (config.width.maxCode + 1 : Int) ≤
      2 * |(Affine.edgeOf low high / Affine.coarseOf low high config.bins).nearestInt| := by
  obtain ⟨hstep, hfloor, hsteps, hmany⟩ := steps_table config.width hedge
  have hshort : ∀ n ≤ 2 * edge, n ≤ 2 * 2 ^ 23 := by
    rcases hedge with rfl | rfl
    · exact fun n hn => Nat.le_trans hn (by decide)
    · exact fun n hn => Nat.le_trans hn (by decide)
  obtain ⟨hdouble, hdoubleValue⟩ := Binary.ofNat_finite (hshort (2 * edge) le_rfl)
  obtain ⟨hwhole, hwholeValue⟩ := Binary.ofNat_finite (hshort edge (by omega))
  have hcountPos : (0 : ℚ) < config.width.maxCode := by
    exact_mod_cast Nat.lt_of_lt_of_le (by decide) h.three_le
  -- The step is no larger than that of the largest difference.
  have hstepLe : (Affine.stepOf low high config.bins).toRat ≤
      (.ofNat .single (2 * edge) / config.bins : Single).toRat := by
    obtain ⟨hquotient, -, hrounds⟩ := h.quotient_finite hspread
    have htop := Binary.div_rounds hdouble h.finiteBins h.bins_ne_zero
    rw [hdoubleValue, h.bins_eq] at htop
    have hspreadLe := (h.spread_le hspread).2
    rw [hvalue] at hspreadLe
    rw [(h.stepOf_finite hspread).2]
    refine sup_le ?_ ((Binary.lt_eq_false_iff hstep rfl).mp hfloor)
    refine hrounds.toRat_le htop hquotient hstep ?_
    refine div_le_div_of_nonneg_right ?_ (le_of_lt hcountPos)
    push_cast
    exact hspreadLe
  -- So the steps are no fewer.
  have hstepPos := h.stepOf_pos hspread
  have hratioAbs : (Affine.edgeOf low high / Affine.coarseOf low high config.bins).abs.isFinite := by
    rwa [Binary.isFinite_abs]
  have hrounds := (h.ratio_rounds hspread).2
  have htop := Binary.div_rounds hwhole hstep (ne_of_gt (lt_of_lt_of_le hstepPos hstepLe))
  have hratioLe : (.ofNat .single edge / (.ofNat .single (2 * edge) / config.bins) : Single).toRat ≤
      (Affine.edgeOf low high / Affine.coarseOf low high config.bins).abs.toRat := by
    refine htop.toRat_le hrounds hsteps hratioAbs ?_
    rw [hwholeValue, hvalue]
    exact div_le_div_of_nonneg_left (Nat.cast_nonneg edge) hstepPos hstepLe
  have hnearest := Binary.nearestInt_le hsteps hratioAbs hratioLe
  rw [Binary.nearestInt_abs] at hnearest
  refine le_trans hmany ?_
  exact mul_le_mul_of_nonneg_left hnearest (by decide)

/-! ## Codes -/

/-- No code is past twice the steps from zero to the edge. -/
theorem code_le_twice_steps (config : Config) {type : FloatType} {group : List (Binary type.format)}
    (hfinite : ∀ v ∈ group, v.isFinite) (hspread : (groupSpread group).isFinite) {steps : Nat}
    (hedge : 1 ≤ |(Affine.edgeOf (groupMin group) (groupMax group)).toRat|)
    (hpos : 0 < steps) (hfew : steps ≤ 127)
    (hbias : (config.affineOf group).bias = Affine.edgeOf (groupMin group) (groupMax group))
    (hscale : (config.affineOf group).scale.isFinite)
    (hclose : |(|(config.affineOf group).scale.toRat| -
        |(Affine.edgeOf (groupMin group) (groupMax group)).toRat| / steps)| ≤
      |(Affine.edgeOf (groupMin group) (groupMax group)).toRat| / steps / 2 ^ 24 + 1 / 2 ^ 150)
    {v : Binary type.format} (hv : v ∈ group) :
    (config.affineOf group).code config.bins v.widen ≤ 2 * steps := by
  have hspans := config.spans (List.ne_nil_of_mem hv) hfinite
  obtain ⟨hwide, hwideValue⟩ := Binary.widen_finite (hfinite v hv)
  have hedgeFinite := hspans.isFinite_edgeOf
  have hspreadLe := (hspans.spread_le hspread).2
  have hstepsPos : (1 : ℚ) ≤ steps := by exact_mod_cast hpos
  have hstepsFew : (steps : ℚ) ≤ 127 := by exact_mod_cast hfew
  -- The weight is no further from the bias than the extremes are from each other.
  have hdistance := config.distance_edge_le hfinite hv
  have hdifference := Binary.sub_rounds hwide hedgeFinite
  rw [hwideValue] at hdifference
  have hspreadRounds := Binary.sub_rounds hspans.finiteHigh hspans.finiteLow
  have hfiniteAbs := hdifference.abs.isFinite_of_le hspreadRounds hspread (abs_nonneg _) hdistance
  have hdifferenceLe := hdifference.abs.toRat_le hspreadRounds hfiniteAbs hspread hdistance
  rw [Binary.isFinite_abs] at hfiniteAbs
  rw [Binary.toRat_abs] at hdifferenceLe
  -- The quotient is twice the steps at most, but for the rounding of the scale.
  have hlower := (abs_le.mp hclose).1
  generalize hexact : |(Affine.edgeOf (groupMin group) (groupMax group)).toRat| / steps = exact
    at hlower hclose
  rw [div_eq_iff (by linarith)] at hexact
  have hexactPos : 1 / 127 ≤ exact := by
    rw [hexact] at hedge
    by_contra hsmall
    nlinarith [not_le.mp hsmall]
  have hscaleLe : 999999 / 1000000 * exact ≤ |(config.affineOf group).scale.toRat| := by
    norm_num at hlower
    linarith
  have hscalePos : 0 < |(config.affineOf group).scale.toRat| := by linarith
  have hquotient := Binary.div_rounds (hbias ▸ hfiniteAbs) hscale (abs_pos.mp hscalePos)
  have hquotientLe : |(v.widen - (config.affineOf group).bias).toRat /
      (config.affineOf group).scale.toRat| ≤ 2 * steps + 1 / 1000 := by
    rw [abs_div, div_le_iff₀ hscalePos, hbias]
    have hslack : 0 ≤ exact * (999999 / 1000000000 - 2 / 1000000 * steps) :=
      mul_nonneg (by linarith) (by linarith)
    calc |(v.widen - Affine.edgeOf (groupMin group) (groupMax group)).toRat|
        ≤ 2 * (exact * steps) := by linarith
      _ ≤ (2 * steps + 1 / 1000) * (999999 / 1000000 * exact) := by linarith
      _ ≤ (2 * steps + 1 / 1000) * |(config.affineOf group).scale.toRat| :=
          mul_le_mul_of_nonneg_left hscaleLe (by linarith)
  obtain ⟨hbound, hboundValue⟩ :=
    Binary.ofNat_finite (show 2 * steps + 1 ≤ 2 * 2 ^ 23 by omega)
  obtain ⟨hfiniteQuotient, -⟩ := hquotient.within hbound (by
    rw [hboundValue]
    push_cast
    linarith)
  have hquotientClose := (abs_le.mp (hquotient.dist_single_le hfiniteQuotient)).2
  refine Affine.code_le_of_lt config hfiniteQuotient ?_
  have hself := (abs_le.mp hquotientLe).2
  push_cast
  norm_num at hquotientClose
  linarith

/-! ## Products -/

theorem half_spread (hne : group ≠ []) (hfinite : ∀ v ∈ group, v.isFinite) :
    (groupSpread group).isFinite := by
  obtain ⟨low, hlow, hmin, -⟩ := groupMin_eq hne hfinite
  obtain ⟨high, hhigh, hmax, -⟩ := groupMax_eq hne hfinite
  obtain ⟨hlowWide, hlowValue⟩ := Binary.widen_finite (hfinite low hlow)
  obtain ⟨hhighWide, hhighValue⟩ := Binary.widen_finite (hfinite high hhigh)
  have hlowLe := abs_le.mp (abs_le_largest_half (hfinite low hlow))
  have hhighLe := abs_le.mp (abs_le_largest_half (hfinite high hhigh))
  obtain ⟨hroom, hroomValue⟩ := Binary.ofNat_finite (show 131008 ≤ 2 * 2 ^ 23 by decide)
  rw [groupSpread, hmin, hmax]
  refine ((Binary.sub_rounds hhighWide hlowWide).within hroom ?_).1
  rw [hroomValue, hlowValue, hhighValue, abs_le]
  push_cast
  constructor <;> linarith

theorem half_edge_le (hne : group ≠ []) (hfinite : ∀ v ∈ group, v.isFinite) :
    |(Affine.edgeOf (groupMin group) (groupMax group)).toRat| ≤ 65504 := by
  obtain ⟨edge, hmem, hvalue, -⟩ := exists_edge hne hfinite
  rw [hvalue]
  exact abs_le_largest_half (hfinite edge hmem)

theorem maxCode_odd (width : CodeWidth) : width.maxCode % 2 = 1 := by
  cases width <;> decide

theorem half_stored_le (config : Config) (hne : group ≠ []) (hfinite : ∀ v ∈ group, v.isFinite) :
    |((config.affineOf group).stored FloatType.f16.format).scale.toRat| ≤
      (1 + 1 / 2 ^ 11) * |(config.affineOf group).scale.toRat| + 1 / 2 ^ 25 := by
  have hspread := half_spread hne hfinite
  obtain ⟨hrounds, hstored⟩ := config.stored_scale_rounds hne hfinite hspread
  have hclose := hrounds.dist_half_le (config.stored_scale hne hfinite hspread).1
  rw [hstored]
  refine le_trans (sub_le_iff_le_add.mp (le_trans (abs_sub_abs_le_abs_sub _ _) hclose)) ?_
  linarith

/-- A product whose scale is an edge divided by a number of steps is no larger than the edge
as many times as the code is larger than this number. -/
theorem half_product_steps (ratio : ℚ) {code steps : Nat} {edge scale stored : ℚ}
    (hcode : code ≤ 255) (hsteps : 0 < steps) (hedge : 0 ≤ edge) (hratio : (code : ℚ) ≤ ratio * steps)
    (hscale : |scale - edge / steps| ≤ edge / steps / 2 ^ 24 + 1 / 2 ^ 150)
    (hstored : stored ≤ (1 + 1 / 2 ^ 11) * scale + 1 / 2 ^ 25) :
    code * stored ≤ 10004884 / 10000000 * (ratio * edge) + 1 / 10000 := by
  have hstepsPos : (0 : ℚ) < steps := by exact_mod_cast hsteps
  have hcodeLe : (code : ℚ) ≤ 255 := by exact_mod_cast hcode
  have hupper := (abs_le.mp hscale).2
  have hproduct : code * (edge / steps) ≤ ratio * edge := by
    rw [mul_div_assoc', div_le_iff₀ hstepsPos]
    nlinarith
  have hexactPos : 0 ≤ edge / steps := div_nonneg hedge (le_of_lt hstepsPos)
  generalize edge / steps = exact at hupper hproduct hexactPos
  have hstoredLe : stored ≤ 10004884 / 10000000 * exact + 1 / 10000000 := by
    norm_num at hupper hstored
    linarith
  calc code * stored ≤ code * (10004884 / 10000000 * exact + 1 / 10000000) := by gcongr
    _ = 10004884 / 10000000 * (code * exact) + code * (1 / 10000000) := by ring
    _ ≤ 10004884 / 10000000 * (ratio * edge) + 1 / 10000 := by linarith

/-- The scale of a group of halves is nothing, or the edge divided by a number of steps, and this
number is not small next to the two largest halves. -/
theorem half_steps (config : Config) (hne : group ≠ []) (hfinite : ∀ v ∈ group, v.isFinite)
    (hpast : scaleFloor.toRat / 2 < |(Affine.edgeOf (groupMin group) (groupMax group)).toRat|) :
    (config.affineOf group).scale.toRat = 0 ∨ ∃ steps : Nat, 0 < steps ∧
      |(|(config.affineOf group).scale.toRat| -
          |(Affine.edgeOf (groupMin group) (groupMax group)).toRat| / steps)| ≤
        |(Affine.edgeOf (groupMin group) (groupMax group)).toRat| / steps / 2 ^ 24 + 1 / 2 ^ 150 ∧
      (65440 < |(Affine.edgeOf (groupMin group) (groupMax group)).toRat| →
        config.width.maxCode + 1 ≤ 2 * steps) := by
  have hspread := half_spread hne hfinite
  have hspans := config.spans hne hfinite
  rw [config.affineOf_past hne hfinite hspread hpast]
  rcases hspans.stepsOf_cases hspread hpast with ⟨s, hinfinite⟩ | ⟨hratio, hsteps, hwhole, hvalue⟩
  · left
    rw [hinfinite]
    exact (Binary.div_infinite hspans.isFinite_edgeOf s).2
  · right
    have hclose := hspans.fitted_close hspread hpast hsteps hwhole hvalue
    rw [← Int.cast_abs, ← Nat.cast_natAbs] at hclose
    refine ⟨_, Int.natAbs_pos.mpr hsteps, hclose, fun hnear => ?_⟩
    obtain ⟨edge, hmem, hedge, -⟩ := exists_edge hne hfinite
    rw [hedge] at hnear
    obtain ⟨top, htop, htopValue⟩ := half_top (hfinite edge hmem) hnear
    rw [← hedge] at htopValue
    have hmany := steps_at_top hspans hspread htop htopValue hratio
    rw [← Int.natCast_natAbs] at hmany
    exact_mod_cast hmany

/-- A product of halves takes no more from the bias than the largest half and the bias make
together, with a little room for its rounding. -/
theorem half_product_le (config : Config) (hfinite : ∀ v ∈ group, v.isFinite)
    (hpast : scaleFloor.toRat / 2 < |(Affine.edgeOf (groupMin group) (groupMax group)).toRat|)
    {v : Binary FloatType.f16.format} (hv : v ∈ group) :
    (config.affineOf group).code config.bins v.widen *
        |((config.affineOf group).stored FloatType.f16.format).scale.toRat| ≤
      |(Affine.edgeOf (groupMin group) (groupMax group)).toRat| + 65504 - 1 / 100 := by
  have hne : group ≠ [] := List.ne_nil_of_mem hv
  have hspread := half_spread hne hfinite
  obtain ⟨-, -, -, hmany⟩ := config.bins_finite
  have hcodeLe := Affine.code_le (config.affineOf group) config v.widen
  have hedgeLe := half_edge_le hne hfinite
  by_cases hsmall : |(Affine.edgeOf (groupMin group) (groupMax group)).toRat| < 1
  · -- All products are small.
    have hproduct := config.code_mul_stored_le hne hfinite hspread hpast v
    have hspreadLe : (groupSpread group).toRat ≤ _ :=
      ((config.spans hne hfinite).spread_le hspread).2
    linarith [abs_nonneg (Affine.edgeOf (groupMin group) (groupMax group)).toRat]
  have hlarge := not_lt.mp hsmall
  have hstored := config.half_stored_le hne hfinite
  rcases config.half_steps hne hfinite hpast with hzero | ⟨steps, hpos, hclose, htop⟩
  · rw [hzero, abs_zero, mul_zero, zero_add] at hstored
    have hcode : ((config.affineOf group).code config.bins v.widen : ℚ) ≤ 255 := by
      exact_mod_cast Nat.le_trans hcodeLe hmany
    have hproduct := mul_le_mul hcode hstored (abs_nonneg _) (by norm_num)
    norm_num at hproduct
    linarith
  by_cases hfew : config.width.maxCode + 1 ≤ 2 * steps
  · -- The largest code is not quite twice the number of steps.
    have hcode : 128 * (config.affineOf group).code config.bins v.widen ≤ 255 * steps := by omega
    have hcodeRat : (128 : ℚ) * (config.affineOf group).code config.bins v.widen ≤ 255 * steps := by
      exact_mod_cast hcode
    have hproduct := half_product_steps (255 / 128) (Nat.le_trans hcodeLe hmany) hpos
      (abs_nonneg _) (by linarith) hclose hstored
    linarith
  · -- There are so few steps only below the two largest halves.
    have hnear : |(Affine.edgeOf (groupMin group) (groupMax group)).toRat| ≤ 65440 :=
      not_lt.mp fun hlt => hfew (htop hlt)
    have hodd := maxCode_odd config.width
    have hcode := config.code_le_twice_steps hfinite hspread hlarge hpos (by omega)
      (by rw [config.affineOf_past hne hfinite hspread hpast])
      (config.scale_within hne hfinite hspread).1 hclose hv
    have hproduct := half_product_steps 2 (Nat.le_trans hcodeLe hmany) hpos
      (abs_nonneg _) (by exact_mod_cast hcode) hclose hstored
    linarith

/-- In the half format all finite weights stay finite. -/
theorem restored_half (config : Config) (hfinite : ∀ v ∈ group, v.isFinite)
    {v : Binary FloatType.f16.format} (hv : v ∈ group) : (config.restored group v).isFinite := by
  have hne : group ≠ [] := List.ne_nil_of_mem hv
  have hspread := half_spread hne hfinite
  rcases config.code_zero_or hne hfinite hspread with hzero | ⟨hlt, hpast⟩
  · exact (config.restored_of_code_zero hne hfinite hspread (hzero v hv)).1
  have hproduct := config.half_product_le hfinite hpast hv
  have hedgeLe := half_edge_le hne hfinite
  obtain ⟨-, hscale⟩ := config.stored_scale hne hfinite hspread
  obtain ⟨hwhole, hvalue⟩ := Binary.ofNat_finite (config.code_short (config.affineOf group) v.widen)
  obtain ⟨hroom, hroomValue⟩ := Binary.ofNat_finite (show 131008 ≤ 2 * 2 ^ 23 by decide)
  have hrounds := Binary.mul_rounds hwhole hscale
  rw [hvalue] at hrounds
  have hexact : |((config.affineOf group).code config.bins v.widen : ℚ) *
      ((config.affineOf group).stored FloatType.f16.format).scale.toRat| ≤
        |(Affine.edgeOf (groupMin group) (groupMax group)).toRat| + 65504 - 1 / 100 := by
    rwa [abs_mul, Nat.abs_cast]
  have hfiniteProduct := (hrounds.within hroom (by
    rw [hroomValue]
    push_cast
    linarith)).1
  refine config.restored_finite_of_product hne hfinite hspread hlt hfiniteProduct ?_
  have hclose := hrounds.dist_single_le hfiniteProduct
  have hgrow := le_trans (abs_sub_abs_le_abs_sub _ _) hclose
  rw [config.stored_bias_past hne hfinite hspread hpast, toRat_largest_half]
  norm_num at hgrow ⊢
  linarith

end Config

end SubByte
