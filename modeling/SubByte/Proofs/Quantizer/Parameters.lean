/-
# Parameters — the scale and the bias of a range

The parameters of a range are found in four steps: the coarse step between two codes, kept
above the floor (`stepOf`); its sign, which leads from the edge toward the other extreme
(`coarseOf`); the whole number of such steps from zero to the edge (`stepsOf`); and the
scale that makes them fit.  Here is what each step is, as a number, for finite extremes whose
difference is finite.

The difference is at most twice the edge, and there are three steps or more, so a step above
the floor never passes the edge.  That is why an edge gives way to zero only when the floor
was taken, and exactly when it is no more than half the floor (`isZero_stepsOf_iff`).
-/
import SubByte.Proofs.Quantizer.Extremes

namespace SubByte

namespace Affine

/-! ## The floor -/

theorem scaleFloor_toRat :
    scaleFloor.toRat = 71362385469245773244339300959829098496 / 2 ^ 149 := by
  have hunits : scaleFloor.units = 71362385469245773244339300959829098496 := by decide
  have hone : Format.single.unitsPerOne = 2 ^ 149 := by decide
  rw [Binary.toRat, hunits, hone]
  norm_num

theorem scaleFloor_pos : 0 < scaleFloor.toRat := by
  rw [scaleFloor_toRat]
  norm_num

theorem scaleFloor_le_one : scaleFloor.toRat ≤ 1 := by
  rw [scaleFloor_toRat]
  norm_num

theorem exists_past_half_floor :
    ∃ next : Single, next.isFinite ∧ (next / scaleFloor).isFinite ∧
      1 / 2 < (next / scaleFloor).toRat ∧
      ∀ a : Single, a.isFinite → scaleFloor.toRat / 2 < a.toRat → next.toRat ≤ a.toRat := by
  have hone : Format.single.unitsPerOne = 2 ^ 149 := by decide
  let half : Single := .finite false ⟨861323157, by decide⟩
  let next : Single := .finite false ⟨861323158, by decide⟩
  have hhalf : half.toRat = scaleFloor.toRat / 2 := by
    have hunits : half.units = 35681192734622886622169650479914549248 := by decide
    rw [scaleFloor_toRat, Binary.toRat, hunits, hone]
    norm_num
  refine ⟨next, rfl, by decide, ?_, ?_⟩
  · have hunits : (next / scaleFloor).units = 2 ^ 148 + 2 ^ 125 := by decide
    rw [Binary.toRat, hunits, hone]
    norm_num
  · intro a ha hlt
    rw [← hhalf] at hlt
    exact Binary.next_le _ ha hlt

/-! ## Steps -/

/-- The extreme that the codes count from. -/
def edgeOf (low high : Single) : Single :=
  if high.abs.lt low.abs then low else high

/-- The step between two codes, before it is fitted to the edge. -/
def stepOf (low high bins : Single) : Single :=
  ((high - low) / bins).max scaleFloor

/-- The step with the sign that leads away from the edge. -/
def coarseOf (low high bins : Single) : Single :=
  if high.abs.lt low.abs then stepOf low high bins else -stepOf low high bins

/-- The whole number of steps from zero to the edge. -/
def stepsOf (low high bins : Single) : Single :=
  (edgeOf low high / coarseOf low high bins).roundEven

theorem ofRange_eq (low high bins : Single) :
    ofRange low high bins =
      if (stepsOf low high bins).isZero then ⟨coarseOf low high bins, 0⟩
      else ⟨edgeOf low high / stepsOf low high bins, edgeOf low high⟩ := rfl

/-- Finite extremes in order, and the number of steps between them. -/
structure Spans (low high bins : Single) (count : Nat) : Prop where
  finiteLow : low.isFinite
  finiteHigh : high.isFinite
  le : low.toRat ≤ high.toRat
  finiteBins : bins.isFinite
  bins_eq : bins.toRat = count
  three_le : 3 ≤ count

variable {low high bins : Single} {count : Nat}

/-! ## The edge -/

theorem abs_lt_iff (hlow : low.isFinite) (hhigh : high.isFinite) :
    high.abs.lt low.abs = true ↔ |high.toRat| < |low.toRat| := by
  rw [Binary.lt_iff (by rwa [Binary.isFinite_abs]) (by rwa [Binary.isFinite_abs]),
    Binary.toRat_abs, Binary.toRat_abs]

theorem toRat_edgeOf (hlow : low.isFinite) (hhigh : high.isFinite) :
    (edgeOf low high).isFinite ∧
      (edgeOf low high).toRat = if |high.toRat| < |low.toRat| then low.toRat else high.toRat := by
  rw [edgeOf]
  by_cases h : |high.toRat| < |low.toRat|
  · rw [if_pos ((abs_lt_iff hlow hhigh).mpr h), if_pos h]
    exact ⟨hlow, rfl⟩
  · rw [if_neg (fun hlt => h ((abs_lt_iff hlow hhigh).mp hlt)), if_neg h]
    exact ⟨hhigh, rfl⟩

theorem abs_le_edgeOf (hlow : low.isFinite) (hhigh : high.isFinite) :
    |low.toRat| ≤ |(edgeOf low high).toRat| ∧ |high.toRat| ≤ |(edgeOf low high).toRat| := by
  rw [(toRat_edgeOf hlow hhigh).2]
  split
  · next h => exact ⟨le_rfl, le_of_lt h⟩
  · next h => exact ⟨not_lt.mp h, le_rfl⟩

namespace Spans

variable (h : Spans low high bins count)
include h

theorem isFinite_edgeOf : (edgeOf low high).isFinite :=
  (toRat_edgeOf h.finiteLow h.finiteHigh).1

theorem isFinite_abs_edgeOf : (edgeOf low high).abs.isFinite := by
  rw [Binary.isFinite_abs]
  exact h.isFinite_edgeOf

/-- The difference of the extremes is at most twice the edge, also when it is rounded. -/
theorem spread_le (hspread : (high - low).isFinite) :
    0 ≤ (high - low).toRat ∧ (high - low).toRat ≤ 2 * |(edgeOf low high).toRat| := by
  have hrounds := Binary.sub_rounds h.finiteHigh h.finiteLow
  obtain ⟨hlow, hhigh⟩ := abs_le_edgeOf h.finiteLow h.finiteHigh
  have hle : high.toRat - low.toRat ≤ 2 * (edgeOf low high).abs.toRat := by
    rw [Binary.toRat_abs]
    linarith [(abs_le.mp hlow).1, (abs_le.mp hhigh).2]
  have hpos : 0 ≤ (edgeOf low high).abs.toRat := by
    rw [Binary.toRat_abs]
    exact abs_nonneg _
  have hdouble := hrounds.le_double hspread h.isFinite_abs_edgeOf hpos hle
  rw [Binary.toRat_abs] at hdouble
  exact ⟨hrounds.nonneg hspread (sub_nonneg.mpr h.le), hdouble⟩

/-! ## The step -/

theorem bins_ne_zero : bins.toRat ≠ 0 := by
  rw [h.bins_eq]
  exact Nat.cast_ne_zero.mpr (Nat.ne_of_gt (Nat.lt_of_lt_of_le (by decide) h.three_le))

theorem quotient_finite (hspread : (high - low).isFinite) :
    ((high - low) / bins).isFinite ∧ 0 ≤ ((high - low) / bins).toRat ∧
      Binary.Rounds ((high - low).toRat / count) ((high - low) / bins) := by
  have hrounds := Binary.div_rounds hspread h.finiteBins h.bins_ne_zero
  rw [h.bins_eq] at hrounds
  obtain ⟨hpos, -⟩ := h.spread_le hspread
  have hcount : (1 : ℚ) ≤ count := by
    exact_mod_cast Nat.le_trans (by decide) h.three_le
  have hle : |(high - low).toRat / count| ≤ (high - low).toRat := by
    rw [abs_of_nonneg (by positivity)]
    exact div_le_self hpos hcount
  have hfinite := (hrounds.within hspread hle).1
  exact ⟨hfinite, hrounds.nonneg hfinite (by positivity), hrounds⟩

theorem stepOf_finite (hspread : (high - low).isFinite) :
    (stepOf low high bins).isFinite ∧
      (stepOf low high bins).toRat = ((high - low) / bins).toRat ⊔ scaleFloor.toRat :=
  Binary.max_finite (h.quotient_finite hspread).1 rfl

theorem floor_le_stepOf (hspread : (high - low).isFinite) :
    scaleFloor.toRat ≤ (stepOf low high bins).toRat := by
  rw [(h.stepOf_finite hspread).2]
  exact le_sup_right

theorem stepOf_le (hspread : (high - low).isFinite) :
    (stepOf low high bins).toRat = scaleFloor.toRat ∨
      (stepOf low high bins).toRat ≤ |(edgeOf low high).toRat| := by
  rw [(h.stepOf_finite hspread).2]
  rcases le_total ((high - low) / bins).toRat scaleFloor.toRat with hfloor | hfloor
  · exact .inl (sup_eq_right.mpr hfloor)
  · right
    rw [sup_eq_left.mpr hfloor]
    obtain ⟨hfinite, -, hrounds⟩ := h.quotient_finite hspread
    obtain ⟨hpos, hle⟩ := h.spread_le hspread
    have hcount : (3 : ℚ) ≤ count := by exact_mod_cast h.three_le
    have hquotient : |(high - low).toRat / count| ≤ (edgeOf low high).abs.toRat := by
      rw [abs_of_nonneg (by positivity), Binary.toRat_abs, div_le_iff₀ (by linarith)]
      nlinarith [abs_nonneg (edgeOf low high).toRat]
    have hwithin := (hrounds.within h.isFinite_abs_edgeOf hquotient).2
    rw [Binary.toRat_abs] at hwithin
    exact le_trans (le_abs_self _) hwithin

theorem stepOf_eq_floor (hspread : (high - low).isFinite)
    (hedge : |(edgeOf low high).toRat| ≤ scaleFloor.toRat / 2) :
    (stepOf low high bins).toRat = scaleFloor.toRat := by
  rcases h.stepOf_le hspread with hfloor | hle
  · exact hfloor
  · have hfloor := h.floor_le_stepOf hspread
    linarith [abs_nonneg (edgeOf low high).toRat]

theorem stepOf_pos (hspread : (high - low).isFinite) : 0 < (stepOf low high bins).toRat :=
  lt_of_lt_of_le scaleFloor_pos (h.floor_le_stepOf hspread)

theorem coarseOf_finite (hspread : (high - low).isFinite) :
    (coarseOf low high bins).isFinite ∧
      |(coarseOf low high bins).toRat| = (stepOf low high bins).toRat := by
  obtain ⟨hfinite, -⟩ := h.stepOf_finite hspread
  have hpos := le_of_lt (h.stepOf_pos hspread)
  rw [coarseOf]
  split
  · exact ⟨hfinite, abs_of_nonneg hpos⟩
  · rw [Binary.isFinite_neg, Binary.toRat_neg, abs_neg]
    exact ⟨hfinite, abs_of_nonneg hpos⟩

/-- Between two different extremes the signed step leads from the edge past zero. -/
theorem edgeOf_mul_coarseOf_nonpos (hspread : (high - low).isFinite) (hne : low.toRat < high.toRat) :
    (edgeOf low high).toRat * (coarseOf low high bins).toRat ≤ 0 := by
  have hpos := le_of_lt (h.stepOf_pos hspread)
  rw [(toRat_edgeOf h.finiteLow h.finiteHigh).2, coarseOf]
  by_cases hlow : |high.toRat| < |low.toRat|
  · rw [if_pos ((abs_lt_iff h.finiteLow h.finiteHigh).mpr hlow), if_pos hlow]
    refine mul_nonpos_of_nonpos_of_nonneg ?_ hpos
    -- The least of the two is the larger one only below zero.
    by_contra hneg
    rw [abs_of_pos (not_le.mp hneg)] at hlow
    linarith [le_abs_self high.toRat]
  · rw [if_neg (fun hlt => hlow ((abs_lt_iff h.finiteLow h.finiteHigh).mp hlt)), if_neg hlow,
      Binary.toRat_neg, mul_neg, neg_nonpos]
    refine mul_nonneg ?_ hpos
    by_contra hneg
    rw [abs_of_neg (not_le.mp hneg)] at hlow
    linarith [neg_le_abs low.toRat]

/-! ## The number of steps -/

theorem ratio_rounds (hspread : (high - low).isFinite) :
    Binary.Rounds ((edgeOf low high).toRat / (coarseOf low high bins).toRat)
        (edgeOf low high / coarseOf low high bins) ∧
      Binary.Rounds (|(edgeOf low high).toRat| / (stepOf low high bins).toRat)
        (edgeOf low high / coarseOf low high bins).abs := by
  obtain ⟨hfinite, habs⟩ := h.coarseOf_finite hspread
  have hne : (coarseOf low high bins).toRat ≠ 0 := by
    intro hzero
    rw [hzero, abs_zero] at habs
    exact absurd habs.symm (ne_of_gt (h.stepOf_pos hspread))
  have hrounds := Binary.div_rounds h.isFinite_edgeOf hfinite hne
  refine ⟨hrounds, ?_⟩
  rw [← habs, ← abs_div]
  exact hrounds.abs

/-- The edge is no whole number of steps away from zero exactly when it is no more than half
the floor. -/
theorem isZero_stepsOf_iff (hspread : (high - low).isFinite) :
    (stepsOf low high bins).isZero = true ↔
      |(edgeOf low high).toRat| ≤ scaleFloor.toRat / 2 := by
  have hstep := h.stepOf_pos hspread
  have hrounds := (h.ratio_rounds hspread).2
  have hratio : (stepsOf low high bins).isZero = true ↔
      (edgeOf low high / coarseOf low high bins).abs.isFinite ∧
        (edgeOf low high / coarseOf low high bins).abs.toRat ≤ 1 / 2 := by
    rw [stepsOf, Binary.isFinite_abs, Binary.toRat_abs]
    generalize edgeOf low high / coarseOf low high bins = ratio
    cases hratio : ratio with
    | nan => exact ⟨nofun, nofun⟩
    | infinite s => exact ⟨nofun, nofun⟩
    | finite s i =>
        rw [Binary.isZero_roundEven_iff rfl]
        exact ⟨fun hle => ⟨rfl, hle⟩, fun hle => hle.2⟩
  rw [hratio]
  generalize (edgeOf low high / coarseOf low high bins).abs = ratio at hrounds
  constructor
  · rintro ⟨hfinite, hle⟩
    by_contra hedge
    have hedge := not_le.mp hedge
    rcases h.stepOf_le hspread with hfloor | hpast
    · -- The edge is a single past half the floor, so it is no less than the next one.
      obtain ⟨next, hnext, hquotient, hhalf, hleast⟩ := exists_past_half_floor
      have hnextLe := hleast _ h.isFinite_abs_edgeOf (by rwa [Binary.toRat_abs])
      rw [Binary.toRat_abs] at hnextLe
      have hnextRounds := Binary.div_rounds hnext rfl (ne_of_gt scaleFloor_pos)
      have hratioLe := hnextRounds.toRat_le hrounds hquotient hfinite
        (by rw [hfloor]; exact div_le_div_of_nonneg_right hnextLe (le_of_lt scaleFloor_pos))
      linarith
    · -- The step does not pass the edge.
      obtain ⟨hone, hvalue⟩ := Binary.ofNat_finite (show 1 ≤ 2 * 2 ^ 23 by decide)
      have hratioLe := (Binary.Rounds.self hone).toRat_le hrounds hone hfinite
        (by rw [hvalue, Nat.cast_one, le_div_iff₀ hstep, one_mul]; exact hpast)
      rw [hvalue, Nat.cast_one] at hratioLe
      linarith
  · intro hedge
    rw [h.stepOf_eq_floor hspread hedge] at hrounds
    have hhalf : |(|(edgeOf low high).toRat| / scaleFloor.toRat)| ≤
        (Binary.ofRatio .single 1 2).toRat := by
      rw [Binary.toRat_one_half, abs_of_nonneg (div_nonneg (abs_nonneg _) (le_of_lt scaleFloor_pos)),
        div_le_iff₀ scaleFloor_pos]
      linarith
    obtain ⟨hfinite, hle⟩ := hrounds.within rfl hhalf
    rw [Binary.toRat_one_half] at hle
    exact ⟨hfinite, le_trans (le_abs_self _) hle⟩

/-- An edge that is some steps away from zero is a whole number of them, or more than can be
counted. -/
theorem stepsOf_cases (hspread : (high - low).isFinite)
    (hedge : scaleFloor.toRat / 2 < |(edgeOf low high).toRat|) :
    (∃ s, stepsOf low high bins = .infinite s) ∨
      ((edgeOf low high / coarseOf low high bins).isFinite ∧
        (edgeOf low high / coarseOf low high bins).nearestInt ≠ 0 ∧
        (stepsOf low high bins).isFinite ∧ (stepsOf low high bins).toRat =
          (edgeOf low high / coarseOf low high bins).nearestInt) := by
  have hnumber := (h.ratio_rounds hspread).1.ne_nan
  have hsteps : (stepsOf low high bins).isZero = false := by
    rw [Bool.eq_false_iff]
    exact fun hzero => not_le.mpr hedge ((h.isZero_stepsOf_iff hspread).mp hzero)
  rw [stepsOf] at hsteps ⊢
  generalize edgeOf low high / coarseOf low high bins = ratio at hnumber hsteps
  cases hratio : ratio with
  | nan => exact absurd hratio hnumber
  | infinite s => exact .inl ⟨s, rfl⟩
  | finite s i =>
      rw [← hratio]
      have hfinite : ratio.isFinite := by rw [hratio]; rfl
      obtain ⟨hwhole, hvalue⟩ := Binary.roundEven_finite hfinite
      refine .inr ⟨hfinite, ?_, hwhole, hvalue⟩
      intro hzero
      rw [hzero, Int.cast_zero, ← Binary.isZero_iff hwhole] at hvalue
      rw [hvalue] at hsteps
      cases hsteps

theorem fitted_finite (hspread : (high - low).isFinite)
    (hedge : scaleFloor.toRat / 2 < |(edgeOf low high).toRat|) :
    (edgeOf low high / stepsOf low high bins).isFinite ∧
      |(edgeOf low high / stepsOf low high bins).toRat| ≤ |(edgeOf low high).toRat| := by
  rcases h.stepsOf_cases hspread hedge with ⟨s, hinfinite⟩ | ⟨-, hne, hfinite, hvalue⟩
  · obtain ⟨hquotient, hzero⟩ := Binary.div_infinite h.isFinite_edgeOf s
    rw [hinfinite, hzero, abs_zero]
    exact ⟨hquotient, abs_nonneg _⟩
  · have hwhole : (1 : ℚ) ≤ |(stepsOf low high bins).toRat| := by
      rw [hvalue, ← Int.cast_abs]
      exact_mod_cast Int.one_le_abs hne
    have hnonzero : (stepsOf low high bins).toRat ≠ 0 := by
      rw [hvalue]
      exact Int.cast_ne_zero.mpr hne
    have hrounds := Binary.div_rounds h.isFinite_edgeOf hfinite hnonzero
    have hle : |(edgeOf low high).toRat / (stepsOf low high bins).toRat| ≤
        (edgeOf low high).abs.toRat := by
      rw [abs_div, Binary.toRat_abs]
      exact div_le_self (abs_nonneg _) hwhole
    have hwithin := hrounds.within h.isFinite_abs_edgeOf hle
    rwa [Binary.toRat_abs] at hwithin

/-! ## The parameters -/

/-- The edge is the bias of its range, unless it is no more than half the floor. -/
theorem ofRange_cases (hspread : (high - low).isFinite) :
    (|(edgeOf low high).toRat| ≤ scaleFloor.toRat / 2 ∧
        ofRange low high bins = ⟨coarseOf low high bins, 0⟩) ∨
      (scaleFloor.toRat / 2 < |(edgeOf low high).toRat| ∧
        ofRange low high bins = ⟨edgeOf low high / stepsOf low high bins, edgeOf low high⟩) := by
  rw [ofRange_eq]
  by_cases hzero : (stepsOf low high bins).isZero = true
  · exact .inl ⟨(h.isZero_stepsOf_iff hspread).mp hzero, if_pos hzero⟩
  · exact .inr ⟨not_le.mp fun hle => hzero ((h.isZero_stepsOf_iff hspread).mpr hle), if_neg hzero⟩

/-- A difference past the largest single makes the scale infinite and the bias zero. -/
theorem ofRange_infinite (hspread : (high - low).isFinite = false) :
    ∃ s, ofRange low high bins = ⟨.infinite s, 0⟩ := by
  have hdifference : high - low = .infinite false :=
    (Binary.sub_rounds h.finiteHigh h.finiteLow).eq_infinite hspread (sub_nonneg.mpr h.le)
  have hquotient : (high - low) / bins = .infinite false := by
    obtain ⟨t, j, rfl⟩ := Binary.exists_finite h.finiteBins
    cases t with
    | false =>
        rw [hdifference]
        rfl
    | true =>
        -- A number of steps is not below zero.
        have hnonpos : (Binary.finite true j : Single).toRat ≤ 0 := by
          rw [Binary.toRat_finite]
          refine div_nonpos_of_nonpos_of_nonneg ?_ (le_of_lt Format.single.unitsPerOne_cast_pos)
          exact Int.cast_nonpos.mpr (Int.neg_nonpos_of_nonneg (Int.natCast_nonneg _))
        have hcount := h.bins_ne_zero
        rw [h.bins_eq] at hnonpos hcount
        exact absurd (le_antisymm hnonpos (Nat.cast_nonneg count)) hcount
  have hstep : stepOf low high bins = .infinite false := by
    rw [stepOf, hquotient]
    decide
  have hcoarse : ∃ s, coarseOf low high bins = .infinite s := by
    rw [coarseOf, hstep]
    split
    · exact ⟨false, rfl⟩
    · exact ⟨true, rfl⟩
  obtain ⟨s, hcoarse⟩ := hcoarse
  obtain ⟨hfinite, hzero⟩ := Binary.div_infinite h.isFinite_edgeOf s
  have hsteps : (stepsOf low high bins).isZero = true := by
    rw [stepsOf, hcoarse, Binary.isZero_roundEven_iff hfinite, hzero, abs_zero]
    norm_num
  refine ⟨s, ?_⟩
  rw [ofRange_eq, if_pos hsteps, hcoarse]

end Spans

end Affine

end SubByte
