/-
# Coding — codes and their values as numbers

A quotient that is a number is brought to the nearest whole one and held between zero and
the largest code (`toWord_held`); what is no number has the code zero.  So a weight that is
its group's bias has the code zero whatever the scale is (`code_of_eq_bias`), since zero
divided by anything is zero or no number, and the code zero stands for the bias as
long as the scale is finite (`value_zero`).

Parameters are stored in the format of the weights.  What is no larger than some value of
that format stays finite there (`Binary.narrow_within`), and the floor of the scale is no larger
than one.
-/
import SubByte.Proofs.Quantizer.Parameters
import SubByte.Proofs.Quantizer.RoundTrip

namespace SubByte

namespace Binary

variable {F : Format}

/-! ## Whole parts -/

theorem toWord_eq {a : Binary F} (ha : a.isFinite) {n : Nat} (hn : n ≤ 4294967295)
    (h : a.toRat = n) : a.toWord = n := by
  obtain ⟨s, i, rfl⟩ := exists_finite ha
  have hone := F.unitsPerOne_cast_pos
  rw [toRat_finite, div_eq_iff (ne_of_gt hone)] at h
  have hunits : signed s (F.unitsOf i) = ((n * F.unitsPerOne : Nat) : Int) := by exact_mod_cast h
  cases s with
  | true =>
      -- Only zero has a negative sign here.
      have hzero : n * F.unitsPerOne = 0 := by
        rw [signed, if_pos rfl] at hunits
        omega
      exact ((Nat.mul_eq_zero.mp hzero).resolve_right (Nat.ne_of_gt F.unitsPerOne_pos)).symm
  | false =>
      have hunits : F.unitsOf i = n * F.unitsPerOne := Int.ofNat_inj.mp hunits
      show Nat.min (F.unitsOf i / F.unitsPerOne) 4294967295 = n
      rw [hunits, Nat.mul_div_cancel _ F.unitsPerOne_pos]
      exact Nat.min_eq_left hn

theorem toWord_held_nan (low high : Binary F) : ((nan : Binary F).clamp low high).toWord = 0 := by
  have hlow : (nan : Binary F).lt low = false := rfl
  have hhigh : high.lt nan = false := by
    rw [lt]
    cases high.rank? <;> rfl
  rw [clamp, hlow]
  simp only [Bool.false_eq_true, if_false, hhigh]
  rfl

/-- A quotient is brought to the nearest whole number, and held between zero and a bound. -/
theorem toWord_held {a bins : Single} {count : Nat} (ha : a.isFinite) (hbins : bins.isFinite)
    (hcount : bins.toRat = count) (hle : count ≤ 4294967295) :
    ((a.roundEven.clamp 0 bins).toWord : Int) = (a.nearestInt ⊔ 0) ⊓ count := by
  obtain ⟨hwhole, hvalue⟩ := roundEven_finite ha
  obtain ⟨hheld, hclamp⟩ := clamp_finite hwhole isFinite_zero hbins
  have hnonneg : 0 ≤ (a.nearestInt ⊔ 0) ⊓ (count : Int) := le_inf le_sup_right (Int.natCast_nonneg _)
  obtain ⟨n, hn⟩ := Int.eq_ofNat_of_zero_le hnonneg
  have hroom : n ≤ 4294967295 := by
    have hbound : (n : Int) ≤ count := by
      rw [← hn]
      exact inf_le_right
    omega
  rw [hn, toWord_eq hheld hroom]
  rw [hclamp, hvalue, toRat_zero, hcount]
  exact_mod_cast congrArg (Int.cast (R := ℚ)) hn

theorem zero_div_cases {a : Binary F} (ha : a.isFinite) (h : a.toRat = 0) (b : Binary F) :
    a / b = .nan ∨ (a / b).isFinite ∧ (a / b).toRat = 0 := by
  cases hb : b with
  | nan =>
      obtain ⟨s, i, rfl⟩ := exists_finite ha
      exact .inl rfl
  | infinite s => exact .inr (div_infinite ha s)
  | finite s i =>
      rw [← hb]
      have hfinite : b.isFinite := by rw [hb]; rfl
      by_cases hzero : b.toRat = 0
      · have hzeroA := (isZero_iff ha).mpr h
        have hzeroB := (isZero_iff hfinite).mpr hzero
        obtain ⟨t, j, rfl⟩ := exists_finite ha
        rw [hb] at hzeroB ⊢
        left
        show (if i.val = 0 then if j.val = 0 then Binary.nan else .infinite (t != s) else _) = _
        rw [if_pos (of_decide_eq_true hzeroB), if_pos (of_decide_eq_true hzeroA)]
      · have hrounds := div_rounds ha hfinite hzero
        rw [h, zero_div] at hrounds
        have hle : |(0 : ℚ)| ≤ (0 : Binary F).toRat := by rw [abs_zero, toRat_zero]
        obtain ⟨hquotient, hvalue⟩ := hrounds.within isFinite_zero hle
        rw [toRat_zero] at hvalue
        exact .inr ⟨hquotient, abs_nonpos_iff.mp hvalue⟩

/-! ## Storage -/

variable {type : FloatType}

/-- What is no larger than a value of a format stays so in this format. -/
theorem narrow_within {a : Single} (ha : a.isFinite) {m : Binary F} (hm : m.isFinite)
    (h : |a.toRat| ≤ |m.toRat|) :
    (a.narrow F).isFinite ∧ |(a.narrow F).toRat| ≤ |m.toRat| := by
  rw [← toRat_abs m] at h ⊢
  exact (convert_rounds F ha).within (by rwa [isFinite_abs]) h

theorem one_le_largest (type : FloatType) : 1 ≤ (largest type.format).toRat := by
  have hunits : type.format.unitsPerOne ≤ type.format.unitsOf (type.format.magnitudes - 1) := by
    cases type <;> decide
  have hvalue : (largest type.format).toRat =
      (type.format.unitsOf (type.format.magnitudes - 1) : ℚ) / type.format.unitsPerOne := rfl
  rw [hvalue, le_div_iff₀ type.format.unitsPerOne_cast_pos, one_mul]
  exact_mod_cast hunits

end Binary

/-! ## The number of steps -/

theorem Config.bins_finite (config : Config) :
    config.bins.isFinite ∧ config.bins.toRat = config.width.maxCode ∧
      3 ≤ config.width.maxCode ∧ config.width.maxCode ≤ 255 := by
  have hbounds : 3 ≤ config.width.maxCode ∧ config.width.maxCode ≤ 255 := by
    cases config.width <;> decide
  obtain ⟨hfinite, hvalue⟩ := Binary.ofNat_finite
    (show config.width.maxCode ≤ 2 * 2 ^ 23 from Nat.le_trans hbounds.2 (by decide))
  exact ⟨hfinite, hvalue, hbounds⟩

theorem Config.code_short (config : Config) (affine : Affine) (v : Single) :
    affine.code config.bins v ≤ 2 * 2 ^ 23 :=
  Nat.le_trans (Affine.code_le affine config v) (Nat.le_trans config.bins_finite.2.2.2 (by decide))

namespace Affine

variable {affine : Affine} {v : Single}

/-! ## Codes -/

/-- The code of a weight is how many steps it is from the bias, brought to the nearest whole
number and held in the range of codes. -/
theorem code_held (config : Config) (h : ((v - affine.bias) / affine.scale).isFinite) :
    (affine.code config.bins v : Int) =
      (((v - affine.bias) / affine.scale).nearestInt ⊔ 0) ⊓ config.width.maxCode := by
  obtain ⟨hbins, hcount, -, hle⟩ := config.bins_finite
  exact Binary.toWord_held h hbins hcount (Nat.le_trans hle (by decide))

/-- A weight that is no more than half a step from the bias has the code zero. -/
theorem code_of_near_bias (config : Config) (hquotient : ((v - affine.bias) / affine.scale).isFinite)
    (h : |((v - affine.bias) / affine.scale).toRat| ≤ 1 / 2) : affine.code config.bins v = 0 := by
  have hheld := code_held config hquotient
  rw [(Binary.nearestInt_eq_zero_iff hquotient).mpr h, sup_idem,
    inf_eq_left.mpr (Int.natCast_nonneg _)] at hheld
  exact Int.natCast_eq_zero.mp hheld

/-- A weight that is the bias has the code zero. -/
theorem code_of_eq_bias (config : Config) (hv : v.isFinite) (hbias : affine.bias.isFinite)
    (h : v.toRat = affine.bias.toRat) : affine.code config.bins v = 0 := by
  have hrounds := Binary.sub_rounds hv hbias
  rw [h, sub_self] at hrounds
  have hnone : |(0 : ℚ)| ≤ (0 : Single).toRat := by rw [abs_zero, Binary.toRat_zero]
  obtain ⟨hfinite, hdifference⟩ := hrounds.within Binary.isFinite_zero hnone
  rw [Binary.toRat_zero] at hdifference
  rcases Binary.zero_div_cases hfinite (abs_nonpos_iff.mp hdifference) affine.scale with
    hnan | ⟨hquotient, hzero⟩
  · rw [code, hnan]
    exact Binary.toWord_held_nan 0 config.bins
  · refine code_of_near_bias config hquotient ?_
    rw [hzero, abs_zero]
    norm_num

theorem code_le_of_lt (config : Config) {n : Nat}
    (hquotient : ((v - affine.bias) / affine.scale).isFinite)
    (h : ((v - affine.bias) / affine.scale).toRat < n + 1 / 2) : affine.code config.bins v ≤ n := by
  have hheld := code_held config hquotient
  have hnearest := (abs_le.mp (Binary.abs_nearestInt_sub_le hquotient)).2
  have hlt : (((v - affine.bias) / affine.scale).nearestInt : ℚ) < n + 1 := by linarith
  have hint : ((v - affine.bias) / affine.scale).nearestInt < n + 1 := by exact_mod_cast hlt
  have hbound : (affine.code config.bins v : Int) ≤ n := by
    rw [hheld]
    exact le_trans inf_le_left (sup_le (Int.lt_add_one_iff.mp hint) (Int.natCast_nonneg n))
  exact_mod_cast hbound

/-! ## Values -/

/-- The code zero stands for the bias. -/
theorem value_zero (hscale : affine.scale.isFinite) (hbias : affine.bias.isFinite) :
    (affine.value 0).isFinite ∧ (affine.value 0).toRat = affine.bias.toRat := by
  obtain ⟨hnone, hzero⟩ := Binary.ofNat_finite (Nat.zero_le (2 * 2 ^ 23))
  have hproduct := Binary.mul_rounds hnone hscale
  rw [hzero, Nat.cast_zero, zero_mul] at hproduct
  have hle : |(0 : ℚ)| ≤ (0 : Single).toRat := by rw [abs_zero, Binary.toRat_zero]
  obtain ⟨hfinite, hvalue⟩ := hproduct.within Binary.isFinite_zero hle
  rw [Binary.toRat_zero] at hvalue
  have hsum := Binary.add_rounds hfinite hbias
  rw [abs_nonpos_iff.mp hvalue, zero_add] at hsum
  exact hsum.exact hbias

/-- A product against the sign of the bias takes from it: the value is within a bound that the
bias keeps, and the product as far as the bias is away from zero. -/
theorem value_within {code : Nat} {m : Single} (hcode : code ≤ 2 * 2 ^ 23)
    (hscale : affine.scale.isFinite) (hbias : affine.bias.isFinite) (hm : m.isFinite)
    (hopposed : affine.scale.toRat * affine.bias.toRat ≤ 0) (hle : |affine.bias.toRat| ≤ m.toRat)
    (hproduct : (.ofNat .single code * affine.scale).isFinite)
    (hwithin : |(.ofNat .single code * affine.scale).toRat| ≤ |affine.bias.toRat| + m.toRat) :
    (affine.value code).isFinite ∧ |(affine.value code).toRat| ≤ m.toRat := by
  obtain ⟨hwhole, hvalue⟩ := Binary.ofNat_finite hcode
  have hrounds := Binary.mul_rounds hwhole hscale
  have hagainst : (.ofNat .single code * affine.scale).toRat * affine.bias.toRat ≤ 0 := by
    refine hrounds.mul_nonpos hproduct ?_
    rw [hvalue, mul_assoc]
    exact mul_nonpos_of_nonneg_of_nonpos (Nat.cast_nonneg code) hopposed
  refine (Binary.add_rounds hproduct hbias).within hm ?_
  generalize (.ofNat .single code * affine.scale : Single).toRat = product at hwithin hagainst
  generalize affine.bias.toRat = bias at hle hwithin hagainst
  rw [abs_le]
  rcases mul_nonpos_iff.mp hagainst with ⟨hp, hb⟩ | ⟨hp, hb⟩
  · rw [abs_of_nonneg hp, abs_of_nonpos hb] at hwithin
    rw [abs_of_nonpos hb] at hle
    constructor <;> linarith
  · rw [abs_of_nonpos hp, abs_of_nonneg hb] at hwithin
    rw [abs_of_nonneg hb] at hle
    constructor <;> linarith

end Affine

/-! ## Groups of finite weights -/

namespace Config

variable {config : Config} {type : FloatType} {group : List (Binary type.format)}

theorem spans (config : Config) (hne : group ≠ []) (hfinite : ∀ v ∈ group, v.isFinite) :
    Affine.Spans (groupMin group) (groupMax group) config.bins config.width.maxCode := by
  obtain ⟨low, hlow, hmin, hleast⟩ := groupMin_eq hne hfinite
  obtain ⟨high, hhigh, hmax, hgreatest⟩ := groupMax_eq hne hfinite
  obtain ⟨hlowWide, hlowValue⟩ := Binary.widen_finite (hfinite low hlow)
  obtain ⟨hhighWide, hhighValue⟩ := Binary.widen_finite (hfinite high hhigh)
  obtain ⟨hbins, hcount, hthree, -⟩ := config.bins_finite
  exact
    { finiteLow := by rwa [hmin]
      finiteHigh := by rwa [hmax]
      le := by
        rw [hmin, hmax, hlowValue, hhighValue]
        exact hleast.2 ⟨high, hhigh, rfl⟩
      finiteBins := hbins
      bins_eq := hcount
      three_le := hthree }

theorem group_bounds (hfinite : ∀ v ∈ group, v.isFinite) {v : Binary type.format} (hv : v ∈ group) :
    (groupMin group).toRat ≤ v.toRat ∧ v.toRat ≤ (groupMax group).toRat ∧
      |v.toRat| ≤ |(Affine.edgeOf (groupMin group) (groupMax group)).toRat| := by
  have hne : group ≠ [] := List.ne_nil_of_mem hv
  obtain ⟨low, hlow, hmin, hleast⟩ := groupMin_eq hne hfinite
  obtain ⟨high, hhigh, hmax, hgreatest⟩ := groupMax_eq hne hfinite
  obtain ⟨hlowWide, hlowValue⟩ := Binary.widen_finite (hfinite low hlow)
  obtain ⟨hhighWide, hhighValue⟩ := Binary.widen_finite (hfinite high hhigh)
  obtain ⟨hlowLe, hhighLe⟩ := Affine.abs_le_edgeOf hlowWide hhighWide
  have hleastV : low.toRat ≤ v.toRat := hleast.2 ⟨v, hv, rfl⟩
  have hgreatestV : v.toRat ≤ high.toRat := hgreatest.2 ⟨v, hv, rfl⟩
  rw [hlowValue] at hlowLe
  rw [hhighValue] at hhighLe
  rw [hmin, hmax, hlowValue, hhighValue]
  refine ⟨hleastV, hgreatestV, abs_le.mpr ⟨?_, ?_⟩⟩
  · linarith [(abs_le.mp hlowLe).1]
  · linarith [(abs_le.mp hhighLe).2]

theorem exists_edge (hne : group ≠ []) (hfinite : ∀ v ∈ group, v.isFinite) :
    ∃ edge ∈ group,
      (Affine.edgeOf (groupMin group) (groupMax group)).toRat = edge.toRat ∧
        ∀ v, IsEdge group v → v.toRat = edge.toRat := by
  obtain ⟨low, hlow, hmin, hleast⟩ := groupMin_eq hne hfinite
  obtain ⟨high, hhigh, hmax, hgreatest⟩ := groupMax_eq hne hfinite
  obtain ⟨hlowWide, hlowValue⟩ := Binary.widen_finite (hfinite low hlow)
  obtain ⟨hhighWide, hhighValue⟩ := Binary.widen_finite (hfinite high hhigh)
  have hunique : ∀ v, IsEdge group v →
      v.toRat = if |high.toRat| < |low.toRat| then low.toRat else high.toRat := by
    rintro v ⟨x, y, hx, hy, hv⟩
    rwa [hx.unique hleast, hy.unique hgreatest] at hv
  rw [hmin, hmax, (Affine.toRat_edgeOf hlowWide hhighWide).2, hlowValue, hhighValue]
  by_cases hlt : |high.toRat| < |low.toRat|
  · exact ⟨low, hlow, if_pos hlt, fun v hv => by rw [hunique v hv, if_pos hlt]⟩
  · exact ⟨high, hhigh, if_neg hlt, fun v hv => by rw [hunique v hv, if_neg hlt]⟩

theorem affineOf_past (config : Config) (hne : group ≠ []) (hfinite : ∀ v ∈ group, v.isFinite)
    (hspread : (groupSpread group).isFinite)
    (hpast : scaleFloor.toRat / 2 < |(Affine.edgeOf (groupMin group) (groupMax group)).toRat|) :
    config.affineOf group =
      ⟨Affine.edgeOf (groupMin group) (groupMax group) /
          Affine.stepsOf (groupMin group) (groupMax group) config.bins,
        Affine.edgeOf (groupMin group) (groupMax group)⟩ := by
  rcases (config.spans hne hfinite).ofRange_cases hspread with ⟨hsmall, -⟩ | ⟨-, hrange⟩
  · exact absurd hsmall (not_le.mpr hpast)
  · exact hrange

theorem bias_eq (config : Config) (hne : group ≠ []) (hfinite : ∀ v ∈ group, v.isFinite) :
    (config.affineOf group).bias.isFinite ∧
      ∃ v : Binary type.format, v.isFinite ∧ (config.affineOf group).bias.toRat = v.toRat := by
  have hspans := config.spans hne hfinite
  have hzero : ∀ {affine : Affine}, affine.bias = 0 → affine.bias.isFinite ∧
      ∃ v : Binary type.format, v.isFinite ∧ affine.bias.toRat = v.toRat := by
    intro affine hbias
    rw [hbias]
    exact ⟨rfl, 0, rfl, by rw [Binary.toRat_zero, Binary.toRat_zero]⟩
  rw [affineOf, Affine.ofGroup]
  cases hspread : (groupSpread group).isFinite with
  | false =>
      obtain ⟨s, hrange⟩ := hspans.ofRange_infinite hspread
      exact hzero (by rw [hrange])
  | true =>
      rcases hspans.ofRange_cases hspread with ⟨-, hrange⟩ | ⟨-, hrange⟩
      · exact hzero (by rw [hrange])
      · obtain ⟨edge, hedge, hvalue, -⟩ := exists_edge hne hfinite
        rw [hrange]
        exact ⟨hspans.isFinite_edgeOf, edge, hfinite edge hedge, hvalue⟩

theorem stored_bias (config : Config) (hne : group ≠ []) (hfinite : ∀ v ∈ group, v.isFinite) :
    ((config.affineOf group).bias.narrow type.format).isFinite ∧
      ((config.affineOf group).stored type.format).bias.isFinite ∧
      ((config.affineOf group).stored type.format).bias.toRat =
        (config.affineOf group).bias.toRat := by
  obtain ⟨hbias, v, hv, hvalue⟩ := config.bias_eq hne hfinite
  obtain ⟨hnarrow, hnarrowValue⟩ := Binary.narrow_of_toRat_eq hbias hv hvalue
  obtain ⟨hwide, hwideValue⟩ := Binary.widen_finite hnarrow
  refine ⟨hnarrow, hwide, ?_⟩
  rw [Affine.stored, hwideValue, hnarrowValue, hvalue]

theorem stored_bias_past (config : Config) (hne : group ≠ []) (hfinite : ∀ v ∈ group, v.isFinite)
    (hspread : (groupSpread group).isFinite)
    (hpast : scaleFloor.toRat / 2 < |(Affine.edgeOf (groupMin group) (groupMax group)).toRat|) :
    ((config.affineOf group).stored type.format).bias.toRat =
      (Affine.edgeOf (groupMin group) (groupMax group)).toRat := by
  rw [(config.stored_bias hne hfinite).2.2, config.affineOf_past hne hfinite hspread hpast]

/-- A scale between finite extremes is finite, and is no larger than the largest value of the
format of the weights. -/
theorem scale_within (config : Config) (hne : group ≠ []) (hfinite : ∀ v ∈ group, v.isFinite)
    (hspread : (groupSpread group).isFinite) :
    (config.affineOf group).scale.isFinite ∧
      |(config.affineOf group).scale.toRat| ≤ (Binary.largest type.format).toRat := by
  have hspans := config.spans hne hfinite
  rw [affineOf, Affine.ofGroup]
  rcases hspans.ofRange_cases hspread with ⟨hedge, hrange⟩ | ⟨hpast, hrange⟩
  · obtain ⟨hcoarse, habs⟩ := hspans.coarseOf_finite hspread
    rw [hrange, habs, hspans.stepOf_eq_floor hspread hedge]
    exact ⟨hcoarse, le_trans Affine.scaleFloor_le_one (Binary.one_le_largest type)⟩
  · obtain ⟨edge, hedge, hvalue, -⟩ := exists_edge hne hfinite
    obtain ⟨hscale, hle⟩ := hspans.fitted_finite hspread hpast
    rw [hrange]
    refine ⟨hscale, le_trans hle ?_⟩
    rw [hvalue]
    exact Binary.abs_toRat_le (hfinite edge hedge)

theorem stored_scale (config : Config) (hne : group ≠ []) (hfinite : ∀ v ∈ group, v.isFinite)
    (hspread : (groupSpread group).isFinite) :
    ((config.affineOf group).scale.narrow type.format).isFinite ∧
      ((config.affineOf group).stored type.format).scale.isFinite := by
  obtain ⟨hscale, hle⟩ := config.scale_within hne hfinite hspread
  have hnarrow := (Binary.narrow_within hscale Binary.isFinite_largest
    (le_trans hle (le_abs_self _))).1
  exact ⟨hnarrow, (Binary.widen_finite hnarrow).1⟩

theorem restored_of_code_zero (config : Config) (hne : group ≠ [])
    (hfinite : ∀ v ∈ group, v.isFinite)
    (hspread : (groupSpread group).isFinite) {v : Binary type.format}
    (hcode : (config.affineOf group).code config.bins v.widen = 0) :
    (config.restored group v).isFinite ∧
      (config.restored group v).toRat = (config.affineOf group).bias.toRat := by
  obtain ⟨-, w, hw, hvalue⟩ := config.bias_eq hne hfinite
  obtain ⟨-, hbias, hbiasValue⟩ := config.stored_bias hne hfinite
  obtain ⟨-, hscale⟩ := config.stored_scale hne hfinite hspread
  obtain ⟨hrestored, hrestoredValue⟩ := Affine.value_zero hscale hbias
  simp only [restored, hcode]
  rw [hvalue]
  exact Binary.narrow_of_toRat_eq hrestored hw (by rw [hrestoredValue, hbiasValue, hvalue])

theorem distance_edge_le (config : Config) (hfinite : ∀ v ∈ group, v.isFinite)
    {v : Binary type.format} (hv : v ∈ group) :
    |v.toRat - (Affine.edgeOf (groupMin group) (groupMax group)).toRat| ≤
      (groupMax group).toRat - (groupMin group).toRat := by
  have hspans := config.spans (List.ne_nil_of_mem hv) hfinite
  obtain ⟨hlow, hhigh, -⟩ := group_bounds hfinite hv
  rw [(Affine.toRat_edgeOf hspans.finiteLow hspans.finiteHigh).2, abs_le]
  split
  · constructor <;> linarith
  · constructor <;> linarith

theorem difference_finite (config : Config) (hfinite : ∀ v ∈ group, v.isFinite)
    (hspread : (groupSpread group).isFinite) {v : Binary type.format} (hv : v ∈ group) :
    (v.widen - (config.affineOf group).bias).isFinite ∧
      Binary.Rounds (v.toRat - (config.affineOf group).bias.toRat)
        (v.widen - (config.affineOf group).bias) := by
  have hne := List.ne_nil_of_mem hv
  have hspans := config.spans hne hfinite
  obtain ⟨hwide, hwideValue⟩ := Binary.widen_finite (hfinite v hv)
  have hrounds := Binary.sub_rounds hwide (config.bias_eq hne hfinite).1
  rw [hwideValue] at hrounds
  refine ⟨?_, hrounds⟩
  rcases hspans.ofRange_cases hspread with ⟨-, hrange⟩ | ⟨-, hrange⟩
  · rw [affineOf, Affine.ofGroup, hrange]
    exact (Binary.sub_zero_finite hwide).1
  · have hbias : (config.affineOf group).bias =
        Affine.edgeOf (groupMin group) (groupMax group) := by
      rw [affineOf, Affine.ofGroup, hrange]
    rw [hbias] at hrounds ⊢
    have hspreadRounds := Binary.sub_rounds hspans.finiteHigh hspans.finiteLow
    have habs := hrounds.abs.isFinite_of_le hspreadRounds hspread (abs_nonneg _)
      (config.distance_edge_le hfinite hv)
    rwa [Binary.isFinite_abs] at habs

end Config

end SubByte
