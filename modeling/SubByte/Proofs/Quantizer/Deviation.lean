/-
# Deviation — how far a weight is from what it is restored to

A weight whose code is in range before it is held there is half a step from the exact value of
its code, if the steps are those that the code is chosen with.  What is decoded has the
steps of the stored scale, and the difference between the two is multiplied by the code.
Everything else is roundings: two of the quotient (`InRange.chosen_le`), one of the product and
one of the sum in singles, and the last one to the format of the weights.  A weight without
difference of the scales stays within one step through all of them (`Decoding`), so the
deviation is one stored step and the difference, three times as often as the code says
(`restored_close`).

The difference is none for singles, and little where the scale is stored with all its fraction
bits.  For halves it is up to half a unit, which is much where the scale is a few units: the
deviation is then many steps (`quantized_apart`).
-/
import SubByte.Proofs.Binary.Grid
import SubByte.Proofs.Binary.Monotone
import SubByte.Proofs.Quantizer.Decoding
import SubByte.Proofs.Quantizer.Finite

namespace SubByte

/-! ## The last rounding -/

namespace Binary

/-- What is narrowed to a short format was rounded to a single before, which is nothing beside the
gaps of this format. -/
theorem Rounds.dist_narrow_le {F : Format} (hbits : F.fractionBits ≤ 10)
    (hunits : F.unitsPerOne ≤ 2 ^ 133) {y : ℚ} {z : Single} (hz : Rounds y z) (hfinite : z.isFinite)
    {k : Nat} (hsmall : |z.toRat| ≤ 2 * 2 ^ F.fractionBits * F.gap k) :
    |z.toRat - y| ≤ F.gap k / 7000 := by
  have hclose := hz.dist_single_le hfinite
  have hgap := F.gap_pos k
  have hunit : 1 / (2 : ℚ) ^ 133 ≤ F.gap k := by
    refine le_trans (one_div_le_one_div_of_le F.unitsPerOne_cast_pos ?_) (F.one_unit_le_gap k)
    exact_mod_cast hunits
  have hlarge : |z.toRat| ≤ 2 * 2 ^ 10 * F.gap k := by
    have hpow : (2 : ℚ) ^ F.fractionBits ≤ 2 ^ 10 := pow_le_pow_right₀ (by norm_num) hbits
    refine le_trans hsmall ?_
    gcongr
  have hy : |y| ≤ |z.toRat| + |z.toRat - y| := by
    have htriangle := abs_sub_abs_le_abs_sub y z.toRat
    rw [abs_sub_comm] at htriangle
    linarith
  norm_num at hclose hlarge hunit
  linarith

/-- A sum that is narrowed is rounded to the grid of its format from a number next to the exact
sum. -/
theorem Rounds.exists_narrow (type : FloatType) {y : ℚ} {z : Single} (hz : Rounds y z)
    (hfinite : z.isFinite) :
    ∃ x, Rounds x (z.narrow type.format) ∧ ∀ k,
      |x| ≤ 2 * 2 ^ type.format.fractionBits * type.format.gap k →
        |x - y| ≤ type.format.gap k / 7000 := by
  have hnarrow := convert_rounds type.format hfinite
  cases type with
  | f32 =>
      refine ⟨y, ?_, fun k _ => ?_⟩
      · rwa [narrow, FloatType.format, convert_self]
      · rw [sub_self, abs_zero]
        exact div_nonneg (le_of_lt (Format.gap_pos _ k)) (by norm_num)
  | f16 => exact ⟨z.toRat, hnarrow, fun k => hz.dist_narrow_le (by decide) (by decide) hfinite⟩
  | bf16 => exact ⟨z.toRat, hnarrow, fun k => hz.dist_narrow_le (by decide) (by decide) hfinite⟩

end Binary

/-! ## The code -/

namespace Affine

/-- The code of a weight is in range before it is held there. -/
def InRange (affine : Affine) (bins v : Single) : Prop :=
  let steps := ((v - affine.bias) / affine.scale).roundEven
  (0 : Single).le steps = true ∧ steps.le bins = true

instance (affine : Affine) (bins v : Single) : Decidable (affine.InRange bins v) :=
  inferInstanceAs (Decidable (_ ∧ _))

variable {config : Config} {affine : Affine} {v : Single}

theorem InRange.code_eq (h : affine.InRange config.bins v) :
    ((v - affine.bias) / affine.scale).isFinite ∧
      (affine.code config.bins v : Int) = ((v - affine.bias) / affine.scale).nearestInt := by
  obtain ⟨hlow, hhigh⟩ := h
  obtain ⟨hbins, hcount, -, -⟩ := config.bins_finite
  have hsteps := Binary.isFinite_of_le_of_le Binary.isFinite_zero hbins hlow hhigh
  have hquotient := Binary.isFinite_of_roundEven hsteps
  obtain ⟨-, hvalue⟩ := Binary.roundEven_finite hquotient
  rw [Binary.le_iff Binary.isFinite_zero hsteps, hvalue, Binary.toRat_zero] at hlow
  rw [Binary.le_iff hsteps hbins, hvalue, hcount] at hhigh
  refine ⟨hquotient, ?_⟩
  rw [code_held config hquotient, sup_eq_left.mpr (by exact_mod_cast hlow),
    inf_eq_left.mpr (by exact_mod_cast hhigh)]

theorem InRange.scale_ne_zero (h : affine.InRange config.bins v) (hscale : affine.scale.isFinite) :
    affine.scale.toRat ≠ 0 := by
  intro hzero
  have hquotient := Binary.div_of_isZero (v - affine.bias) ((Binary.isZero_iff hscale).mpr hzero)
  rw [h.code_eq.1] at hquotient
  cases hquotient

/-- What two roundings leave of half a step: the difference is rounded, and then its quotient. -/
theorem chosen_of_nearest {code quotient difference exact scale : ℚ} (hpos : 0 ≤ code)
    (hmany : code ≤ 255) (hlarge : 1 / 2 ^ 26 ≤ |scale|) (hnearest : |code - quotient| ≤ 1 / 2)
    (hquotient : |quotient - difference / scale| ≤ |difference / scale| / 2 ^ 24 + 1 / 2 ^ 150)
    (hdifference : |difference - exact| ≤ |exact| / 2 ^ 24 + 1 / 2 ^ 150) :
    |code * scale - exact| ≤ (1 / 2 + 1 / 30000) * |scale| := by
  have hne : scale ≠ 0 := abs_pos.mp (lt_of_lt_of_le (by norm_num) hlarge)
  generalize hratio : difference / scale = ratio at hquotient
  rw [div_eq_iff hne] at hratio
  have hcode : |code| ≤ 255 := by rwa [abs_of_nonneg hpos]
  -- The quotient is below 256, as the code is, so both roundings are small beside a step.
  have hbound : |ratio| ≤ 256 := by
    have hgrow := abs_sub_abs_le_abs_sub ratio quotient
    have hquotientLe := abs_sub_abs_le_abs_sub quotient code
    rw [abs_sub_comm] at hgrow hquotientLe
    norm_num at hquotient
    linarith
  have hfirst : |code - ratio| ≤ 1 / 2 + 1 / 60000 := by
    have htriangle := abs_sub_le code quotient ratio
    norm_num at hquotient
    linarith
  have hsteps : |code * scale - difference| ≤ (1 / 2 + 1 / 60000) * |scale| := by
    rw [hratio, ← sub_mul, abs_mul]
    exact mul_le_mul_of_nonneg_right hfirst (abs_nonneg scale)
  have hdifferenceLe : |difference| ≤ 256 * |scale| := by
    rw [hratio, abs_mul]
    exact mul_le_mul_of_nonneg_right hbound (abs_nonneg scale)
  have hsecond : |difference - exact| ≤ 1 / 60000 * |scale| := by
    have hgrow := abs_sub_abs_le_abs_sub exact difference
    rw [abs_sub_comm] at hgrow
    norm_num at hdifference hlarge
    linarith
  linarith [abs_sub_le (code * scale) difference exact]

/-- A code in range is half a step from the exact quotient at most, but for the two roundings of
the quotient. -/
theorem InRange.chosen_le (h : affine.InRange config.bins v) {x : ℚ}
    (hdifference : (v - affine.bias).isFinite) (hrounds : Binary.Rounds x (v - affine.bias))
    (hscale : affine.scale.isFinite) (hlarge : 1 / 2 ^ 26 ≤ |affine.scale.toRat|) :
    |affine.code config.bins v * affine.scale.toRat - x| ≤
      (1 / 2 + 1 / 30000) * |affine.scale.toRat| := by
  obtain ⟨hquotient, hcode⟩ := h.code_eq
  have hne := h.scale_ne_zero hscale
  have hmany : (affine.code config.bins v : ℚ) ≤ 255 := by
    exact_mod_cast Nat.le_trans (code_le affine config v) config.bins_finite.2.2.2
  have hcodePos : (0 : ℚ) ≤ affine.code config.bins v := Nat.cast_nonneg _
  have hnearest := Binary.abs_nearestInt_sub_le hquotient
  rw [← hcode, Int.cast_natCast] at hnearest
  have hcloseQuotient := (Binary.div_rounds hdifference hscale hne).dist_single_le hquotient
  have hcloseDifference := hrounds.dist_single_le hdifference
  exact chosen_of_nearest (Nat.cast_nonneg _) hmany hlarge hnearest hcloseQuotient hcloseDifference

/-! ## The product -/

theorem product_close {code scale stored product : ℚ} (hpos : 0 ≤ code) (hmany : code ≤ 255)
    (hlarge : 1 / 2 ^ 26 ≤ |scale|)
    (hproduct : |product - code * stored| ≤ |code * stored| / 2 ^ 24 + 1 / 2 ^ 150) :
    |product - code * stored| ≤ (|scale| + |scale - stored|) / 55000 := by
  have hstored : |stored| ≤ |scale| + |scale - stored| := by
    have hgrow := abs_sub_abs_le_abs_sub stored scale
    rw [abs_sub_comm] at hgrow
    linarith
  have hexact : |code * stored| ≤ 255 * (|scale| + |scale - stored|) := by
    rw [abs_mul, abs_of_nonneg hpos]
    exact mul_le_mul hmany hstored (abs_nonneg stored) (by norm_num)
  have hdifference := abs_nonneg (scale - stored)
  generalize code * stored = exact at hproduct hexact ⊢
  norm_num at hproduct hlarge
  linarith

end Affine

/-! ## Groups of finite weights -/

namespace Config

variable {config : Config} {type : FloatType} {group : List (Binary type.format)}

/-- A scale is zero, or not small beside one. -/
theorem scale_zero_or (config : Config) (hne : group ≠ []) (hfinite : ∀ v ∈ group, v.isFinite)
    (hspread : (groupSpread group).isFinite) :
    (config.affineOf group).scale.toRat = 0 ∨
      1 / 2 ^ 26 ≤ |(config.affineOf group).scale.toRat| := by
  have hspans := config.spans hne hfinite
  have hfloor := hspans.floor_le_stepOf hspread
  have hbound := Affine.scaleFloor_bounds.1
  rw [affineOf, Affine.ofGroup]
  rcases hspans.ofRange_cases hspread with ⟨-, hrange⟩ | ⟨hpast, hrange⟩
  · right
    rw [hrange, (hspans.coarseOf_finite hspread).2]
    norm_num at hbound ⊢
    linarith
  · rw [hrange]
    refine (hspans.le_fitted hspread hpast).imp_right fun hfitted => ?_
    norm_num at hbound ⊢
    linarith

theorem le_scale_of_inRange (config : Config) (hne : group ≠ []) (hfinite : ∀ v ∈ group, v.isFinite)
    (hspread : (groupSpread group).isFinite) {v : Single}
    (hrange : (config.affineOf group).InRange config.bins v) :
    1 / 2 ^ 26 ≤ |(config.affineOf group).scale.toRat| :=
  (config.scale_zero_or hne hfinite hspread).resolve_left
    (hrange.scale_ne_zero (config.scale_within hne hfinite hspread).1)

/-- A code in range is half a step from the exact quotient at most, but for roundings. -/
theorem chosen_le (config : Config) (hfinite : ∀ v ∈ group, v.isFinite)
    (hspread : (groupSpread group).isFinite) {v : Binary type.format} (hv : v ∈ group)
    (hrange : (config.affineOf group).InRange config.bins v.widen) :
    |(config.affineOf group).code config.bins v.widen * (config.affineOf group).scale.toRat -
        (v.toRat - (config.affineOf group).bias.toRat)| ≤
      (1 / 2 + 1 / 30000) * |(config.affineOf group).scale.toRat| := by
  have hne := List.ne_nil_of_mem hv
  obtain ⟨hdifference, hrounds⟩ := config.difference_finite hfinite hspread hv
  exact hrange.chosen_le hdifference hrounds (config.scale_within hne hfinite hspread).1
    (config.le_scale_of_inRange hne hfinite hspread hrange)

/-- A restored weight is rounded to the grid of its format from a number next to the exact value
of its code. -/
theorem exists_restored_rounds (config : Config) (hne : group ≠ [])
    (hfinite : ∀ v ∈ group, v.isFinite) (hspread : (groupSpread group).isFinite)
    (hlarge : 1 / 2 ^ 26 ≤ |(config.affineOf group).scale.toRat|) {v : Binary type.format}
    (hrestored : (config.restored group v).isFinite) :
    let affine := config.affineOf group
    let stored := (affine.stored type.format).scale.toRat
    ∃ value, Binary.Rounds value (config.restored group v) ∧ ∀ k,
      |value| ≤ 2 * 2 ^ type.format.fractionBits * type.format.gap k →
        |value - (affine.code config.bins v.widen * stored + affine.bias.toRat)| ≤
          (|affine.scale.toRat| + |affine.scale.toRat - stored|) / 55000 +
            type.format.gap k / 7000 := by
  intro affine stored
  obtain ⟨hwhole, hwholeValue⟩ := Binary.ofNat_finite (config.code_short affine v.widen)
  have hstored := (config.stored_scale hne hfinite hspread).2
  obtain ⟨-, hbias, hbiasValue⟩ := config.stored_bias hne hfinite
  -- The product, the sum, and the sum narrowed.
  have hproduct := config.product_finite_of_restored hrestored
  have hproductRounds := Binary.mul_rounds hwhole hstored
  rw [hwholeValue] at hproductRounds
  have hsum := Binary.isFinite_of_convert hrestored
  have hsumRounds := Binary.add_rounds hproduct hbias
  rw [hbiasValue] at hsumRounds
  obtain ⟨value, hvalueRounds, hvalueClose⟩ := hsumRounds.exists_narrow type hsum
  refine ⟨value, hvalueRounds, fun k hsmall => ?_⟩
  have hmany := Nat.le_trans (Affine.code_le affine config v.widen) config.bins_finite.2.2.2
  have hclose := Affine.product_close (Nat.cast_nonneg _) (by exact_mod_cast hmany) hlarge
    (hproductRounds.dist_single_le hproduct)
  have htriangle := abs_sub_le value
    ((.ofNat .single (affine.code config.bins v.widen) *
      (affine.stored type.format).scale).toRat + affine.bias.toRat)
    (affine.code config.bins v.widen * stored + affine.bias.toRat)
  rw [add_sub_add_right_eq_sub] at htriangle
  linarith [hvalueClose k hsmall]

theorem exists_bias_edge (config : Config) (hfinite : ∀ v ∈ group, v.isFinite)
    (hspread : (groupSpread group).isFinite) {v : Binary type.format} (hv : v ∈ group)
    (hcode : (config.affineOf group).code config.bins v.widen ≠ 0) :
    ∃ edge ∈ group, (config.affineOf group).bias.toRat = edge.toRat ∧
      |v.toRat| ≤ |edge.toRat| := by
  have hne := List.ne_nil_of_mem hv
  have hpast := ((config.code_zero_or hne hfinite hspread).resolve_left
    fun hzero => hcode (hzero v hv)).2
  obtain ⟨edge, hedge, hvalue, -⟩ := exists_edge hne hfinite
  refine ⟨edge, hedge, ?_, ?_⟩
  · rw [config.affineOf_past hne hfinite hspread hpast, hvalue]
  · rw [← hvalue]
    exact (group_bounds hfinite hv).2.2

theorem exists_decoding (config : Config) (hfinite : ∀ v ∈ group, v.isFinite)
    (hspread : (groupSpread group).isFinite) {v : Binary type.format} (hv : v ∈ group)
    (hrange : (config.affineOf group).InRange config.bins v.widen)
    (hcode : (config.affineOf group).code config.bins v.widen ≠ 0)
    (hrestored : (config.restored group v).isFinite) :
    ∃ value gap, Decoding ((config.affineOf group).code config.bins v.widen)
      (config.affineOf group).scale.toRat
      ((config.affineOf group).stored type.format).scale.toRat
      (config.affineOf group).bias.toRat v.toRat value (config.restored group v).toRat gap := by
  have hne := List.ne_nil_of_mem hv
  have hlarge := config.le_scale_of_inRange hne hfinite hspread hrange
  obtain ⟨value, hrounds, hclose⟩ :=
    config.exists_restored_rounds hne hfinite hspread hlarge hrestored
  obtain ⟨k, hmultiple, hrounded, hsmall, hgrid⟩ := hrounds.exists_grid hrestored
  obtain ⟨edge, hedge, hbias, hle⟩ := config.exists_bias_edge hfinite hspread hv hcode
  exact ⟨value, type.format.gap k,
    { code_le := Nat.le_trans (Affine.code_le _ config v.widen) config.bins_finite.2.2.2
      chosen := config.chosen_le hfinite hspread hv hrange
      decoded := hclose k hsmall
      gap_pos := type.format.gap_pos k
      multiple := hmultiple
      rounded := hrounded
      grid := by
        rw [hbias]
        exact hgrid v edge (hfinite v hv) (hfinite edge hedge) hle }⟩

/-- A weight whose code is in range is restored within one stored step, but for the difference that
storing makes to the scale. -/
theorem restored_close (config : Config) (hfinite : ∀ v ∈ group, v.isFinite)
    (hspread : (groupSpread group).isFinite) {v : Binary type.format} (hv : v ∈ group)
    (hrange : (config.affineOf group).InRange config.bins v.widen)
    (hrestored : (config.restored group v).isFinite) :
    |(config.restored group v).toRat - v.toRat| ≤
      |((config.affineOf group).stored type.format).scale.toRat| +
        3 * ((config.affineOf group).code config.bins v.widen + 1) *
          |(config.affineOf group).scale.toRat -
            ((config.affineOf group).stored type.format).scale.toRat| := by
  have hne := List.ne_nil_of_mem hv
  by_cases hcode : (config.affineOf group).code config.bins v.widen = 0
  · -- The weight is half a step from the bias, and restored to it.
    have hchosen := config.chosen_le hfinite hspread hv hrange
    rw [hcode, Nat.cast_zero, zero_mul, zero_sub, neg_sub] at hchosen
    rw [(config.restored_of_code_zero hne hfinite hspread hcode).2, hcode, Nat.cast_zero]
    have hgrow := abs_sub_abs_le_abs_sub (config.affineOf group).scale.toRat
      ((config.affineOf group).stored type.format).scale.toRat
    linarith [abs_nonneg (config.affineOf group).scale.toRat,
      abs_nonneg ((config.affineOf group).scale.toRat -
        ((config.affineOf group).stored type.format).scale.toRat)]
  · obtain ⟨value, gap, hdecoding⟩ :=
      config.exists_decoding hfinite hspread hv hrange hcode hrestored
    exact hdecoding.result_sub_weight_le

/-- Weights whose codes are in range are restored within one stored step and three times the
difference that storing makes to the scale, once for each step of the code and once more.
Where there is no difference, as for all singles, one step is enough.  Halves are restored as
finite weights, and so are others where twice the difference of the extremes is finite. -/
theorem quantized_close (config : Config) (type : FloatType) (weights : List (Binary type.format))
    (hgroups : weights.length % config.group.size = 0) (hfinite : ∀ v ∈ weights, v.isFinite)
    (hspread : ∀ g < weights.length / config.group.size,
      (groupSpread (config.groupOf weights g)).isFinite) :
    ∃ stored restored, config.quantize weights = .ok stored ∧
      (∀ out : List (Binary type.format), out.length = weights.length →
        config.expandInto stored out = .ok restored) ∧
      restored.length = weights.length ∧
      ∀ i v w, weights[i]? = some v → restored[i]? = some w →
        let group := config.groupOf weights (i / config.group.size)
        let affine := config.affineOf group
        affine.InRange config.bins v.widen →
        ∃ code scale, Packing.readCode stored.packed config.width.bits i = .ok code ∧
          stored.scales[i / config.group.size]? = some scale ∧
          scale.isFinite ∧ scale = affine.scale.narrow type.format ∧
          (w.isFinite → |w.toRat - v.toRat| ≤
            |scale.toRat| + 3 * (code + 1) * |affine.scale.toRat - scale.toRat|) ∧
          (type = .f32 ∨ scale.toRat = affine.scale.toRat → w.isFinite →
            |w.toRat - v.toRat| ≤ |scale.toRat|) ∧
          (type = .f16 ∨ (groupSpread group + groupSpread group).isFinite → w.isFinite) := by
  obtain ⟨stored, restored, hstored, hencodes, hexpand, hlength, hrestored⟩ :=
    config.quantize_restores weights hgroups
  refine ⟨stored, restored, hstored, hexpand, hlength, ?_⟩
  intro i v w hv hw group affine hrange
  rw [hrestored i v hv] at hw
  cases hw
  obtain ⟨hg, hmem⟩ := mem_groupOf hgroups hv
  have hgroup : ∀ u ∈ group, u.isFinite := fun u hu => hfinite u (mem_of_mem_groupOf hu)
  have hne : group ≠ [] := List.ne_nil_of_mem hmem
  have hscale := (config.stored_scale hne hgroup (hspread _ hg)).1
  -- One bound on what is restored gives both: an exact scale has no second part.
  have hclose := config.restored_close hgroup (hspread _ hg) hmem hrange
  rw [(config.stored_scale_rounds hne hgroup (hspread _ hg)).2] at hclose
  refine ⟨_, _, hencodes.code i v hv, hencodes.scale _ hg, hscale, rfl, hclose, ?_, ?_⟩
  · intro hexact hfiniteRestored
    have hequal : (affine.scale.narrow type.format).toRat = affine.scale.toRat := by
      rcases hexact with rfl | hequal
      · exact congrArg Binary.toRat (Binary.convert_self affine.scale)
      · exact hequal
    have hbound := hclose hfiniteRestored
    rwa [hequal, sub_self, abs_zero, mul_zero, add_zero, ← hequal] at hbound
  · rintro (rfl | hdouble)
    · exact config.restored_half hgroup hmem
    · exact (config.restored_finite_iff hgroup hmem).mpr
        (config.product_finite hgroup hdouble hmem)

/-- Weights whose scale is less than two units: most of them are zeros, in range, and restored
within the bound. -/
theorem quantized_close_units :
    let edge : Binary FloatType.f16.format := .finite false ⟨382, by decide⟩
    let weights := List.replicate 31 0 ++ [edge]
    weights.length % 32 = 0 ∧ (∀ v ∈ weights, v.isFinite) ∧
      (affineOf ⟨.eight, .g32⟩ weights).InRange (bins ⟨.eight, .g32⟩)
        (Binary.widen (0 : Binary FloatType.f16.format)) ∧
      ∃ stored restored, quantize ⟨.eight, .g32⟩ weights = .ok stored ∧
        expandInto ⟨.eight, .g32⟩ stored weights = .ok restored ∧
        ∃ code scale w, Packing.readCode stored.packed 8 5 = .ok code ∧
          stored.scales[0]? = some scale ∧ restored[5]? = some w ∧ w.isFinite ∧
          |w.toRat| ≤ |scale.toRat| + 3 * (code + 1) *
            |(affineOf ⟨.eight, .g32⟩ weights).scale.toRat - scale.toRat| := by
  intro edge weights
  have hgroups : weights.length % (Config.group ⟨.eight, .g32⟩).size = 0 := by decide
  have hfinite : ∀ v ∈ weights, v.isFinite := by decide
  have hspread : ∀ g < weights.length / (Config.group ⟨.eight, .g32⟩).size,
      (groupSpread (groupOf ⟨.eight, .g32⟩ weights g)).isFinite := by decide +kernel
  have hrange : (affineOf ⟨.eight, .g32⟩ weights).InRange (bins ⟨.eight, .g32⟩)
      (Binary.widen (0 : Binary FloatType.f16.format)) := by decide +kernel
  obtain ⟨stored, restored, hstored, hexpand, hlength, hclose⟩ :=
    quantized_close ⟨.eight, .g32⟩ .f16 weights hgroups hfinite hspread
  obtain ⟨w, hw⟩ : ∃ w, restored[5]? = some w :=
    ⟨_, List.getElem?_eq_getElem (show 5 < restored.length by rw [hlength]; decide)⟩
  obtain ⟨code, scale, hcode, hscale, -, -, hbound, -, hkept⟩ :=
    hclose 5 0 w rfl hw hrange
  have hrestored := hkept (.inl rfl)
  have hbound := hbound hrestored
  rw [Binary.toRat_zero, sub_zero] at hbound
  exact ⟨hgroups, hfinite, hrange, stored, restored, hstored, hexpand weights rfl, code, scale, w,
    hcode, hscale, hw, hrestored, hbound⟩

/-- The zeros of these weights are restored as 74 units below zero, with a stored scale of two. -/
theorem quantized_apart :
    let half : (index : Nat) → index < FloatType.f16.format.magnitudes →
      Binary FloatType.f16.format := fun index h => .finite false ⟨index, h⟩
    let edge := half 382 (by decide)
    let scale := -half 2 (by decide)
    let apart := -half 74 (by decide)
    let weights := List.replicate 31 0 ++ [edge]
    let packed := List.replicate 7 3840206052 ++ [15000804]
    (∀ v ∈ weights, v.isFinite) ∧ (groupSpread weights).isFinite ∧
      (affineOf ⟨.eight, .g32⟩ weights).InRange (bins ⟨.eight, .g32⟩)
        (Binary.widen (0 : Binary FloatType.f16.format)) ∧
      quantize ⟨.eight, .g32⟩ weights = .ok ⟨packed, [scale], [edge]⟩ ∧
      expandInto ⟨.eight, .g32⟩ ⟨packed, [scale], [edge]⟩ weights =
        .ok (List.replicate 31 apart ++ [edge]) ∧
      ¬ |apart.toRat - (0 : Binary FloatType.f16.format).toRat| ≤ |scale.toRat| := by
  intro half edge scale apart weights packed
  refine ⟨by decide, by decide +kernel, by decide +kernel, by decide +kernel, by decide +kernel, ?_⟩
  have hone : FloatType.f16.format.unitsPerOne = 2 ^ 24 := by decide
  have hapart : apart.units = -74 := by decide
  have hscale : scale.units = -2 := by decide
  rw [Binary.toRat_zero, Binary.toRat, Binary.toRat, hapart, hscale, hone]
  norm_num

end Config

end SubByte
