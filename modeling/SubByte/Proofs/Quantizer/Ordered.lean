/-
# Ordered — weights keep their order inside a group

Every step from a weight to what it is restored to follows the order of the numbers, or
turns it around, and the two that turn it around do so together: the quotient by a scale
below zero and the product with it.  The stored scale is on the same side of zero as the
scale that the codes are found with, or is zero; and where a scale is zero all weights of
the group are restored as the same number, whatever their codes are.

A product may be past the largest single.  Infinities are numbers here, and no weight is
restored as anything that is not one (`restored_le`).
-/
import SubByte.Proofs.Binary.Monotone
import SubByte.Proofs.Quantizer.Coding

namespace SubByte

namespace Affine

variable {affine : Affine} {v v' : Single} {code code' : Nat}

theorem code_le_code (config : Config)
    (h : ((v - affine.bias) / affine.scale).le ((v' - affine.bias) / affine.scale) = true) :
    affine.code config.bins v ≤ affine.code config.bins v' := by
  have hzero : (0 : Single) ≠ .nan := Binary.ne_nan Binary.isFinite_zero
  have hbins : config.bins ≠ .nan := Binary.ne_nan config.bins_finite.1
  have hheld := Binary.clamp_le hzero hbins (Binary.roundEven_le h)
  obtain ⟨hna, hnb⟩ := Binary.ne_nan_of_le hheld
  exact Binary.toWord_le hnb ((Binary.le_iff_lt hna hnb).mp hheld)

theorem value_le_value (hscale : affine.scale.isFinite) (hbias : affine.bias.isFinite)
    (hcode : code ≤ 2 * 2 ^ 23) (hcode' : code' ≤ 2 * 2 ^ 23)
    (h : code * affine.scale.toRat ≤ code' * affine.scale.toRat) :
    (affine.value code).le (affine.value code') = true := by
  obtain ⟨hwhole, hvalue⟩ := Binary.ofNat_finite hcode
  obtain ⟨hwhole', hvalue'⟩ := Binary.ofNat_finite hcode'
  refine Binary.add_le hbias ((Binary.mul_rounds hwhole hscale).le
    (Binary.mul_rounds hwhole' hscale) ?_)
  rwa [hvalue, hvalue']

end Affine

namespace Config

variable {config : Config} {type : FloatType} {group : List (Binary type.format)}

theorem quotient_le (config : Config) (hfinite : ∀ v ∈ group, v.isFinite)
    (hspread : (groupSpread group).isFinite) {v v' : Binary type.format} (hv : v ∈ group)
    (hv' : v' ∈ group) (hscale : (config.affineOf group).scale.toRat ≠ 0)
    (h : v.toRat / (config.affineOf group).scale.toRat ≤
      v'.toRat / (config.affineOf group).scale.toRat) :
    ((v.widen - (config.affineOf group).bias) / (config.affineOf group).scale).le
      ((v'.widen - (config.affineOf group).bias) / (config.affineOf group).scale) = true := by
  have hfiniteScale := (config.scale_within (List.ne_nil_of_mem hv) hfinite hspread).1
  obtain ⟨hdifference, hrounds⟩ := config.difference_finite hfinite hspread hv
  obtain ⟨hdifference', hrounds'⟩ := config.difference_finite hfinite hspread hv'
  refine (Binary.div_rounds hdifference hfiniteScale hscale).le
    (Binary.div_rounds hdifference' hfiniteScale hscale) ?_
  rcases lt_or_gt_of_ne hscale with hneg | hpos
  · rw [div_le_div_right_of_neg hneg] at h ⊢
    exact hrounds'.toRat_le hrounds hdifference' hdifference (sub_le_sub_right h _)
  · rw [div_le_div_iff_of_pos_right hpos] at h ⊢
    exact hrounds.toRat_le hrounds' hdifference hdifference' (sub_le_sub_right h _)

/-- Weights of a group are restored in their order. -/
theorem restored_le (config : Config) (hfinite : ∀ v ∈ group, v.isFinite)
    (hspread : (groupSpread group).isFinite) {v v' : Binary type.format} (hv : v ∈ group)
    (hv' : v' ∈ group) (h : v.toRat ≤ v'.toRat) :
    (config.restored group v).le (config.restored group v') = true := by
  have hne := List.ne_nil_of_mem hv
  have hscale := (config.scale_within hne hfinite hspread).1
  obtain ⟨hstored, hstoredWide⟩ := config.stored_scale hne hfinite hspread
  obtain ⟨-, hbias, -⟩ := config.stored_bias hne hfinite
  have hvalue : ((config.affineOf group).stored type.format).scale.toRat =
      ((config.affineOf group).scale.narrow type.format).toRat := (Binary.widen_finite hstored).2
  have hrounds := Binary.convert_rounds type.format hscale
  refine Binary.convert_le type.format (Affine.value_le_value hstoredWide hbias
    (config.code_short _ _) (config.code_short _ _) ?_)
  rw [hvalue]
  -- The stored scale is on the side of zero that the scale is on.
  rcases lt_trichotomy (config.affineOf group).scale.toRat 0 with hneg | hzero | hpos
  · have hcodes := Affine.code_le_code config
      (config.quotient_le hfinite hspread hv' hv (ne_of_lt hneg)
        ((div_le_div_right_of_neg hneg).mpr h))
    exact mul_le_mul_of_nonpos_right (by exact_mod_cast hcodes)
      (hrounds.nonpos hstored (le_of_lt hneg))
  · have hnone := le_antisymm (hrounds.nonpos hstored (le_of_eq hzero))
      (hrounds.nonneg hstored (le_of_eq hzero.symm))
    rw [hnone, mul_zero, mul_zero]
  · have hcodes := Affine.code_le_code config
      (config.quotient_le hfinite hspread hv hv' (ne_of_gt hpos)
        ((div_le_div_iff_of_pos_right hpos).mpr h))
    exact mul_le_mul_of_nonneg_right (by exact_mod_cast hcodes)
      (hrounds.nonneg hstored (le_of_lt hpos))

/-- Weights of one group are restored in their order, and as numbers. -/
theorem quantized_ordered (config : Config) (type : FloatType)
    (weights : List (Binary type.format)) (hgroups : weights.length % config.group.size = 0)
    (hfinite : ∀ v ∈ weights, v.isFinite)
    (hspread : ∀ g < weights.length / config.group.size,
      (groupSpread (config.groupOf weights g)).isFinite) :
    ∃ stored restored, config.quantize weights = .ok stored ∧
      (∀ out : List (Binary type.format), out.length = weights.length →
        config.expandInto stored out = .ok restored) ∧
      restored.length = weights.length ∧
      ∀ i j v v' w w', i / config.group.size = j / config.group.size →
        weights[i]? = some v → weights[j]? = some v' → v.le v' = true →
        restored[i]? = some w → restored[j]? = some w' → w.le w' = true := by
  obtain ⟨stored, restored, hstored, -, hexpand, hlength, hrestored⟩ :=
    config.quantize_restores weights hgroups
  refine ⟨stored, restored, hstored, hexpand, hlength, ?_⟩
  intro i j v v' w w' hsame hv hv' hle hw hw'
  rw [hrestored i v hv] at hw
  rw [hrestored j v' hv', ← hsame] at hw'
  cases hw
  cases hw'
  obtain ⟨hg, hmem⟩ := mem_groupOf hgroups hv
  obtain ⟨-, hmem'⟩ := mem_groupOf hgroups hv'
  rw [← hsame] at hmem'
  have hgroup : ∀ u ∈ config.groupOf weights (i / config.group.size), u.isFinite :=
    fun u hu => hfinite u (mem_of_mem_groupOf hu)
  exact config.restored_le hgroup (hspread _ hg) hmem hmem'
    ((Binary.le_iff (hgroup v hmem) (hgroup v' hmem')).mp hle)

/-- Weights so far apart that the larger ones are restored as infinite are in order too. -/
theorem quantized_ordered_far :
    let low : Single := .ofRatio .single (3 * 2 ^ 126) 1
    let high : Single := .ofRatio .single (7 * 2 ^ 123) 1
    let weights : List Single := (List.replicate 16 [-low, high]).flatten
    weights.length % 32 = 0 ∧ (∀ v ∈ weights, v.isFinite) ∧ (-low).le high = true ∧
      ∃ stored restored, quantize ⟨.two, .g32⟩ weights = .ok stored ∧
        expandInto ⟨.two, .g32⟩ stored weights = .ok restored ∧
        ∃ w w', restored[30]? = some w ∧ restored[5]? = some w' ∧ w.le w' = true := by
  intro low high weights
  have hgroups : weights.length % (Config.group ⟨.two, .g32⟩).size = 0 := by decide
  have hfinite : ∀ v ∈ weights, v.isFinite := by decide
  have hspread : ∀ g < weights.length / (Config.group ⟨.two, .g32⟩).size,
      (groupSpread (groupOf ⟨.two, .g32⟩ weights g)).isFinite := by decide +kernel
  have horder : (-low).le high = true := by decide
  obtain ⟨stored, restored, hstored, hexpand, hlength, hordered⟩ :=
    quantized_ordered ⟨.two, .g32⟩ .f32 weights hgroups hfinite hspread
  have hat : ∀ i < 32, ∃ w, restored[i]? = some w := fun i hi =>
    ⟨_, List.getElem?_eq_getElem (show i < restored.length by rw [hlength]; exact hi)⟩
  obtain ⟨w, hw⟩ := hat 30 (by decide)
  obtain ⟨w', hw'⟩ := hat 5 (by decide)
  exact ⟨hgroups, hfinite, horder, stored, restored, hstored, hexpand weights rfl, w, w', hw, hw',
    hordered 30 5 (-low) high w w' rfl rfl rfl horder hw hw'⟩

end Config

end SubByte
