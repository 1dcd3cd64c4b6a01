/-
# Finite — which finite weights stay finite

Whole groups of finite weights have finite biases, and a scale is finite exactly where the
difference of the group's extremes is.  A weight is restored as a finite one exactly where
the product of its code and its scale is finite (`restored_finite_iff`): in the wide formats
because no finite product is out of reach, in the half format because the product never
overflows, and where the scale is infinite because then no product is finite.

So nothing is lost of halves, and nothing of a group in which twice the difference is
finite (`quantized_finite`).  In between, with a finite difference whose double is not, a
weight may be restored as an infinite one.
-/
import SubByte.Proofs.Quantizer.Half

namespace SubByte

namespace Config

variable {config : Config} {type : FloatType} {group : List (Binary type.format)}

theorem product_finite_of_restored {v : Binary type.format}
    (h : (config.restored group v).isFinite) :
    (.ofNat .single ((config.affineOf group).code config.bins v.widen) *
      ((config.affineOf group).stored type.format).scale).isFinite :=
  (Binary.isFinite_of_add (Binary.isFinite_of_convert h)).1

/-- A weight of a group of finite ones is finite where its product is. -/
theorem restored_finite_iff (config : Config) (hfinite : ∀ v ∈ group, v.isFinite)
    {v : Binary type.format} (hv : v ∈ group) :
    (config.restored group v).isFinite ↔
      (.ofNat .single ((config.affineOf group).code config.bins v.widen) *
        ((config.affineOf group).stored type.format).scale).isFinite := by
  refine ⟨product_finite_of_restored, fun hproduct => ?_⟩
  have hne : group ≠ [] := List.ne_nil_of_mem hv
  cases hspread : (groupSpread group).isFinite with
  | false =>
      obtain ⟨⟨s, hscale⟩, -⟩ := config.restored_nan hne hfinite hspread
      rw [Affine.stored, hscale] at hproduct
      exact absurd hproduct (ne_true_of_eq_false (Binary.mul_infinite _ s))
  | true =>
      by_cases hhalf : type = .f16
      · subst hhalf
        exact config.restored_half hfinite hv
      · exact config.restored_wide hfinite hhalf hspread hv hproduct

theorem scale_finite_iff (config : Config) (hne : group ≠ []) (hfinite : ∀ v ∈ group, v.isFinite) :
    ((config.affineOf group).scale.narrow type.format).isFinite ↔ (groupSpread group).isFinite := by
  cases hspread : (groupSpread group).isFinite with
  | false =>
      obtain ⟨⟨s, hscale⟩, -⟩ := config.restored_nan hne hfinite hspread
      rw [hscale]
      exact Iff.rfl
  | true => exact iff_of_true (config.stored_scale hne hfinite hspread).1 rfl

/-- Finite weights have finite biases, and scales and restored weights are finite exactly
where the difference of the extremes is, and the product of code and scale.  Halves, and
groups in which twice the difference is finite, are restored as finite weights; a group with a
difference that is not finite is restored as no numbers. -/
theorem quantized_finite (config : Config) (type : FloatType) (weights : List (Binary type.format))
    (hgroups : weights.length % config.group.size = 0) (hfinite : ∀ v ∈ weights, v.isFinite) :
    ∃ stored restored, config.quantize weights = .ok stored ∧
      (∀ out : List (Binary type.format), out.length = weights.length →
        config.expandInto stored out = .ok restored) ∧
      stored.scales.length = weights.length / config.group.size ∧
      stored.biases.length = weights.length / config.group.size ∧
      restored.length = weights.length ∧
      (∀ g < weights.length / config.group.size, ∃ scale bias,
        stored.scales[g]? = some scale ∧ stored.biases[g]? = some bias ∧ bias.isFinite ∧
        (scale.isFinite ↔ (groupSpread (config.groupOf weights g)).isFinite) ∧
        (type = .f16 → scale.isFinite)) ∧
      ∀ i < weights.length, ∃ code scale w,
        Packing.readCode stored.packed config.width.bits i = .ok code ∧
        stored.scales[i / config.group.size]? = some scale ∧ restored[i]? = some w ∧
        (w.isFinite ↔ (.ofNat .single code * scale.widen : Single).isFinite) ∧
        let spread := groupSpread (config.groupOf weights (i / config.group.size))
        (type = .f16 ∨ (spread + spread).isFinite → w.isFinite) ∧
        (spread.isFinite = false → w = .nan) := by
  obtain ⟨stored, restored, hstored, hencodes, hexpand, hlength, hrestored⟩ :=
    config.quantize_restores weights hgroups
  have hgroup : ∀ g, ∀ v ∈ config.groupOf weights g, v.isFinite :=
    fun g v hv => hfinite v (mem_of_mem_groupOf hv)
  refine ⟨stored, restored, hstored, hexpand, hencodes.scalesLength, hencodes.biasesLength,
    hlength, fun g hg => ?_, fun i hi => ?_⟩
  · have hne : config.groupOf weights g ≠ [] := by
      rw [← List.length_pos_iff, length_groupOf hg]
      exact config.group.size_pos
    have hscale := config.scale_finite_iff hne (hgroup g)
    refine ⟨_, _, hencodes.scale g hg, hencodes.bias g hg,
      (config.stored_bias hne (hgroup g)).1, hscale, ?_⟩
    rintro rfl
    exact hscale.mpr (half_spread hne (hgroup g))
  · have hv := List.getElem?_eq_getElem hi
    obtain ⟨hg, hmem⟩ := mem_groupOf hgroups hv
    have hfiniteGroup := hgroup (i / config.group.size)
    have hiff := config.restored_finite_iff hfiniteGroup hmem
    refine ⟨_, _, _, hencodes.code i _ hv, hencodes.scale _ hg, hrestored i _ hv, hiff, ?_, ?_⟩
    · rintro (rfl | hdouble)
      · exact config.restored_half hfiniteGroup hmem
      · exact hiff.mpr (config.product_finite hfiniteGroup hdouble hmem)
    · intro hspread
      exact (config.restored_nan (List.ne_nil_of_mem hmem) hfiniteGroup hspread).2 _ hmem

/-- The largest halves of either sign stay finite. -/
theorem quantized_finite_halves :
    let top := Binary.largest FloatType.f16.format
    let weights := (List.replicate 16 [top, -top]).flatten
    weights.length % 32 = 0 ∧ (∀ v ∈ weights, v.isFinite) ∧
      ∃ stored restored, quantize ⟨.two, .g32⟩ weights = .ok stored ∧
        expandInto ⟨.two, .g32⟩ stored weights = .ok restored ∧
        (∃ scale, stored.scales[0]? = some scale ∧ scale.isFinite) ∧
        ∃ w, restored[31]? = some w ∧ w.isFinite := by
  intro top weights
  have hgroups : weights.length % (Config.group ⟨.two, .g32⟩).size = 0 := by decide
  have hfinite : ∀ v ∈ weights, v.isFinite := by decide
  obtain ⟨stored, restored, hstored, hexpand, -, -, -, hparameters, hweights⟩ :=
    quantized_finite ⟨.two, .g32⟩ .f16 weights hgroups hfinite
  obtain ⟨scale, -, hscale, -, -, -, hfiniteScale⟩ := hparameters 0 (by decide)
  obtain ⟨-, -, w, -, -, hw, -, hkept, -⟩ := hweights 31 (by decide)
  exact ⟨hgroups, hfinite, stored, restored, hstored, hexpand weights rfl,
    ⟨scale, hscale, hfiniteScale rfl⟩, w, hw, hkept (.inl rfl)⟩

/-- The largest singles of either sign are too far from each other, and all of them are lost. -/
theorem quantized_lost :
    let top := Binary.largest .single
    let weights : List Single := (List.replicate 16 [top, -top]).flatten
    (∀ v ∈ weights, v.isFinite) ∧
      quantize ⟨.two, .g32⟩ weights = .ok ⟨[0, 0], [.infinite true], [0]⟩ ∧
      expandInto ⟨.two, .g32⟩ ⟨[0, 0], [.infinite true], [0]⟩ weights =
        .ok (List.replicate 32 .nan) := by
  decide +kernel

/-- With a difference that is finite, but not twice, the largest code may stand for no finite
weight. -/
example :
    let low : Single := .ofRatio .single (3 * 2 ^ 126) 1
    let high : Single := .ofRatio .single (7 * 2 ^ 123) 1
    let weights : List Single := (List.replicate 16 [-low, high]).flatten
    (groupSpread weights).isFinite ∧ restored ⟨.two, .g32⟩ weights high = .infinite false := by
  decide +kernel

end Config

end SubByte
