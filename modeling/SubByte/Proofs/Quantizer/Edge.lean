/-
# Edge — which extremes are restored exactly

The edge of a group is its bias, is stored exactly, and has the code zero; so it is
restored as the same number, with one exception.  An edge that is no more than half the
floor of the scale away from zero gives way to a bias of zero, and is then less than half a
step from the bias: it is restored as zero (`restored_edge_iff`).  So a group of equal
weights is restored exactly unless these are that small and not zero
(`restored_edges_iff`).
-/
import SubByte.Proofs.Quantizer.Coding

namespace SubByte

namespace Config

variable {config : Config} {type : FloatType} {group : List (Binary type.format)}

/-- Where the edge is no more than half the floor the bias is zero, and so are the codes of
all weights. -/
theorem code_of_small_edge (config : Config) (hne : group ≠ []) (hfinite : ∀ v ∈ group, v.isFinite)
    (hspread : (groupSpread group).isFinite)
    (hedge : |(Affine.edgeOf (groupMin group) (groupMax group)).toRat| ≤ scaleFloor.toRat / 2)
    {v : Binary type.format} (hv : v.isFinite) (hsmall : |v.toRat| ≤ scaleFloor.toRat / 2) :
    (config.affineOf group).bias = 0 ∧ (config.affineOf group).code config.bins v.widen = 0 := by
  have hspans := config.spans hne hfinite
  obtain ⟨hwide, hwideValue⟩ := Binary.widen_finite hv
  obtain ⟨hcoarse, habs⟩ := hspans.coarseOf_finite hspread
  rw [hspans.stepOf_eq_floor hspread hedge] at habs
  have hrange : config.affineOf group =
      ⟨Affine.coarseOf (groupMin group) (groupMax group) config.bins, 0⟩ := by
    rcases hspans.ofRange_cases hspread with ⟨-, hrange⟩ | ⟨hpast, -⟩
    · exact hrange
    · exact absurd hedge (not_le.mpr hpast)
  rw [hrange]
  refine ⟨rfl, ?_⟩
  generalize Affine.coarseOf (groupMin group) (groupMax group) config.bins = coarse at hcoarse habs
  -- The weight is its own difference from the bias, and half a step at most.
  obtain ⟨hdifference, hdifferenceValue⟩ := Binary.sub_zero_finite hwide
  have hcoarseNonzero : coarse.toRat ≠ 0 := by
    intro hzero
    rw [hzero, abs_zero] at habs
    exact absurd habs (ne_of_lt Affine.scaleFloor_pos)
  have hquotient := Binary.div_rounds hdifference hcoarse hcoarseNonzero
  have hhalf : |(v.widen - 0).toRat / coarse.toRat| ≤ (Binary.ofRatio .single 1 2).toRat := by
    rw [Binary.toRat_one_half, hdifferenceValue, hwideValue, abs_div, habs,
      div_le_iff₀ Affine.scaleFloor_pos]
    linarith
  obtain ⟨hfiniteQuotient, hquotientValue⟩ := hquotient.within rfl hhalf
  rw [Binary.toRat_one_half] at hquotientValue
  exact Affine.code_of_near_bias config hfiniteQuotient hquotientValue

/-- The edge of a group is restored unless it is no more than half the floor and not zero. -/
theorem restored_edge_iff (config : Config) (hfinite : ∀ v ∈ group, v.isFinite)
    (hspread : (groupSpread group).isFinite) {v : Binary type.format}
    (hv : v ∈ group) (hedge : IsEdge group v) :
    ((config.restored group v).isFinite ∧ (config.restored group v).toRat = v.toRat) ↔
      v.toRat = 0 ∨ scaleFloor.toRat / 2 < |v.toRat| := by
  have hne : group ≠ [] := List.ne_nil_of_mem hv
  have hspans := config.spans hne hfinite
  obtain ⟨edge, -, hvalue, hunique⟩ := exists_edge hne hfinite
  rw [← hunique v hedge] at hvalue
  by_cases hsmall : |v.toRat| ≤ scaleFloor.toRat / 2
  · -- The bias is zero, and so is what the edge is restored to.
    obtain ⟨hbias, hcode⟩ := config.code_of_small_edge hne hfinite hspread
      (by rwa [hvalue]) (hfinite v hv) hsmall
    obtain ⟨hrestored, hzero⟩ := config.restored_of_code_zero hne hfinite hspread hcode
    rw [hbias, Binary.toRat_zero] at hzero
    constructor
    · rintro ⟨-, hequal⟩
      exact .inl (by rw [← hequal, hzero])
    · rintro (hnone | hpast)
      · exact ⟨hrestored, by rw [hzero, hnone]⟩
      · exact absurd hsmall (not_le.mpr hpast)
  · -- The bias is the edge, whose own code is zero.
    have hpast := not_le.mp hsmall
    obtain ⟨hwide, hwideValue⟩ := Binary.widen_finite (hfinite v hv)
    have hbias : (config.affineOf group).bias = Affine.edgeOf (groupMin group) (groupMax group) := by
      rw [config.affineOf_past hne hfinite hspread (by rwa [hvalue])]
    have hcode : (config.affineOf group).code config.bins v.widen = 0 := by
      refine Affine.code_of_eq_bias config hwide ?_ ?_
      · rw [hbias]
        exact hspans.isFinite_edgeOf
      · rw [hbias, hwideValue, hvalue]
    obtain ⟨hrestored, hequal⟩ := config.restored_of_code_zero hne hfinite hspread hcode
    rw [hbias, hvalue] at hequal
    exact ⟨fun _ => .inr hpast, fun _ => ⟨hrestored, hequal⟩⟩

/-- The edges of all groups are restored, apart from those that are no more than half the
floor of the scale and not zero. -/
theorem restored_edges_iff (config : Config) (type : FloatType)
    (weights : List (Binary type.format)) (hgroups : weights.length % config.group.size = 0)
    (hfinite : ∀ v ∈ weights, v.isFinite)
    (hspread : ∀ g < weights.length / config.group.size,
      (groupSpread (config.groupOf weights g)).isFinite) :
    ∃ stored restored, config.quantize weights = .ok stored ∧
      (∀ out : List (Binary type.format), out.length = weights.length →
        config.expandInto stored out = .ok restored) ∧
      restored.length = weights.length ∧
      ∀ i v w, weights[i]? = some v → restored[i]? = some w →
        IsEdge (config.groupOf weights (i / config.group.size)) v →
          ((w.isFinite ∧ w.toRat = v.toRat) ↔
            v.toRat = 0 ∨ scaleFloor.toRat / 2 < |v.toRat|) := by
  obtain ⟨stored, restored, hstored, -, hexpand, hlength, hrestored⟩ :=
    config.quantize_restores weights hgroups
  refine ⟨stored, restored, hstored, hexpand, hlength, ?_⟩
  intro i v w hv hw hedge
  rw [hrestored i v hv] at hw
  cases hw
  obtain ⟨hg, hmem⟩ := mem_groupOf hgroups hv
  exact config.restored_edge_iff (fun u hu => hfinite u (mem_of_mem_groupOf hu)) (hspread _ hg)
    hmem hedge

/-- A group of equal weights of ordinary size, and one of weights below half the floor. -/
theorem restored_edges_iff_constant :
    let ordinary : Single := .ofRatio .single 3 4
    let tiny : Single := .ofRatio .single 1 100000000
    let weights := List.replicate 32 ordinary ++ List.replicate 32 tiny
    weights.length % 32 = 0 ∧ (∀ v ∈ weights, v.isFinite) ∧
      ∃ stored restored, quantize ⟨.four, .g32⟩ weights = .ok stored ∧
        expandInto ⟨.four, .g32⟩ stored weights = .ok restored ∧
        (∃ w, restored[5]? = some w ∧ w.isFinite ∧ w.toRat = ordinary.toRat) ∧
        ∃ w, restored[40]? = some w ∧ ¬ (w.isFinite ∧ w.toRat = tiny.toRat) := by
  intro ordinary tiny weights
  have hgroups : weights.length % (Config.group ⟨.four, .g32⟩).size = 0 := by decide
  have hfinite : ∀ v ∈ weights, v.isFinite := by decide
  have hspread : ∀ g < weights.length / (Config.group ⟨.four, .g32⟩).size,
      (groupSpread (groupOf ⟨.four, .g32⟩ weights g)).isFinite := by decide +kernel
  obtain ⟨stored, restored, hstored, hexpand, hlength, hiff⟩ :=
    restored_edges_iff ⟨.four, .g32⟩ .f32 weights hgroups hfinite hspread
  have hfirst : ∀ w ∈ groupOf ⟨.four, .g32⟩ weights (5 / 32), w = ordinary := by decide
  have hsecond : ∀ w ∈ groupOf ⟨.four, .g32⟩ weights (40 / 32), w = tiny := by decide
  have hat : ∀ i < 64, ∃ w, restored[i]? = some w := fun i hi =>
    ⟨_, List.getElem?_eq_getElem (show i < restored.length by rw [hlength]; exact hi)⟩
  obtain ⟨w, hw⟩ := hat 5 (by decide)
  obtain ⟨u, hu⟩ := hat 40 (by decide)
  have hone : Format.single.unitsPerOne = 2 ^ 149 := by decide
  have hordinary : scaleFloor.toRat / 2 < |ordinary.toRat| := by
    have hunits : ordinary.units = 3 * 2 ^ 147 := by decide
    rw [Affine.scaleFloor_toRat, Binary.toRat, hunits, hone]
    norm_num
  have htiny : ¬ (tiny.toRat = 0 ∨ scaleFloor.toRat / 2 < |tiny.toRat|) := by
    have hunits : tiny.units = 7136238420159517301610989946312589312 := by decide
    rw [Affine.scaleFloor_toRat, Binary.toRat, hunits, hone]
    norm_num
  refine ⟨hgroups, hfinite, stored, restored, hstored, hexpand weights rfl, ⟨w, hw, ?_⟩, u, hu, ?_⟩
  · refine (hiff 5 ordinary w rfl hw ?_).mpr (.inr hordinary)
    exact isEdge_of_forall_eq (mem_groupOf hgroups rfl).2
      fun v hv => congrArg Binary.toRat (hfirst v hv)
  · refine fun hrestored => htiny ((hiff 40 tiny u rfl hu ?_).mp hrestored)
    exact isEdge_of_forall_eq (mem_groupOf hgroups rfl).2
      fun v hv => congrArg Binary.toRat (hsecond v hv)

/-- Equal weights below half the floor are restored as zeros. -/
theorem restored_edges_lost :
    let tiny : Single := .ofRatio .single 1 100000000
    let weights := List.replicate 32 tiny
    (∀ v ∈ weights, v.isFinite ∧ IsEdge weights v ∧ v.toRat ≠ 0) ∧
      (groupSpread weights).isFinite ∧
      ∃ stored, quantize ⟨.four, .g32⟩ weights = .ok stored ∧
        expandInto ⟨.four, .g32⟩ stored weights = .ok (List.replicate 32 0) := by
  intro tiny weights
  have htiny : ∀ v ∈ weights, v = tiny := fun v hv => (List.mem_replicate.mp hv).2
  refine ⟨?_, by decide +kernel, ⟨[0, 0, 0, 0], [-scaleFloor], [0]⟩, ?_, ?_⟩
  · intro v hv
    cases htiny v hv
    refine ⟨rfl, isEdge_of_forall_eq hv fun w hw => congrArg Binary.toRat (htiny w hw), ?_⟩
    intro hzero
    have hzero := (Binary.isZero_iff (show tiny.isFinite from rfl)).mpr hzero
    exact absurd hzero (by decide)
  · decide +kernel
  · decide +kernel

end Config

end SubByte
