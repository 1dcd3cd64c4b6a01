/-
# Expanded — stored weights and the reference expansion

Expanding goes group by group: the bytes of a group are unpacked to codes, and every code
becomes a weight of the group's scale and bias.  The reference of `SubByte.Dense.Affine`
reads every code bit by bit at its flat position.  Both give weight `i` of the operand
that the stored parts make (`Quantized.operand`, `Matrices.weightAt`), which the kernels
meet too; the expansion narrows it once, at its end.

Nothing is asked of what is stored but its lengths: the parts may be longer than needed
and may hold what no quantizer would leave there.
-/
import SubByte.Proofs.Dense.Affine
import SubByte.Proofs.Quantizer.Checks

namespace SubByte

variable {F : Format}

/-- The stored parts as an operand, beside which no activations stand. -/
def Quantized.operand (stored : Quantized F) : Matrices F :=
  ⟨[], stored.packed, stored.scales, stored.biases⟩

namespace Config

variable {config : Config} {stored : Quantized F} {groups count : Nat}

/-! ## Groups -/

theorem zip_groups (hscales : groups ≤ stored.scales.length)
    (hbiases : groups ≤ stored.biases.length) :
    (blocks config.groupBytes groups (Packing.bytesOfWords stored.packed)).zip
        (stored.scales.zip stored.biases) =
      (List.range groups).map fun g => ((stored.operand.groupAt config g).packed,
        (stored.scales.getD g .nan, stored.biases.getD g .nan)) := by
  have hparameters : groups ≤ (stored.scales.zip stored.biases).length := by
    rw [List.length_zip]
    exact Nat.le_min.mpr ⟨hscales, hbiases⟩
  rw [blocks_eq_map, zip_map_range (.nan, .nan) _ hparameters]
  refine List.map_congr_left fun g hg => ?_
  have hg := List.mem_range.mp hg
  have hscale := Nat.lt_of_lt_of_le hg hscales
  have hbias := Nat.lt_of_lt_of_le hg hbiases
  rw [List.getD_eq_getElem _ _ (Nat.lt_of_lt_of_le hg hparameters), List.getElem_zip,
    List.getD_eq_getElem _ _ hscale, List.getD_eq_getElem _ _ hbias]
  rfl

theorem expandGroup_groupAt (hstored : stored.operand.Stores config 1 groups) {g : Nat}
    (hg : g < groups) :
    config.expandGroup (stored.operand.groupAt config g).packed
        (stored.scales.getD g .nan, stored.biases.getD g .nan) =
      .ok ((List.range config.group.size).map fun t =>
        (stored.operand.weightAt config (g * config.group.size + t)).narrow F) := by
  have hcodes := Matrices.codes_groupAt hstored (i := g) (by rwa [Nat.one_mul])
  rw [Group.codes] at hcodes
  rw [expandGroup, hcodes, ok_bind, pure_eq_ok, List.map_map]
  refine congrArg Except.ok (List.map_congr_left fun t ht => ?_)
  rw [Function.comp_apply, ← Matrices.weight_groupAt _ _ g (List.mem_range.mp ht), Affine.value,
    Affine.weight, Binary.mul_comm]
  rfl

/-! ## All groups -/

theorem stores_operand (hgroups : count % config.group.size = 0)
    (hpacked : config.wordsOf count ≤ stored.packed.length)
    (hscales : count / config.group.size ≤ stored.scales.length)
    (hbiases : count / config.group.size ≤ stored.biases.length) :
    stored.operand.Stores config 1 (count / config.group.size) where
  packed := by
    obtain ⟨hwords, -⟩ := config.wordsOf_whole hgroups
    rw [Nat.one_mul, ← hwords]
    exact Nat.mul_le_mul_left 4 hpacked
  scales := by rwa [Nat.one_mul]
  biases := by rwa [Nat.one_mul]

theorem expand_eq_ok (hgroups : count % config.group.size = 0)
    (hpacked : config.wordsOf count ≤ stored.packed.length)
    (hscales : count / config.group.size ≤ stored.scales.length)
    (hbiases : count / config.group.size ≤ stored.biases.length) :
    config.expand stored count =
      .ok ((List.range count).map fun i => (stored.operand.weightAt config i).narrow F) := by
  have hstored := stores_operand hgroups hpacked hscales hbiases
  have hrequired : config.requireExpansion count stored = .ok () :=
    requireParts_eq_ok_iff.mpr ⟨hgroups, hpacked, hscales, hbiases⟩
  have hvalues : ((blocks config.groupBytes (count / config.group.size)
      (Packing.bytesOfWords stored.packed)).zip (stored.scales.zip stored.biases)).mapM
        (fun slot => config.expandGroup slot.1 slot.2) =
      .ok ((List.range (count / config.group.size)).map fun g =>
        (List.range config.group.size).map fun t =>
          (stored.operand.weightAt config (g * config.group.size + t)).narrow F) := by
    rw [zip_groups hscales hbiases]
    exact mapM_map_eq_ok fun g hg => expandGroup_groupAt hstored (List.mem_range.mp hg)
  have hjoined := flatMap_range_mul (fun i => (stored.operand.weightAt config i).narrow F)
    config.group.size (count / config.group.size)
  rw [Nat.div_mul_cancel (Nat.dvd_of_mod_eq_zero hgroups)] at hjoined
  simp only [expand]
  rw [hrequired, ok_bind, hvalues, Checked.ofFault_ok, ok_bind, pure_eq_ok, ← List.flatMap_def,
    hjoined]

theorem dequantize_eq_ok (hgroups : count % config.group.size = 0)
    (hpacked : config.wordsOf count ≤ stored.packed.length)
    (hscales : count / config.group.size ≤ stored.scales.length)
    (hbiases : count / config.group.size ≤ stored.biases.length) :
    Dense.dequantize stored.packed (stored.scales.map fun s => s.widen)
        (stored.biases.map fun b => b.widen) config.width.bits config.group.size count =
      .ok ((List.range count).map (stored.operand.weightAt config)) := by
  have hweights := Dense.dequantize_eq_ok (stores_operand hgroups hpacked hscales hbiases)
  rw [Nat.one_mul, Nat.div_mul_cancel (Nat.dvd_of_mod_eq_zero hgroups)] at hweights
  exact hweights

/-- Weights are written over the whole of a buffer, each the narrowed weight of the reference
for the same place, whatever the parts hold and however much longer they are. -/
theorem expandInto_reference (config : Config) (stored : Quantized F) (out : List (Binary F))
    (hgroups : out.length % config.group.size = 0)
    (hpacked : config.wordsOf out.length ≤ stored.packed.length)
    (hscales : out.length / config.group.size ≤ stored.scales.length)
    (hbiases : out.length / config.group.size ≤ stored.biases.length) :
    ∃ weights, weights.length = out.length ∧
      Dense.dequantize stored.packed (stored.scales.map fun s => s.widen)
          (stored.biases.map fun b => b.widen) config.width.bits config.group.size out.length =
        .ok weights ∧
      config.expandInto stored out = .ok (weights.map fun weight => weight.narrow F) := by
  refine ⟨_, ?_, dequantize_eq_ok hgroups hpacked hscales hbiases, ?_⟩
  · rw [List.length_map, List.length_range]
  · rw [expandInto, expand_eq_ok hgroups hpacked hscales hbiases, ok_bind, pure_eq_ok,
      overlay_eq_front (by rw [List.length_map, List.length_range]), List.map_map]
    rfl

/-- Two groups of three bits, with a word, a scale and two biases to spare; the second
group has a scale that is no number. -/
theorem expandInto_reference_surplus :
    let stored : Quantized .brain :=
      ⟨(List.range 7).map fun i => .ofNat (i * 2654435761),
        [.ofRatio .brain 3 8, .nan, .infinite true], [0, 0, .nan, .infinite false]⟩
    let out : List (Binary .brain) := List.replicate 64 .nan
    out.length % 32 = 0 ∧ wordsOf ⟨.three, .g32⟩ out.length ≤ stored.packed.length ∧
      out.length / 32 ≤ stored.scales.length ∧ out.length / 32 ≤ stored.biases.length ∧
      ∃ weights, weights.length = 64 ∧
        Dense.dequantize stored.packed (stored.scales.map fun s => s.widen)
            (stored.biases.map fun b => b.widen) 3 32 64 = .ok weights ∧
        expandInto ⟨.three, .g32⟩ stored out =
          .ok (weights.map fun weight => weight.narrow .brain) := by
  intro stored out
  have hgroups : out.length % (Config.group ⟨.three, .g32⟩).size = 0 := by decide
  have hpacked : wordsOf ⟨.three, .g32⟩ out.length ≤ stored.packed.length := by decide
  have hscales : out.length / (Config.group ⟨.three, .g32⟩).size ≤ stored.scales.length := by
    decide
  have hbiases : out.length / (Config.group ⟨.three, .g32⟩).size ≤ stored.biases.length := by
    decide
  exact ⟨hgroups, hpacked, hscales, hbiases,
    expandInto_reference ⟨.three, .g32⟩ stored out hgroups hpacked hscales hbiases⟩

end Config

end SubByte
