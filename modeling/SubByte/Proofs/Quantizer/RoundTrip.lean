/-
# Round trip — what a quantized weight is restored to

Expanding what the quantizer has stored gives every weight back from its own group alone:
from the code that the group gives it and from the group's parameters, narrowed to the
storage format and widened again (`Config.restored`).  So what holds of the restored weights
of one group holds of every list of whole groups (`Config.quantize_restores`).
-/
import SubByte.Proofs.Quantizer.Encoded
import SubByte.Proofs.Quantizer.Expanded

namespace SubByte

variable {F : Format}

/-- Parameters as a storage format keeps them. -/
def Affine.stored (F : Format) (affine : Affine) : Affine :=
  ⟨(affine.scale.narrow F).widen, (affine.bias.narrow F).widen⟩

namespace Config

/-- What a weight of a group is restored to. -/
def restored (config : Config) (group : List (Binary F)) (v : Binary F) : Binary F :=
  let affine := config.affineOf group
  ((affine.stored F).value (affine.code config.bins v.widen)).narrow F

variable {config : Config} {weights : List (Binary F)}

theorem mem_of_mem_groupOf {g : Nat} {v : Binary F} (hv : v ∈ config.groupOf weights g) :
    v ∈ weights :=
  List.mem_of_mem_drop (List.mem_of_mem_take hv)

theorem mem_groupOf (hgroups : weights.length % config.group.size = 0) {i : Nat} {v : Binary F}
    (hv : weights[i]? = some v) :
    i / config.group.size < weights.length / config.group.size ∧
      v ∈ config.groupOf weights (i / config.group.size) := by
  obtain ⟨hi, rfl⟩ := List.getElem?_eq_some_iff.mp hv
  have hg : i / config.group.size < weights.length / config.group.size := by
    rw [Nat.div_lt_iff_lt_mul config.group.size_pos,
      Nat.div_mul_cancel (Nat.dvd_of_mod_eq_zero hgroups)]
    exact hi
  have ht := Nat.mod_lt i config.group.size_pos
  refine ⟨hg, List.mem_of_getElem? (i := i % config.group.size) ?_⟩
  rw [groupOf, List.getElem?_take_of_lt ht, List.getElem?_drop, Nat.div_add_mod',
    List.getElem?_eq_getElem hi]

theorem weightAt_encoded (hgroups : weights.length % config.group.size = 0) {i : Nat}
    {v : Binary F} (hv : weights[i]? = some v) :
    let stored : Quantized F :=
      ⟨Packing.wordsOfBytes (config.encoded weights).packed, (config.encoded weights).scales,
        (config.encoded weights).biases⟩
    (stored.operand.weightAt config i).narrow F =
      config.restored (config.groupOf weights (i / config.group.size)) v := by
  intro stored
  have hencodes : config.Encodes weights stored := encodes_encoded hgroups
  have hi := (List.getElem?_eq_some_iff.mp hv).1
  have hg := (mem_groupOf hgroups hv).1
  have hroom : (i + 1) * config.width.bits ≤ 32 * stored.packed.length := by
    rw [hencodes.words, (config.wordsOf_whole hgroups).2, Nat.mul_div_cancel_left _ (by decide),
      ← (config.wordsOf_whole hgroups).2]
    exact Nat.mul_le_mul_right _ hi
  have hcode := hencodes.code i v hv
  rw [Packing.readCode_eq_ok hroom] at hcode
  have hcode := Except.ok.inj hcode
  have haffine : stored.operand.affineAt (i / config.group.size) =
      (config.groupAffine weights (i / config.group.size)).stored F := by
    rw [Matrices.affineAt, Quantized.operand, List.getD_eq_getElem?_getD,
      List.getD_eq_getElem?_getD, hencodes.scale _ hg, hencodes.bias _ hg]
    rfl
  refine congrArg (Binary.narrow F) ?_
  rw [Matrices.weightAt, haffine]
  show Affine.weight _ (Packing.codeAt _ (Packing.streamOfWords stored.packed) i) = _
  rw [hcode, Affine.weight, Binary.mul_comm]
  rfl

/-- Whole groups are quantized and expanded again, over all of a buffer of their length, and
every weight is restored from its own group. -/
theorem quantize_restores (config : Config) (weights : List (Binary F))
    (hgroups : weights.length % config.group.size = 0) :
    ∃ stored restored, config.quantize weights = .ok stored ∧ config.Encodes weights stored ∧
      (∀ out : List (Binary F), out.length = weights.length →
        config.expandInto stored out = .ok restored) ∧
      restored.length = weights.length ∧
      ∀ i v, weights[i]? = some v →
        restored[i]? = some (config.restored (config.groupOf weights (i / config.group.size)) v) := by
  have hencodes : config.Encodes weights _ := encodes_encoded hgroups
  let stored : Quantized F :=
    ⟨Packing.wordsOfBytes (config.encoded weights).packed, (config.encoded weights).scales,
      (config.encoded weights).biases⟩
  have hpacked : config.wordsOf weights.length ≤ stored.packed.length := by
    have hbits := (config.wordsOf_whole hgroups).2
    rw [hencodes.words, hbits, Nat.mul_div_cancel_left _ (by decide)]
  refine ⟨stored, (List.range weights.length).map fun i =>
    (stored.operand.weightAt config i).narrow F, quantize_eq_ok hgroups, hencodes, ?_, ?_, ?_⟩
  · intro out hout
    rw [← hout] at hgroups hpacked
    have hexpand := expand_eq_ok hgroups hpacked
      (by rw [hout]; exact Nat.le_of_eq hencodes.scalesLength.symm)
      (by rw [hout]; exact Nat.le_of_eq hencodes.biasesLength.symm)
    rw [expandInto, hexpand, ok_bind, pure_eq_ok, hout,
      overlay_eq_front (by rw [List.length_map, List.length_range, hout])]
  · rw [List.length_map, List.length_range]
  · intro i v hv
    have hi := (List.getElem?_eq_some_iff.mp hv).1
    rw [List.getElem?_map, List.getElem?_range hi, Option.map_some]
    exact congrArg some (weightAt_encoded hgroups hv)

end Config

end SubByte
