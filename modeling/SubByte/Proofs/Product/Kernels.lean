/-
# Kernels — what each kernel adds up, and in which order

Each output element is a running sum over the shared dimension, ascending from zero, of
an activation element times a weight by flat position (`Matrices.dotAt`), narrowed once.
The transposed kernel forms it group by group along a stored row; the plain kernel forms
all sums of an output row side by side, a stored row at a time.  `foldlM_columns` is the
step from the one to the other: sums kept side by side, each given one term at every
step, are the sums each on its own.

Under `Matrices.Stores` neither kernel can meet a fault, so both are stated as what they
return.
-/
import Mathlib.Data.List.Basic
import SubByte.Product.Kernel
import SubByte.Proofs.Product.StoredRows

namespace SubByte

variable {F : Format}

/-- The sum of `k` products, the activations from `x` on along a row, the weights where
`place` says. -/
def Matrices.dotAt (operands : Matrices F) (config : Config) (x : Nat) (place : Nat → Nat)
    (k : Nat) : Single :=
  (List.range k).foldl
    (fun sum t => sum + operands.xAt (x + t) * operands.weightAt config (place t)) 0

/-! ## Sums side by side -/

/-- Numbers kept side by side that do not look at each other are folded each on its own. -/
theorem foldlM_columns {ε α β : Type} {step : List β → α → Except ε (List β)}
    {element : Nat → α} (next : Nat → Nat → β → β) {n : Nat} :
    ∀ (k : Nat) (column : Nat → β),
      (∀ column : Nat → β, ∀ t < k, step ((List.range n).map column) (element t) =
        .ok ((List.range n).map fun j => next t j (column j))) →
      ((List.range k).map element).foldlM step ((List.range n).map column) =
        .ok ((List.range n).map fun j =>
          (List.range k).foldl (fun b t => next t j b) (column j))
  | 0, _, _ => rfl
  | k + 1, column, h => by
      have hfront := foldlM_columns next k column fun column t ht =>
        h column t (Nat.lt_succ_of_lt ht)
      rw [List.range_succ, List.map_append, List.foldlM_append, hfront, ok_bind, List.map_cons,
        List.foldlM_cons, h _ k (Nat.lt_succ_self k), ok_bind]
      simp only [List.foldl_append, List.foldl_cons, List.foldl_nil]
      rfl

namespace Kernel

variable {operands : Matrices F} {config : Config} {rows count : Nat}

/-! ## Weights as they are -/

theorem addRow_eq_ok (hstored : operands.Stores config rows count) {i : Nat} (hi : i < rows)
    (x : Single) (sums : Nat → Single) :
    addRow config x ((List.range (count * config.group.size)).map sums)
        ((List.range count).map fun q => operands.groupAt config (i * count + q)) =
      .ok ((List.range (count * config.group.size)).map fun j =>
        sums j + x * operands.weightAt config (i * (count * config.group.size) + j)) := by
  have hgroup : ∀ q ∈ List.range count,
      addGroup config x ((List.range config.group.size).map fun t =>
          sums (q * config.group.size + t)) (operands.groupAt config (i * count + q)) =
        .ok ((List.range config.group.size).map fun t =>
          sums (q * config.group.size + t) + x * operands.weightAt config
            (i * (count * config.group.size) + (q * config.group.size + t))) := by
    intro q hq
    have hflat := row_end_le hi (Nat.le_refl (rows * count))
    have hq := List.mem_range.mp hq
    rw [addGroup, Matrices.codes_groupAt hstored (by omega), ok_bind, pure_eq_ok,
      List.zipWith_map, List.zipWith_self]
    refine congrArg Except.ok (List.map_congr_left fun t ht => ?_)
    rw [Matrices.weight_groupAt _ _ _ (List.mem_range.mp ht), Nat.add_mul, Nat.mul_assoc,
      Nat.add_assoc]
  rw [addRow, wholeBlocks_map_range config.group.size_pos, List.zip_map',
    mapM_map_eq_ok hgroup, ok_bind, pure_eq_ok, ← List.flatMap_def,
    flatMap_range_mul fun j => sums j +
      x * operands.weightAt config (i * (count * config.group.size) + j)]
  refine congrArg Except.ok (overlay_eq_front ?_)
  rw [List.length_map, List.length_map]

theorem plainRow_eq_ok (hstored : operands.Stores config rows count) (x : Nat) :
    plainRow config (count * config.group.size) (Packing.bytesOfWords operands.w)
        operands.scales operands.biases
        ((List.range rows).map fun t => operands.x.getD (x + t) .nan) =
      .ok ((List.range (count * config.group.size)).map fun j =>
        (operands.dotAt config x (fun t => t * (count * config.group.size) + j) rows).narrow F) := by
  have hzip : ((List.range rows).map fun t => operands.x.getD (x + t) .nan).zipIdx =
      (List.range rows).map fun t => (operands.x.getD (x + t) .nan, t) := by
    rw [List.zipIdx_eq_zip_range', List.length_map, List.length_range, ← List.range_eq_range']
    exact (congrArg _ (List.map_id' _).symm).trans List.zip_map'
  have hzero : List.replicate (count * config.group.size) (0 : Single) =
      (List.range (count * config.group.size)).map fun _ => 0 := by
    rw [List.map_const', List.length_range]
  rw [plainRow, config.packedBytes_mul, Nat.mul_div_cancel _ config.group.size_pos, hzip, hzero,
    foldlM_columns (fun t j sum => sum + operands.xAt (x + t) *
      operands.weightAt config (t * (count * config.group.size) + j)), ok_bind, pure_eq_ok,
    List.map_map]
  · rfl
  · intro sums t ht
    rw [Matrices.readRow_groupAt hstored ht, ok_bind]
    exact addRow_eq_ok hstored ht _ sums

/-! ## Transposed weights -/

theorem dotGroup_eq_ok (hstored : operands.Stores config rows count) {i : Nat}
    (hi : i < rows * count) (x : Nat) (sum : Single) :
    dotGroup config sum ((List.range config.group.size).map fun t =>
        operands.x.getD (x + t) .nan) (operands.groupAt config i) =
      .ok ((List.range config.group.size).foldl (fun sum t => sum + operands.xAt (x + t) *
        operands.weightAt config (i * config.group.size + t)) sum) := by
  rw [dotGroup, Matrices.codes_groupAt hstored hi, ok_bind, pure_eq_ok, List.zip_map',
    List.foldl_map]
  refine congrArg Except.ok (List.foldl_ext _ _ _ fun sum t ht => ?_)
  rw [Matrices.weight_groupAt _ _ _ (List.mem_range.mp ht)]
  rfl

theorem transposedElement_eq_ok (hstored : operands.Stores config rows count) {j : Nat}
    (hj : j < rows) (x : Nat) :
    transposedElement config (count * config.group.size) (Packing.bytesOfWords operands.w)
        operands.scales operands.biases
        ((List.range (count * config.group.size)).map fun t => operands.x.getD (x + t) .nan) j =
      .ok ((operands.dotAt config x (fun t => j * (count * config.group.size) + t)
        (count * config.group.size)).narrow F) := by
  have hstep : ∀ sum : Single, ∀ q ∈ List.range count,
      dotGroup config sum ((List.range config.group.size).map fun t =>
          operands.x.getD (x + (q * config.group.size + t)) .nan)
          (operands.groupAt config (j * count + q)) =
        .ok ((List.range config.group.size).foldl (fun sum t => sum +
          operands.xAt (x + (q * config.group.size + t)) * operands.weightAt config
            (j * (count * config.group.size) + (q * config.group.size + t))) sum) := by
    intro sum q hq
    have hflat := row_end_le hj (Nat.le_refl (rows * count))
    have hq := List.mem_range.mp hq
    have hgroup := dotGroup_eq_ok hstored (i := j * count + q) (by omega)
      (x + q * config.group.size) sum
    simp only [Nat.add_mul, Nat.mul_assoc, Nat.add_assoc] at hgroup ⊢
    exact hgroup
  rw [transposedElement, config.packedBytes_mul, Nat.mul_div_cancel _ config.group.size_pos,
    Matrices.readRow_groupAt hstored hj, ok_bind, wholeBlocks_map_range config.group.size_pos,
    List.zip_map', foldlM_map_eq_ok hstep, ok_bind, pure_eq_ok,
    foldl_range_mul fun sum i => sum + operands.xAt (x + i) *
      operands.weightAt config (j * (count * config.group.size) + i)]
  rfl

end Kernel

end SubByte
