/-
# Accepted calls — what a broadcast product needs in order to return

The checks of a broadcast product look at types, extents, strides and batches.  Operands
of the types and the extents of one product (`Dims.ofShapes_matrices`) with dense
matrices, over a dense output, pass them (`Operands.validate_accepts`); when their batches
broadcast to those of the output, and a plan with an entry for each of these fits one
allocation, the plan stands (`Plan.batched_accepts`).  Nothing behind the plan rejects:
the room for the blocks, which is asked for in between, is what a dense output has, and
the call writes its products (`quantizedMatmul_eq_ok`).

A target without batches has one block, of the matrices at the beginning of every buffer.
-/
import SubByte.Proofs.Layout.Dense
import SubByte.Proofs.Product.Atomicity

namespace SubByte

/-! ## Shapes -/

theorem MatrixShape.ofShape?_append (batch : List Nat) (rows cols : Nat) :
    ofShape? (batch ++ [rows, cols]) = some ⟨batch, rows, cols⟩ := by
  have hreverse : (batch ++ [rows, cols]).reverse = cols :: rows :: batch.reverse := by
    rw [List.reverse_append]
    rfl
  simp only [ofShape?, hreverse, List.reverse_reverse]

namespace Dims

variable {dims : Dims} {config : Config} {transposed : Bool}

/-- Stacks of matrices of the extents of a product are operands of one. -/
theorem ofShapes_matrices (xBatch wBatch groupBatch outBatch : List Nat)
    (hgroups : dims.inner transposed % config.group.size = 0) :
    ofShapes (xBatch ++ [dims.m, dims.k])
        (wBatch ++ [dims.rows transposed, config.wordsOf (dims.inner transposed)])
        (groupBatch ++ [dims.rows transposed, dims.inner transposed / config.group.size])
        (groupBatch ++ [dims.rows transposed, dims.inner transposed / config.group.size])
        (outBatch ++ [dims.m, dims.n]) config.width.bits config.group.size transposed =
      .ok dims := by
  have hrank : ∀ (batch : List Nat) (rows cols : Nat), 2 ≤ (batch ++ [rows, cols]).length := by
    intro batch rows cols
    rw [List.length_append]
    exact Nat.le_add_left 2 batch.length
  have hmatrix : ∀ operand batch rows cols,
      requireMatrix operand (batch ++ [rows, cols]) = .ok ⟨batch, rows, cols⟩ := by
    intro operand batch rows cols
    rw [requireMatrix, MatrixShape.ofShape?_append]
  have hweightMatrix : ∀ batch rows cols,
      requireWeightMatrix (batch ++ [rows, cols]) = .ok ⟨batch, rows, cols⟩ := by
    intro batch rows cols
    rw [requireWeightMatrix, MatrixShape.ofShape?_append]
    exact if_neg (Nat.not_lt_of_le (hrank batch rows cols))
  have hweights : ∀ w batch rows inner, requireWeights w ⟨batch, rows, config.wordsOf inner⟩ rows
      inner config.width.bits transposed = .ok () := by
    intro w batch rows inner
    simp only [requireWeights, if_true]
    rw [packedWords?_width, Checked.ofFault_ok, ok_bind]
    exact if_pos rfl
  have hparameters : ∀ operand batch rows groups,
      requireGroups operand (batch ++ [rows, groups]) rows groups = .ok () := by
    intro operand batch rows groups
    rw [requireGroups, MatrixShape.ofShape?_append]
    exact if_pos ⟨hrank batch rows groups, rfl, rfl⟩
  have hrows : requireRows ⟨outBatch, dims.m, dims.n⟩ ⟨xBatch, dims.m, dims.k⟩ = .ok () := if_pos rfl
  have hsame : ∀ shape, requireSameShape shape shape = .ok () := fun _ => if_pos rfl
  simp only [ofShapes]
  rw [hmatrix, ok_bind, hmatrix, ok_bind, hrows, ok_bind, hweightMatrix, ok_bind,
    requireWholeGroups_eq_ok _ hgroups, ok_bind, hweights, ok_bind, hparameters, ok_bind,
    hparameters, ok_bind, hsame, ok_bind]
  rfl

end Dims

/-! ## Checks -/

variable {operands : Operands} {out : View} {config : Config} {dims : Dims} {transposed : Bool}
  {type : FloatType} {bits groupSize : Nat}

/-- Operands of one float type whose extents fit pass the checks when they lie densely. -/
theorem Operands.validate_accepts (hx : operands.x.dtype = .float type)
    (hw : operands.w.dtype = .u32) (hscales : operands.scales.dtype = .float type)
    (hbiases : operands.biases.dtype = .float type) (hout : out.dtype = .float type)
    (hdims : operands.dims out config transposed = .ok dims)
    (hxDense : operands.x.layout.isMatrixContiguous = true)
    (hwDense : operands.w.layout.isMatrixContiguous = true)
    (hscalesDense : operands.scales.layout.isMatrixContiguous = true)
    (hbiasesDense : operands.biases.layout.isMatrixContiguous = true)
    (houtDense : out.layout.isRowContiguous = true) :
    operands.validate out config transposed = .ok (type, dims) := by
  have htype : requireFloatType operands.x = .ok type := by
    rw [requireFloatType, hx]
    rfl
  have hdtype : ∀ (operand : Operand) (view : View) (d : DType), view.dtype = d →
      requireDType operand d view = .ok () := fun _ _ _ hd => if_pos hd
  have hmatrices : ∀ (operand : Operand) (view : View), view.layout.isMatrixContiguous = true →
      requireMatrices operand view = .ok () := fun _ _ hdense => if_pos hdense
  have hdense : requireDense .out out = .ok () := if_pos houtDense
  rw [validate, htype, ok_bind, hdtype .w _ _ hw, ok_bind, hdtype .scales _ _ hscales, ok_bind,
    hdtype .biases _ _ hbiases, ok_bind, hdtype .out _ _ hout, ok_bind, hdims, ok_bind,
    hmatrices _ _ hxDense, ok_bind, hmatrices _ _ hwDense, ok_bind, hmatrices _ _ hscalesDense,
    ok_bind, hmatrices _ _ hbiasesDense, ok_bind, hdense, ok_bind]
  rfl

theorem requireBlocks_of_dense (hdense : out.layout.isRowContiguous = true)
    (hmatrix : HasMatrix out.shape dims.m dims.n) :
    requireBlocks out (extentProduct (outBatchShape out)) dims = .ok () := by
  obtain ⟨batch, hshape⟩ := hmatrix
  obtain ⟨hbatch, hcols, -, -⟩ := MatrixShape.ofShape?_eq_some hshape
  obtain ⟨len, hlen, -⟩ := out.covered
  have hbatchShape : outBatchShape out = batch := by rw [outBatchShape, hshape]
  have hsize : extentProduct batch * dims.m * dims.n = out.layout.size := by
    have hsplit := congrArg List.prod
      (List.take_append_drop (out.shape.length - 2) out.shape)
    rw [List.prod_append_nat, hbatch, hcols] at hsplit
    rw [Layout.size, extentProduct_eq_prod, extentProduct_eq_prod, Nat.mul_assoc]
    exact hsplit
  rw [hbatchShape, requireBlocks, hlen, Checked.ofExcept_ok, Checked.ofShape_ok, ok_bind]
  refine requireRoom_eq_ok (Nat.le_of_eq ?_)
  rw [hsize, Layout.requiredLength?_of_dense hdense hlen]

/-! ## Plans -/

theorem exists_requireBroadcast {view : View} {target : List Nat}
    (h : BroadcastsTo (view.layout.batchShape 2) target) :
    ∃ found, requireBroadcast view target = .ok found ∧ view.LedBy target found := by
  rcases requireBroadcast_cases view target with ⟨-, hfound⟩ | ⟨hnot, -⟩
  · exact hfound
  · exact absurd h hnot

namespace Plan

/-- A call that passes the checks and whose operands broadcast is planned, unless there is no
storage for the plan. -/
theorem batched_eq (hconfig : Config.ofParameters bits groupSize = .ok config)
    (hvalidate : operands.validate out config transposed = .ok (type, dims))
    (hto : operands.BroadcastTo (outBatchShape out)) :
    Plan.batched operands out bits groupSize transposed = (do
      Checked.ofFault (requireStorage (extentProduct (outBatchShape out)) Offsets.bytes)
      return Plan.broadcast operands type dims config transposed (outBatchShape out)) := by
  have hsettled := Operands.validate_eq_ok hvalidate
  have hblocks := requireBlocks_of_dense hsettled.outDense hsettled.fitted.out
  obtain ⟨x, hx, hxLed⟩ := exists_requireBroadcast hto.x
  obtain ⟨w, hw, hwLed⟩ := exists_requireBroadcast hto.w
  obtain ⟨scales, hscales, hscalesLed⟩ := exists_requireBroadcast hto.scales
  obtain ⟨biases, hbiases, hbiasesLed⟩ := exists_requireBroadcast hto.biases
  simp only [Plan.batched, hconfig, Checked.ofExcept_ok, ok_bind, hvalidate, hblocks, hx, hw,
    hscales, hbiases]
  rw [Offsets.ofBatches_eq hxLed hwLed hscalesLed hbiasesLed]
  cases requireStorage (extentProduct (outBatchShape out)) Offsets.bytes with
  | error _ => rfl
  | ok _ => rfl

theorem batched_accepts (hconfig : Config.ofParameters bits groupSize = .ok config)
    (hvalidate : operands.validate out config transposed = .ok (type, dims))
    (hto : operands.BroadcastTo (outBatchShape out))
    (hstorage : extentProduct (outBatchShape out) * Offsets.bytes ≤ storageLimit) :
    Plan.batched operands out bits groupSize transposed =
      .ok (Plan.broadcast operands type dims config transposed (outBatchShape out)) := by
  rw [batched_eq hconfig hvalidate hto, requireStorage_eq_ok_iff.mpr hstorage]
  rfl

theorem batched_eq_outOfStorage (hconfig : Config.ofParameters bits groupSize = .ok config)
    (hvalidate : operands.validate out config transposed = .ok (type, dims))
    (hto : operands.BroadcastTo (outBatchShape out))
    (hlimit : storageLimit < extentProduct (outBatchShape out) * Offsets.bytes) :
    Plan.batched operands out bits groupSize transposed = .error (.fault .outOfStorage) := by
  rw [batched_eq hconfig hvalidate hto, requireStorage_eq_error_iff.mpr ⟨rfl, hlimit⟩]
  rfl

/-- The matrices at the beginning of buffers that hold one weight matrix and nothing behind it. -/
theorem stretchesAt_origin {F : Format} (plan : Plan) (data : Matrices F)
    (hw : data.w.length = plan.dims.rows plan.transposed *
      plan.config.wordsOf (plan.dims.inner plan.transposed))
    (hscales : data.scales.length = plan.dims.rows plan.transposed *
      (plan.dims.inner plan.transposed / plan.config.group.size))
    (hbiases : data.biases.length = plan.dims.rows plan.transposed *
      (plan.dims.inner plan.transposed / plan.config.group.size)) :
    plan.stretchesAt data ⟨0, 0, 0, 0⟩ =
      ⟨data.x.take (plan.dims.m * plan.dims.k), data.w, data.scales, data.biases⟩ := by
  simp only [stretchesAt, List.drop_zero]
  rw [List.take_of_length_le (Nat.le_of_eq hw), List.take_of_length_le (Nat.le_of_eq hscales),
    List.take_of_length_le (Nat.le_of_eq hbiases)]

theorem products_single (simd : Bool) (hto : operands.BroadcastTo []) (data : Matrices type.format) :
    let plan := Plan.broadcast operands type dims config transposed []
    plan.products simd data = plan.productOf simd (plan.stretchesAt data ⟨0, 0, 0, 0⟩) := by
  intro plan
  have hplace : ∀ view : View, BroadcastsTo (view.layout.batchShape 2) [] →
      view.placeAt [] 0 = 0 := by
    intro view h
    have hshape := List.eq_nil_of_length_eq_zero (Nat.le_zero.mp h.1)
    rw [View.placeAt, hshape]
    rfl
  by_cases hempty : dims.m = 0 ∨ dims.n = 0
  · have hsize : dims.m * dims.n = 0 := Nat.mul_eq_zero.mpr hempty
    have hbatches : plan.batches = [] := if_pos hempty
    rw [products, hbatches]
    exact (List.eq_nil_of_length_eq_zero ((plan.length_productOf simd _).trans hsize)).symm
  · have hbatches : plan.batches = [operands.broadcastAt [] 0] := if_neg hempty
    have hfirst : operands.broadcastAt [] 0 = ⟨0, 0, 0, 0⟩ := by
      rw [Operands.broadcastAt, hplace _ hto.x, hplace _ hto.w, hplace _ hto.scales,
        hplace _ hto.biases]
    rw [products, hbatches, List.map_singleton, hfirst]
    exact List.append_nil _

end Plan

/-! ## Calls -/

theorem Operands.Reads.unique {data matrices : Matrices type.format}
    (h : operands.Reads type data) (h' : operands.Reads type matrices) : data = matrices := by
  have hx := h.x.symm.trans h'.x
  have hw := h.w.symm.trans h'.w
  have hscales := h.scales.symm.trans h'.scales
  have hbiases := h.biases.symm.trans h'.biases
  cases data
  cases matrices
  cases hx
  cases hw
  cases hscales
  cases hbiases
  rfl

/-- A call that is planned writes its products over the front of the output. -/
theorem quantizedMatmul_eq_ok {plan : Plan} {data : Matrices plan.type.format}
    {old : List (Binary plan.type.format)} (simd : Bool)
    (hplan : Plan.batched operands out bits groupSize transposed = .ok plan)
    (hdata : operands.Reads plan.type data) (hold : out.buffer = ⟨.float plan.type, old⟩) :
    quantizedMatmul simd operands out bits groupSize transposed =
      (.ok (), ⟨.float plan.type, overlay (plan.products simd data) old⟩) := by
  obtain ⟨data', hdata', old', hold', -, hexecute⟩ := (Plan.batched_prepared hplan).execute simd
  have hbuffer : old' = old := by
    rw [hold] at hold'
    cases hold'
    rfl
  rw [quantizedMatmul, hplan, Plan.perform, hexecute, hdata'.unique hdata, hbuffer]

end SubByte
