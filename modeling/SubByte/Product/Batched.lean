/-
# Batched — one product for every batch of the output

The leading extents of the output count the batches.  Each operand broadcasts to them on
its own, by its own strides, so a weight matrix may serve every batch or each have its
own.
-/
import SubByte.Layout.Broadcast
import SubByte.Product.Plan
import SubByte.Tabulate

namespace SubByte

/-- The strides that address the matrices of a view by the batches of the target. -/
def requireBroadcast (view : View) (target : List Nat) : Checked QuantError (List Nat) :=
  Checked.ofShape (broadcastStrides (view.layout.batchShape 2) (view.layout.batchStrides 2) target)

/-- Where the matrices of a batch begin, by the strides of each operand. -/
def Offsets.ofBatch (shape x w scales biases : List Nat) (batch : Nat) : Except Fault Offsets := do
  let x ← locate shape x batch
  let w ← locate shape w batch
  let scales ← locate shape scales batch
  let biases ← locate shape biases batch
  return ⟨x, w, scales, biases⟩

/-- Where the matrices of every batch begin.  A plan of more batches than one allocation
holds is not made.  A product without elements reads no matrix, and its plan is empty. -/
def Offsets.ofBatches (dims : Dims) (shape x w scales biases : List Nat) :
    Except Fault (List Offsets) := do
  let count := extentProduct shape
  requireStorage count Offsets.bytes
  if dims.m = 0 ∨ dims.n = 0 then return []
  else tabulate (Offsets.ofBatch shape x w scales biases) 0 count

/-- The plan of a broadcast product. -/
def Plan.batched (operands : Operands) (out : View) (bits groupSize : Nat) (transposed : Bool) :
    Checked QuantError Plan := do
  let config ← Checked.ofExcept (Config.ofParameters bits groupSize)
  let settled ← operands.validate out config transposed
  let shape := outBatchShape out
  requireBlocks out (extentProduct shape) settled.2
  let x ← requireBroadcast operands.x shape
  let w ← requireBroadcast operands.w shape
  let scales ← requireBroadcast operands.scales shape
  let biases ← requireBroadcast operands.biases shape
  let batches ← Checked.ofFault (Offsets.ofBatches settled.2 shape x w scales biases)
  return ⟨settled.1, settled.2, config, transposed, batches⟩

/-- The product of activations with quantized weights, broadcast over the batches of
`out`: the verdict, and the output buffer after the call. -/
def quantizedMatmul (simd : Bool) (operands : Operands) (out : View) (bits groupSize : Nat)
    (transposed : Bool) : Written Buffer :=
  Plan.perform (Plan.batched operands out bits groupSize transposed) simd operands out.buffer

end SubByte
