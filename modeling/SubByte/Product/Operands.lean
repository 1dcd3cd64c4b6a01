/-
# Operands — the arguments of a batched product

The checks that the broadcast and the gathered product share: element types, extents,
and layouts, in this order.  What they settle is the element type and the extents of one
batch.
-/
import SubByte.Product.Dims
import SubByte.Config
import SubByte.Tensor.Check

namespace SubByte

/-- The views of the four operands. -/
structure Operands where
  x : View
  w : View
  scales : View
  biases : View

/-- The leading extents of an output, in front of its matrices. -/
def outBatchShape (out : View) : List Nat :=
  match MatrixShape.ofShape? out.shape with
  | some matrix => matrix.batch
  | none => []

/-- The output must address one block for every batch. -/
def requireBlocks (out : View) (batches : Nat) (dims : Dims) : Checked QuantError Unit := do
  let length ← Checked.ofShape (Checked.ofExcept out.layout.requiredLength?)
  requireRoom .out (batches * dims.m * dims.n) length

namespace Operands

/-- The extents of one batch, if all shapes fit together. -/
def dims (operands : Operands) (out : View) (config : Config) (transposed : Bool) :
    Checked QuantError Dims :=
  Checked.ofShape (Dims.ofShapes operands.x.shape operands.w.shape operands.scales.shape
    operands.biases.shape out.shape config.width.bits config.group.size transposed)

/-- The element type and the extents of one batch, if the operands and the output have
one each. -/
def validate (operands : Operands) (out : View) (config : Config) (transposed : Bool) :
    Checked QuantError (FloatType × Dims) := do
  let type ← requireFloatType operands.x
  requireDType .w .u32 operands.w
  requireDType .scales (.float type) operands.scales
  requireDType .biases (.float type) operands.biases
  requireDType .out (.float type) out
  let dims ← operands.dims out config transposed
  requireMatrices .x operands.x
  requireMatrices .w operands.w
  requireMatrices .scales operands.scales
  requireMatrices .biases operands.biases
  requireDense .out out
  return (type, dims)

end Operands

end SubByte
