/-
# Gathered — products of batches picked by index

Two index tensors of one shape name, for every block of the output, a batch of the
activations and a batch of the weights; both are counted in row-major order over the
operand's own batches.  Scales and biases go with the weights and must be batched as
they are, though by strides of their own.

All indices are read, in the order of the blocks and the activations' first, before any
product is formed.  They are kept as they come, in storage that grows with them, and the
plan that is made of them has an entry for every pair; either may be more than one
allocation holds.
-/
import SubByte.Product.Plan
import SubByte.Tabulate

namespace SubByte

/-- The views that name the batches. -/
structure GatherIndices where
  lhs : View
  rhs : View

/-! ## Checks -/

/-- The index views must be of one shape. -/
def requireSameIndices (indices : GatherIndices) : Checked QuantError Unit :=
  if indices.lhs.shape = indices.rhs.shape then .ok ()
  else Checked.reject (.shapeMismatch (.indexMismatch indices.lhs.shape indices.rhs.shape))

/-- The output must have as many blocks as there are pairs of indices. -/
def requireCount (out : View) (pairs : Nat) : Checked QuantError Unit :=
  if extentProduct (outBatchShape out) = pairs then .ok ()
  else Checked.reject (.shapeMismatch (.gatherCount (outBatchShape out) pairs))

/-- Scales and biases must be batched as the weights are. -/
def requireBatchesOf (w : View) (operand : Operand) (view : View) : Checked QuantError Unit :=
  let weights := w.layout.batchShape 2
  let shape := view.layout.batchShape 2
  if shape = weights then .ok ()
  else Checked.reject (.shapeMismatch (.batchMismatch operand shape weights))

/-- One index, which must name one of the batches. -/
def requireIndex (operand : Operand) (layout : Layout) (data : List UInt32) (batches i : Nat) :
    Checked QuantError Nat := do
  let place ← Checked.ofFault (layout.location i)
  let index ← Checked.ofFault (fetch data place)
  if index.toNat < batches then .ok index.toNat
  else Checked.reject (.indexOutOfBounds operand index.toNat batches)

/-- The bytes of an index that is kept, an address. -/
def indexBytes : Nat := 8

/-- One index, kept behind `i` others.  The storage of indices doubles when it is full, so it
must have room for twice as many as it holds. -/
def keepIndex (operand : Operand) (layout : Layout) (data : List UInt32) (batches i : Nat) :
    Checked QuantError Nat := do
  let index ← requireIndex operand layout data batches i
  Checked.ofFault (requireStorage (2 * i) indexBytes)
  return index

/-- The elements of an index view in row-major order, each of which must name one of the
batches. -/
def requireIndices (operand : Operand) (view : View) (batches : Nat) :
    Checked QuantError (List Nat) := do
  let data ← requireElements operand .u32 view
  tabulate (keepIndex operand view.layout data batches) 0 view.layout.size

/-! ## The product -/

/-- Where the matrices of a pair of batches begin. -/
def Offsets.ofPair (operands : Operands) (pair : Nat × Nat) : Except Fault Offsets := do
  let weights := operands.w.layout.batchShape 2
  let x ← locate (operands.x.layout.batchShape 2) (operands.x.layout.batchStrides 2) pair.1
  let w ← locate weights (operands.w.layout.batchStrides 2) pair.2
  let scales ← locate weights (operands.scales.layout.batchStrides 2) pair.2
  let biases ← locate weights (operands.biases.layout.batchStrides 2) pair.2
  return ⟨x, w, scales, biases⟩

/-- Where the matrices of every pair of batches begin.  A plan of more pairs than one
allocation holds is not made. -/
def Offsets.ofPairs (operands : Operands) (pairs : List (Nat × Nat)) :
    Except Fault (List Offsets) := do
  requireStorage pairs.length Offsets.bytes
  pairs.mapM (Offsets.ofPair operands)

/-- The plan of a gathered product. -/
def Plan.gathered (operands : Operands) (indices : GatherIndices) (out : View)
    (bits groupSize : Nat) (transposed : Bool) : Checked QuantError Plan := do
  let config ← Checked.ofExcept (Config.ofParameters bits groupSize)
  let settled ← operands.validate out config transposed
  requireDType .lhsIndices .u32 indices.lhs
  requireDType .rhsIndices .u32 indices.rhs
  requireSameIndices indices
  let pairs := indices.lhs.layout.size
  requireCount out pairs
  requireBlocks out pairs settled.2
  requireBatchesOf operands.w .scales operands.scales
  requireBatchesOf operands.w .biases operands.biases
  let lhs ← requireIndices .lhsIndices indices.lhs
    (extentProduct (operands.x.layout.batchShape 2))
  let rhs ← requireIndices .rhsIndices indices.rhs
    (extentProduct (operands.w.layout.batchShape 2))
  let batches ← Checked.ofFault (Offsets.ofPairs operands (lhs.zip rhs))
  return ⟨settled.1, settled.2, config, transposed, batches⟩

/-- The products of the pairs of batches that the indices name, in the blocks of `out`:
the verdict, and the output buffer after the call. -/
def gatheredMatmul (simd : Bool) (operands : Operands) (indices : GatherIndices) (out : View)
    (bits groupSize : Nat) (transposed : Bool) : Written Buffer :=
  Plan.perform (Plan.gathered operands indices out bits groupSize transposed) simd operands
    out.buffer

end SubByte
