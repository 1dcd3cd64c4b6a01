/-
# Weights — quantized tensors

A tensor is quantized along its last dimension, so every row of it is a run of whole
groups.  What is stored remembers the shape it came from; the shapes of its three parts
follow from that shape with the last extent replaced, by the words of a row or by the
groups of a row.
-/
import SubByte.Quantizer.Flat
import SubByte.Tensor.Check

namespace SubByte

/-- A quantized tensor. -/
structure Weights where
  packed : List UInt32
  scales : FloatBuffer
  biases : FloatBuffer
  /-- the shape of the tensor before it was quantized -/
  shape : List Nat
  config : Config

/-- The three parts of a quantized tensor, as a product takes them. -/
structure WeightViews where
  packed : View
  scales : View
  biases : View

/-- A shape with its last extent replaced. -/
def withLast : List Nat → Nat → List Nat
  | [], _ => []
  | [_], last => [last]
  | d :: e :: shape, last => d :: withLast (e :: shape) last

/-- A tensor must have a last dimension to be quantized along. -/
def requireLast (shape : List Nat) : Checked QuantError Nat :=
  match shape.getLast? with
  | some inner => .ok inner
  | none => Checked.reject (.shapeMismatch .scalarTensor)

namespace Weights

/-- The last extent. -/
def inner (q : Weights) : Nat :=
  q.shape.getLast?.getD 0

/-- The shape of the packed codes, in words. -/
def packedShape (q : Weights) : List Nat :=
  withLast q.shape (q.config.wordsOf q.inner)

/-- The shape of the scales and of the biases. -/
def groupShape (q : Weights) : List Nat :=
  withLast q.shape (q.inner / q.config.group.size)

/-- The element type of the tensor. -/
def dtype (q : Weights) : DType :=
  q.scales.dtype

/-- Dense views of the three parts. -/
def views (q : Weights) : Except QuantError WeightViews := do
  let packed ← View.contiguous ⟨.u32, q.packed⟩ q.packedShape
  let scales ← View.contiguous q.scales.toBuffer q.groupShape
  let biases ← View.contiguous q.biases.toBuffer q.groupShape
  return ⟨packed, scales, biases⟩

/-- A dense tensor of floats quantized along its last dimension. -/
def ofView (view : View) (bits groupSize : Nat) : Checked QuantError Weights := do
  let config ← Checked.ofExcept (Config.ofParameters bits groupSize)
  let floats ← requireFloats view
  let inner ← requireLast view.shape
  Checked.ofShape (requireWholeGroups "w" inner config.group.size)
  requireDense .w view
  let elements ← Checked.ofFault (slice floats.data 0 view.layout.size)
  let stored ← config.quantize elements
  return {
    packed := stored.packed
    scales := ⟨floats.type, stored.scales⟩
    biases := ⟨floats.type, stored.biases⟩
    shape := view.shape
    config := config }

/-- The tensor expanded to its element type, as many weights as its shape has elements.
The room for them is taken before the lengths of the three parts are looked at. -/
def expand (q : Weights) : Checked QuantError FloatBuffer :=
  match q.biases.toBuffer.as? q.dtype with
  | none => Checked.reject (.dtypeMismatch .biases q.dtype q.biases.dtype)
  | some biases => do
    let count := extentProduct q.shape
    Checked.ofFault (requireStorage count q.scales.type.format.bytes)
    let values ← q.config.expand ⟨q.packed, q.scales.data, biases⟩ count
    return ⟨q.scales.type, values⟩

end Weights

end SubByte
