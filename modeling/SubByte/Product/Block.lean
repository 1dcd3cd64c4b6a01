/-
# Block — one product written to the front of an output

Everything that a kernel needs is checked here: whole groups, a width that the kernel
decodes, sizes within the address range, and operands that are long enough.  The checks
come before the first write, so a rejected product leaves the output as it was.  A
product without rows or columns writes nothing, and one over an empty sum writes zeros.
-/
import SubByte.Product.Kernel

namespace SubByte

namespace Config

variable {F : Format}

/-- A kernel by lanes needs a width that it decodes. -/
def requireVariant (config : Config) (variant : Variant) : Checked QuantError Unit :=
  if variant = .lanes ∧ Variant.lanesFit config.width = false then
    Checked.reject (.unsupportedSimd config.width.bits)
  else .ok ()

/-- The size of an operand, which must fit the address range. -/
def requireSize (name : String) (extents : List Nat) : Checked QuantError Nat :=
  Checked.ofShape (Checked.ofExcept (sizeProduct name extents))

/-- The operands of one product must be long enough for its extents.  All sizes are
formed before the first length is looked at. -/
def requireOperands (config : Config) (dims : Dims) (transposed : Bool) (operands : Matrices F)
    (outLength : Nat) : Checked QuantError Unit := do
  let rows := dims.rows transposed
  let inner := dims.inner transposed
  let groups := inner / config.group.size
  let xSize ← requireSize "x" [dims.m, dims.k]
  let outSize ← requireSize "out" [dims.m, dims.n]
  let wSize ← requireSize "w" [rows, config.wordsOf inner]
  let scalesSize ← requireSize "scales" [rows, groups]
  let biasesSize ← requireSize "biases" [rows, groups]
  requireRoom .x xSize operands.x.length
  requireRoom .out outSize outLength
  requireRoom .w wSize operands.w.length
  requireRoom .scales scalesSize operands.scales.length
  requireRoom .biases biasesSize operands.biases.length

/-- The elements of one product; an empty sum is zero and needs no kernel. -/
def productOf (config : Config) (variant : Variant) (dims : Dims) (operands : Matrices F) :
    Checked QuantError (List (Binary F)) :=
  if dims.m = 0 ∨ dims.n = 0 then .ok []
  else if dims.k = 0 then .ok (List.replicate (dims.m * dims.n) 0)
  else Kernel.product config variant dims operands

/-- The product of `operands` written over the front of `out`. -/
def multiplyInto (config : Config) (variant : Variant) (dims : Dims) (operands : Matrices F)
    (out : List (Binary F)) : Checked QuantError (List (Binary F)) := do
  let transposed := variant.isTransposed
  Checked.ofShape (requireWholeGroups "weight" (dims.inner transposed) config.group.size)
  config.requireVariant variant
  config.requireOperands dims transposed operands out.length
  let product ← config.productOf variant dims operands
  return overlay product out

end Config

end SubByte
