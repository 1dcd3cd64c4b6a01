/-
# Errors — why a call is rejected

A rejected call names the first thing wrong with its arguments.  The causes are typed,
and the wording is in the `message` functions alone.  `ShapeError` holds the causes that
concern extents, which most checks of this library report on their own; `QuantError`
holds all causes, with a shape error as one of them.  `Stop` adds the faults, for the
operations that can meet either.
-/
import SubByte.Fault
import SubByte.DType

namespace SubByte

/-- The operands that messages speak of. -/
inductive Operand where
  | x
  | w
  | scales
  | biases
  | out
  | packed
  | array
  | lhsIndices
  | rhsIndices
deriving DecidableEq, Repr

/-- Extents that do not fit together, or do not fit the address range. -/
inductive ShapeError where
  /-- a batch shape that does not broadcast to the target -/
  | notBroadcastable (shape target : List Nat)
  /-- strides of another rank than the shape -/
  | rankMismatch (shape strides : List Nat)
  /-- more elements than an address can count -/
  | tooManyElements (shape : List Nat)
  /-- an element whose address does not fit -/
  | addressOverflow (shape strides : List Nat)
  /-- a size that does not fit an address -/
  | sizeOverflow (name : String)
  /-- a last dimension that does not split into whole groups -/
  | partialGroup (name : String) (inner groupSize : Nat)
  /-- an operand of a product without any dimension -/
  | noDimension (operand : Operand)
  /-- an output with another number of rows than the activation -/
  | rowMismatch (outRows xRows : Nat)
  /-- packed weights that are no matrix -/
  | weightRank (shape : List Nat)
  /-- packed weights of the wrong extents -/
  | weightShape (shape : List Nat) (rows inner bits : Nat) (transposed : Bool)
  /-- scales or biases of the wrong extents -/
  | groupShape (operand : Operand) (shape : List Nat) (rows groups : Nat)
  /-- scales and biases of different shapes -/
  | affineMismatch (scales biases : List Nat)
  /-- a tensor without a last dimension to quantize along -/
  | scalarTensor
  /-- gather indices of different shapes -/
  | indexMismatch (lhs rhs : List Nat)
  /-- an output that does not hold one block for every pair of indices -/
  | gatherCount (batchShape : List Nat) (products : Nat)
  /-- scales or biases batched otherwise than the weights -/
  | batchMismatch (operand : Operand) (shape weights : List Nat)
deriving DecidableEq, Repr

/-- Why a call is rejected. -/
inductive QuantError where
  | invalidBits (bits : Nat)
  | invalidGroupSize (size : Nat)
  | unsupportedDType (actual : DType)
  | dtypeMismatch (operand : Operand) (expected actual : DType)
  | shapeMismatch (cause : ShapeError)
  | notContiguous (operand : Operand)
  | bufferTooSmall (operand : Operand) (required actual : Nat)
  | indexOutOfBounds (operand : Operand) (index batches : Nat)
  | unsupportedSimd (bits : Nat)
deriving DecidableEq, Repr

/-- Why an operation that checks for causes `ε` does not finish. -/
inductive Stop (ε : Type) where
  /-- its arguments are wrong -/
  | rejected (cause : ε)
  /-- a value that it needs does not exist -/
  | fault (fault : Fault)
deriving DecidableEq, Repr

/-- What an operation that checks for causes `ε` returns. -/
abbrev Checked (ε α : Type) : Type := Except (Stop ε) α

/-! ## Wording -/

namespace Operand

/-- The name that messages use. -/
def name : Operand → String
  | x => "x"
  | w => "w"
  | scales => "scales"
  | biases => "biases"
  | out => "out"
  | packed => "packed"
  | array => "array"
  | lhsIndices => "lhs_indices"
  | rhsIndices => "rhs_indices"

end Operand

/-- A list of extents in brackets, as messages show it. -/
def showShape (shape : List Nat) : String :=
  "[" ++ ", ".intercalate (shape.map fun d => toString d) ++ "]"

/-- The text of a shape error. -/
def ShapeError.message : ShapeError → String
  | notBroadcastable shape target =>
    "cannot broadcast batch shape " ++ showShape shape ++ " to " ++ showShape target
  | rankMismatch shape strides =>
    "shape " ++ showShape shape ++ " and strides " ++ showShape strides ++ " differ in rank"
  | tooManyElements shape => "shape " ++ showShape shape ++ " has more than usize::MAX elements"
  | addressOverflow shape strides =>
    "shape " ++ showShape shape ++ " with strides " ++ showShape strides
      ++ " addresses past usize::MAX"
  | sizeOverflow name => name ++ " size overflow"
  | partialGroup name inner groupSize =>
    name ++ " last dimension " ++ toString inner ++ " must be a multiple of group_size "
      ++ toString groupSize
  | noDimension operand => operand.name ++ " must have at least one dimension"
  | rowMismatch outRows xRows => "out rows " ++ toString outRows ++ " != x rows " ++ toString xRows
  | weightRank shape => "w must be at least 2-D, got shape " ++ showShape shape
  | weightShape shape rows inner bits transposed =>
    "w shape " ++ showShape shape ++ " does not match a " ++ toString rows ++ "x" ++ toString inner
      ++ " matrix of " ++ toString bits ++ "-bit codes (transposed="
      ++ (if transposed then "true" else "false") ++ ")"
  | groupShape operand shape rows groups =>
    operand.name ++ " shape " ++ showShape shape ++ " does not match [.., " ++ toString rows ++ ", "
      ++ toString groups ++ "]"
  | affineMismatch scales biases =>
    "scales shape " ++ showShape scales ++ " != biases shape " ++ showShape biases
  | scalarTensor => "cannot quantize a scalar"
  | indexMismatch lhs rhs =>
    "lhs_indices shape " ++ showShape lhs ++ " != rhs_indices shape " ++ showShape rhs
  | gatherCount batchShape products =>
    "out batch shape " ++ showShape batchShape ++ " does not hold " ++ toString products
      ++ " gathered products"
  | batchMismatch operand shape weights =>
    operand.name ++ " batch shape " ++ showShape shape ++ " != w batch shape " ++ showShape weights

/-- The text of an error. -/
def QuantError.message : QuantError → String
  | invalidBits bits =>
    "invalid bits " ++ toString bits ++ ": supported widths are 2, 3, 4, 5, 6 and 8"
  | invalidGroupSize size =>
    "invalid group size " ++ toString size ++ ": supported sizes are 32, 64 and 128"
  | unsupportedDType actual => "unsupported dtype " ++ actual.name ++ ": expected f32, f16 or bf16"
  | dtypeMismatch operand expected actual =>
    "dtype mismatch for " ++ operand.name ++ ": expected " ++ expected.name ++ ", got "
      ++ actual.name
  | shapeMismatch cause => "shape mismatch: " ++ cause.message
  | notContiguous operand => operand.name ++ " must be row contiguous"
  | bufferTooSmall operand required actual =>
    "buffer too small for " ++ operand.name ++ ": need " ++ toString required ++ " elements, have "
      ++ toString actual
  | indexOutOfBounds operand index batches =>
    operand.name ++ " index " ++ toString index ++ " out of bounds for " ++ toString batches
      ++ " batches"
  | unsupportedSimd bits => "simd decode is not available for " ++ toString bits ++ "-bit codes"

/-! ## Passing on -/

namespace Checked

variable {ε α : Type}

/-- The call is rejected. -/
def reject (cause : ε) : Checked ε α :=
  .error (.rejected cause)

/-- A fault inside stops the operation around it. -/
def ofFault : Except Fault α → Checked ε α
  | .ok a => .ok a
  | .error f => .error (.fault f)

/-- A cause found inside rejects the operation around it. -/
def ofExcept : Except ε α → Checked ε α
  | .ok a => .ok a
  | .error cause => .error (.rejected cause)

/-- A shape error inside rejects the operation around it. -/
def ofShape : Checked ShapeError α → Checked QuantError α
  | .ok a => .ok a
  | .error (.rejected cause) => .error (.rejected (.shapeMismatch cause))
  | .error (.fault f) => .error (.fault f)

end Checked

end SubByte
