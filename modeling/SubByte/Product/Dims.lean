/-
# Dims — the extents of one product and of its operands

A product multiplies an activation of `m` rows and `k` columns by a weight matrix and
gives `m` rows of `n` columns.  The weights are stored as they are, `k` by `n`, or
transposed, `n` by `k`; codes and groups run along the stored rows.  `Dims.ofShapes`
derives the three numbers from the output and the activation and holds every operand's
shape against them, in a fixed order, so that the first thing wrong is what is reported.
-/
import SubByte.Extent
import SubByte.Packing.Sizes

namespace SubByte

/-- A shape as a stack of matrices. -/
structure MatrixShape where
  batch : List Nat
  rows : Nat
  cols : Nat
deriving DecidableEq, Repr

/-- The trailing matrix of a shape, and what is in front of it; one dimension alone is a
single row. -/
def MatrixShape.ofShape? (shape : List Nat) : Option MatrixShape :=
  match shape.reverse with
  | [] => none
  | [cols] => some ⟨[], 1, cols⟩
  | cols :: rows :: outer => some ⟨outer.reverse, rows, cols⟩

/-- The extents of one product. -/
structure Dims where
  m : Nat
  n : Nat
  k : Nat
deriving DecidableEq, Repr

namespace Dims

/-- The codes along a stored row of the weights. -/
def inner (dims : Dims) (transposed : Bool) : Nat :=
  if transposed then dims.k else dims.n

/-- The stored rows of the weights. -/
def rows (dims : Dims) (transposed : Bool) : Nat :=
  if transposed then dims.n else dims.k

/-! ## Shapes against extents -/

/-- An operand must have a trailing matrix. -/
def requireMatrix (operand : Operand) (shape : List Nat) : Checked ShapeError MatrixShape :=
  match MatrixShape.ofShape? shape with
  | some matrix => .ok matrix
  | none => Checked.reject (.noDimension operand)

/-- The output must have the rows of the activation. -/
def requireRows (out x : MatrixShape) : Checked ShapeError Unit :=
  if out.rows = x.rows then .ok () else Checked.reject (.rowMismatch out.rows x.rows)

/-- Packed weights must have two dimensions at least. -/
def requireWeightMatrix (w : List Nat) : Checked ShapeError MatrixShape :=
  match MatrixShape.ofShape? w with
  | some matrix => if w.length < 2 then Checked.reject (.weightRank w) else .ok matrix
  | none => Checked.reject (.weightRank w)

/-- Packed weights must be `rows` by the words of `inner` codes.  The words are counted
only when the rows are right. -/
def requireWeights (w : List Nat) (matrix : MatrixShape) (rows inner bits : Nat)
    (transposed : Bool) : Checked ShapeError Unit :=
  let failure := ShapeError.weightShape w rows inner bits transposed
  if matrix.rows = rows then do
    let words ← Checked.ofFault (Packing.packedWords? bits inner)
    if matrix.cols = words then .ok () else Checked.reject failure
  else Checked.reject failure

/-- Scales and biases must be matrices of `rows` by `groups`. -/
def requireGroups (operand : Operand) (shape : List Nat) (rows groups : Nat) :
    Checked ShapeError Unit :=
  match MatrixShape.ofShape? shape with
  | some matrix =>
    if 2 ≤ shape.length ∧ matrix.rows = rows ∧ matrix.cols = groups then .ok ()
    else Checked.reject (.groupShape operand shape rows groups)
  | none => Checked.reject (.groupShape operand shape rows groups)

/-- Scales and biases must be of one shape. -/
def requireSameShape (scales biases : List Nat) : Checked ShapeError Unit :=
  if scales = biases then .ok () else Checked.reject (.affineMismatch scales biases)

/-- The extents of the product of operands of these shapes, if they fit together. -/
def ofShapes (x w scales biases out : List Nat) (bits groupSize : Nat) (transposed : Bool) :
    Checked ShapeError Dims := do
  let xMatrix ← requireMatrix .x x
  let outMatrix ← requireMatrix .out out
  requireRows outMatrix xMatrix
  let dims : Dims := ⟨xMatrix.rows, outMatrix.cols, xMatrix.cols⟩
  let rows := dims.rows transposed
  let inner := dims.inner transposed
  let wMatrix ← requireWeightMatrix w
  requireWholeGroups "weight" inner groupSize
  requireWeights w wMatrix rows inner bits transposed
  requireGroups .scales scales rows (inner / groupSize)
  requireGroups .biases biases rows (inner / groupSize)
  requireSameShape scales biases
  return dims

end Dims

end SubByte
