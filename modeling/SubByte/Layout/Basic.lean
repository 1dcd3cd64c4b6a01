/-
# Layout — where the elements of a tensor lie

A tensor's elements are counted in row-major order of its shape; its strides say how far
apart in the buffer neighbours along each dimension lie.  `locate` takes a count apart
over the dimensions, the innermost first, and adds up the strides.  `requiredLength?` is
the least length of a buffer that covers every element, and the one place where
addresses are held to 64 bits.

A layout is *row contiguous* when the count of an element is its location, and *matrix
contiguous* when that holds within each of its trailing matrices.  Dimensions of one
element may carry any stride.
-/
import SubByte.Extent

namespace SubByte

/-- The location of element `e`, with the dimensions and their strides from the
innermost outward. -/
def locateInward : List (Nat × Nat) → Nat → Except Fault Nat
  | [], _ => .ok 0
  | (extent, stride) :: outer, e =>
    if extent = 0 then .error .zeroDivisor
    else do
      let rest ← locateInward outer (e / extent)
      return e % extent * stride + rest

/-- The location of element `e`.  Dimensions and strides are paired from the first on,
and what has no partner is not looked at. -/
def locate (shape strides : List Nat) (e : Nat) : Except Fault Nat :=
  locateInward (shape.zip strides).reverse e

/-- The number of elements behind a dimension, counted from the innermost extent outward
and held at the largest address. -/
def heldCount (inner : List Nat) : Nat :=
  inner.foldr (fun d count => min (count * d) (addressLimit - 1)) 1

/-- The strides of a dense tensor: each counts the elements behind its dimension. -/
def rowMajorStrides : List Nat → List Nat
  | [] => []
  | _ :: inner => heldCount inner :: rowMajorStrides inner

theorem length_rowMajorStrides (shape : List Nat) :
    (rowMajorStrides shape).length = shape.length := by
  induction shape with
  | nil => rfl
  | cons d inner ih => rw [rowMajorStrides, List.length_cons, ih, List.length_cons]

/-- Extents with a stride for each. -/
structure Layout where
  shape : List Nat
  strides : List Nat
  rank_eq : strides.length = shape.length

namespace Layout

/-- The dense layout of a shape. -/
def contiguous (shape : List Nat) : Layout :=
  ⟨shape, rowMajorStrides shape, length_rowMajorStrides shape⟩

/-- The layout of a shape with strides of its own. -/
def strided (shape strides : List Nat) : Except ShapeError Layout :=
  if h : strides.length = shape.length then .ok ⟨shape, strides, h⟩
  else .error (.rankMismatch shape strides)

/-- The number of dimensions. -/
def rank (layout : Layout) : Nat :=
  layout.shape.length

/-- The number of elements. -/
def size (layout : Layout) : Nat :=
  extentProduct layout.shape

/-- The extents paired with their strides. -/
def dimensions (layout : Layout) : List (Nat × Nat) :=
  layout.shape.zip layout.strides

/-- The location of element `e`. -/
def location (layout : Layout) (e : Nat) : Except Fault Nat :=
  locate layout.shape layout.strides e

/-- The least length of a buffer that covers every element; none is needed for a tensor
without elements, whatever its other extents. -/
def requiredLength? (layout : Layout) : Except ShapeError Nat :=
  if layout.shape.any fun d => d = 0 then .ok 0
  else if (boundedProduct 1 layout.shape).isNone then .error (.tooManyElements layout.shape)
  else
    match boundedSpan layout.dimensions with
    | some length => .ok length
    | none => .error (.addressOverflow layout.shape layout.strides)

/-- Whether each stride, from the innermost outward, counts the elements behind its dimension. -/
def denseInward (expected : Nat) : List (Nat × Nat) → Bool
  | [] => true
  | (d, s) :: outer => (d = 1 || s = expected) && denseInward (expected * d) outer

/-- Whether the elements lie densely in row-major order. -/
def isRowContiguous (layout : Layout) : Bool :=
  denseInward 1 layout.dimensions.reverse

/-- Whether each trailing matrix lies densely in row-major order. -/
def isMatrixContiguous (layout : Layout) : Bool :=
  match layout.dimensions.reverse with
  | [] => true
  | [(cols, colStride)] => cols = 1 || colStride = 1
  | (cols, colStride) :: (rows, rowStride) :: _ =>
    (cols = 1 || colStride = 1) && (rows = 1 || rowStride = cols)

/-- The extents in front of the trailing `matrixDims` ones. -/
def batchShape (layout : Layout) (matrixDims : Nat) : List Nat :=
  layout.shape.take (layout.rank - matrixDims)

/-- The strides in front of the trailing `matrixDims` ones. -/
def batchStrides (layout : Layout) (matrixDims : Nat) : List Nat :=
  layout.strides.take (layout.rank - matrixDims)

end Layout

end SubByte
