/-
# Check — what a call may ask of a view

Each check either gives what it settles or rejects the call with the one cause it looks
for.  The operations of this library put them in the order in which they report.
-/
import SubByte.Tensor.View

namespace SubByte

/-- A view must hold floats of one of the types. -/
def requireFloatType (view : View) : Checked QuantError FloatType :=
  match view.dtype.floatType? with
  | some type => .ok type
  | none => Checked.reject (.unsupportedDType view.dtype)

/-- A view must hold floats; these are all of its buffer. -/
def requireFloats (view : View) : Checked QuantError FloatBuffer :=
  match view.buffer.floats? with
  | some floats => .ok floats
  | none => Checked.reject (.unsupportedDType view.dtype)

/-- A view must have the given element type. -/
def requireDType (operand : Operand) (expected : DType) (view : View) : Checked QuantError Unit :=
  if view.dtype = expected then .ok ()
  else Checked.reject (.dtypeMismatch operand expected view.dtype)

/-- A view must have the given element type; these are all elements of its buffer. -/
def requireElements (operand : Operand) (d : DType) (view : View) :
    Checked QuantError (List d.Elem) :=
  match view.as? d with
  | some data => .ok data
  | none => Checked.reject (.dtypeMismatch operand d view.dtype)

/-- A view must lie densely in row-major order. -/
def requireDense (operand : Operand) (view : View) : Checked QuantError Unit :=
  if view.layout.isRowContiguous then .ok () else Checked.reject (.notContiguous operand)

/-- The trailing matrices of a view must lie densely. -/
def requireMatrices (operand : Operand) (view : View) : Checked QuantError Unit :=
  if view.layout.isMatrixContiguous then .ok () else Checked.reject (.notContiguous operand)

end SubByte
