/-
# Buffer — elements of one type

A buffer is a list of elements together with their type, which is known only when it is
looked at. `as?` gives the elements at the type asked for, if it is theirs.
`FloatBuffer` is a buffer whose type is one of the float types.
-/
import SubByte.DType
import SubByte.Binary.Rounding

namespace SubByte

/-- Elements of a type that is part of the value. -/
structure Buffer where
  dtype : DType
  data : List dtype.Elem

/-- Elements of a float type that is part of the value. -/
structure FloatBuffer where
  type : FloatType
  data : List (Binary type.format)

namespace Buffer

/-- The number of elements. -/
def length (b : Buffer) : Nat :=
  b.data.length

/-- The elements, if they are of the given type. -/
def as? (b : Buffer) (d : DType) : Option (List d.Elem) :=
  if h : b.dtype = d then some (h ▸ b.data) else none

/-- The elements with their float type, if they are floats. -/
def floats? : Buffer → Option FloatBuffer
  | ⟨.float type, data⟩ => some ⟨type, data⟩
  | _ => none

@[simp] theorem as?_self (d : DType) (data : List d.Elem) :
    (Buffer.mk d data).as? d = some data := by
  simp [as?]

end Buffer

namespace FloatBuffer

/-- The element type. -/
def dtype (b : FloatBuffer) : DType :=
  .float b.type

/-- The same elements as a buffer of any type. -/
def toBuffer (b : FloatBuffer) : Buffer :=
  ⟨.float b.type, b.data⟩

/-- The elements as singles. -/
def widened (b : FloatBuffer) : List Single :=
  b.data.map fun x => x.widen

end FloatBuffer

end SubByte
