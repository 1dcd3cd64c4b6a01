/-
# Broadcasting — one operand read at every batch of another shape

A shape broadcasts to a target of at least its rank when each of its extents, aligned at
the innermost dimension, is the target's extent or one.  The strides that address it
there repeat it along the dimensions it lacks or has only one element in: they are zero
in those places.
-/
import SubByte.Layout.Basic

namespace SubByte

/-- The strides of the aligned dimensions, from the outermost on.  A stride is looked at
only where the extents agree. -/
def alignedStrides (failure : ShapeError) :
    List Nat → List Nat → List Nat → Checked ShapeError (List Nat)
  | s :: shape, strides, t :: target => do
    let stride ←
      if s = t then Checked.ofFault (fetch strides 0)
      else if s = 1 then .ok 0
      else Checked.reject failure
    let rest ← alignedStrides failure shape strides.tail target
    return stride :: rest
  | _, _, _ => .ok []

/-- The strides that address an operand as if it had the target shape. -/
def broadcastStrides (shape strides target : List Nat) : Checked ShapeError (List Nat) :=
  let failure := ShapeError.notBroadcastable shape target
  if target.length < shape.length then Checked.reject failure
  else do
    let missing := target.length - shape.length
    let aligned ← alignedStrides failure shape strides (target.drop missing)
    return List.replicate missing 0 ++ aligned

end SubByte
