/-
# Extents — sizes within the address range

Extents and sizes are natural numbers.  Where a size has to fit a 64-bit address it is
formed step by step, from the first extent on, and is refused at the first step that
passes the limit: a product may be refused although a later zero would have brought it
back to nothing.

The two rules about lengths that most operations share stand here as well: a length must
split into whole groups, and an operand must be long enough.
-/
import SubByte.Error

namespace SubByte

/-- The least number that no 64-bit address reaches. -/
def addressLimit : Nat := 18446744073709551616

/-- The number of elements of a shape. -/
def extentProduct (shape : List Nat) : Nat :=
  shape.foldl (fun count d => count * d) 1

/-- A number, if it is an address. -/
def addressed (n : Nat) : Option Nat :=
  if n < addressLimit then some n else none

/-- The product of `count` and the extents, if no step from the left passes the limit. -/
def boundedProduct (count : Nat) (extents : List Nat) : Option Nat :=
  extents.foldlM (fun acc d => addressed (acc * d)) count

/-- One more than the location of the last element, summed over the dimensions and their
strides from the first on, if no step of it passes the limit. -/
def boundedSpan (dimensions : List (Nat × Nat)) : Option Nat :=
  dimensions.foldlM (fun acc dim => do
    let span ← addressed ((dim.1 - 1) * dim.2)
    addressed (span + acc)) 1

/-- The product of extents; `name` is what a message calls it. -/
def sizeProduct (name : String) (extents : List Nat) : Except ShapeError Nat :=
  match boundedProduct 1 extents with
  | some size => .ok size
  | none => .error (.sizeOverflow name)

/-- A last dimension must split into whole groups. -/
def requireWholeGroups (name : String) (inner groupSize : Nat) : Checked ShapeError Unit :=
  if groupSize = 0 then .error (.fault .zeroDivisor)
  else if inner % groupSize = 0 then .ok ()
  else Checked.reject (.partialGroup name inner groupSize)

/-- An operand must have the given number of elements at least. -/
def requireRoom (operand : Operand) (required actual : Nat) : Checked QuantError Unit :=
  if actual < required then Checked.reject (.bufferTooSmall operand required actual) else .ok ()

end SubByte
