/-
# Row — one stored row of packed weights

A stored row is a run of groups, each with its packed codes and its two parameters.
Rows are found by position in the whole operand, so one that is too short shows as a
fault.
-/
import SubByte.Blocks
import SubByte.Quantizer.Flat

namespace SubByte

/-- The operands of one product, each from its beginning. -/
structure Matrices (F : Format) where
  x : List (Binary F)
  w : List UInt32
  scales : List (Binary F)
  biases : List (Binary F)

/-- One group of a stored row: its packed codes, as bytes or words, and its parameters. -/
structure Group (α : Type) where
  packed : List α
  affine : Affine

namespace Group

variable {F : Format} {α : Type}

/-- The groups of a stored row; each has `size` elements of packed codes. -/
def ofRow (size : Nat) (packed : List α) (scales biases : List (Binary F)) : List (Group α) :=
  List.zipWith (fun codes affine => ⟨codes, affine.1.widen, affine.2.widen⟩)
    (wholeBlocks size packed) (scales.zip biases)

/-- The groups of stored row `i`, where a row has `rowSize` elements of packed codes and
`count` groups. -/
def readRow (size rowSize count : Nat) (packed : List α) (scales biases : List (Binary F))
    (i : Nat) : Except Fault (List (Group α)) := do
  let row ← slice packed (i * rowSize) rowSize
  let rowScales ← slice scales (i * count) count
  let rowBiases ← slice biases (i * count) count
  return ofRow size row rowScales rowBiases

/-- The codes of a group. -/
def codes (config : Config) (group : Group UInt8) : Except Fault (List Nat) :=
  Packing.unpack config.width.bits group.packed (List.replicate config.group.size 0)

end Group

/-- The weight that a code stands for, its scale multiplied first. -/
def Affine.weight (affine : Affine) (code : Nat) : Single :=
  affine.scale * .ofNat .single code + affine.bias

end SubByte
