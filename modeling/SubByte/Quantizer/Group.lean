/-
# Group — the affine parameters of one group

A group of weights is stored as codes and two numbers, with `code * scale + bias`
standing for a weight.  Code 0 stands for the *edge*, the extreme of larger magnitude
(the maximum, when they are equally large), and the codes count from there toward the
other extreme, so the scale is negative when the edge is the maximum.  The scale is
fitted to make zero a whole number of steps away from the edge.  An edge no further than
half a step from zero gives way to it: the bias is zero then, and the scale stays as
it was.

Values that are no number have no part in the extremes.
-/
import SubByte.Binary.Arithmetic

namespace SubByte

/-- The parameters of one group. -/
structure Affine where
  scale : Single
  bias : Single
deriving DecidableEq

/-- The least magnitude of a scale before it is fitted to the edge; it keeps the scale
of a constant group away from zero. -/
def scaleFloor : Single :=
  .ofRatio .single 1 10000000

/-- The least of the numbers in a group, infinite when there is none. -/
def groupMin {F : Format} (group : List (Binary F)) : Single :=
  group.foldl (fun least v => least.min v.widen) (.infinite false)

/-- The largest of the numbers in a group, negative and infinite when there is none. -/
def groupMax {F : Format} (group : List (Binary F)) : Single :=
  group.foldl (fun largest v => largest.max v.widen) (.infinite true)

/-- The parameters that stretch codes from 0 to `bins` over the range from `low` to `high`. -/
def Affine.ofRange (low high bins : Single) : Affine :=
  let fromLow := high.abs.lt low.abs
  let step := ((high - low) / bins).max scaleFloor
  let scale := if fromLow then step else -step
  let edge := if fromLow then low else high
  let steps := (edge / scale).roundEven
  if steps.isZero then ⟨scale, 0⟩ else ⟨edge / steps, edge⟩

/-- The parameters of a group whose codes run from 0 to `bins`. -/
def Affine.ofGroup {F : Format} (group : List (Binary F)) (bins : Single) : Affine :=
  .ofRange (groupMin group) (groupMax group) bins

/-- The code of a value: the nearest whole number of steps from the bias, held between 0
and `bins`. -/
def Affine.code (affine : Affine) (bins v : Single) : Nat :=
  (((v - affine.bias) / affine.scale).roundEven.clamp 0 bins).toWord

/-- The value of a code. -/
def Affine.value (affine : Affine) (code : Nat) : Single :=
  .ofNat .single code * affine.scale + affine.bias

end SubByte
