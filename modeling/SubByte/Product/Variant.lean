/-
# Variant — which kernel multiplies

Weights stored as they are have one kernel.  Transposed weights have two: one that works
for every width, and one by lanes for the widths of which a lane step takes whole words.
-/
import SubByte.Config
import SubByte.Packing.Lanes
import SubByte.Packing.Sizes

namespace SubByte

/-- The kernels. -/
inductive Variant where
  /-- weights stored `k` by `n` -/
  | plain
  /-- weights stored `n` by `k` -/
  | transposed
  /-- weights stored `n` by `k`, eight at a time -/
  | lanes
deriving DecidableEq, Repr

namespace Variant

/-- Whether codes of this width tile a word, and a step of lanes tiles words. -/
def lanesFit (width : CodeWidth) : Bool :=
  Packing.wordBits % width.bits = 0 && Packing.lanes % (Packing.wordBits / width.bits) = 0

/-- The kernel for an orientation, by lanes where they are to be had and fit. -/
def select (width : CodeWidth) (transposed simd : Bool) : Variant :=
  if transposed then
    if simd && lanesFit width then .lanes else .transposed
  else .plain

/-- Whether the weights are stored transposed. -/
def isTransposed : Variant → Bool
  | plain => false
  | transposed => true
  | lanes => true

theorem isTransposed_select (width : CodeWidth) (transposed simd : Bool) :
    (select width transposed simd).isTransposed = transposed := by
  cases transposed with
  | false => rfl
  | true => cases h : simd && lanesFit width <;> simp [select, h, isTransposed]

end Variant

theorem Variant.lanesFit_iff (width : CodeWidth) :
    lanesFit width = Packing.hasLaneDecode width.bits := by
  cases width <;> rfl

end SubByte
