/-
# Flat — quantizing and expanding lists of weights

A list of weights whose length is a multiple of the group size is stored as a stream of
packed codes and one scale and one bias for each group.  Both directions write over the
front of what the caller hands in: they check the lengths first, in a fixed order, and
touch nothing when a check fails.

The codes of a group are found with its parameters as they are computed; what is stored
are the nearest values of the storage format, and those are what expanding works with.
-/
import SubByte.Config
import SubByte.Extent
import SubByte.Packing.Decode
import SubByte.Packing.Encode
import SubByte.Quantizer.Group

namespace SubByte

/-- Packed codes as bytes, with the parameters of their groups. -/
structure Encoded (F : Format) where
  packed : List UInt8
  scales : List (Binary F)
  biases : List (Binary F)
deriving DecidableEq

/-- Packed codes as words, with the parameters of their groups. -/
structure Quantized (F : Format) where
  packed : List UInt32
  scales : List (Binary F)
  biases : List (Binary F)
deriving DecidableEq

namespace Config

variable {F : Format}

/-- The bytes of one group. -/
def groupBytes (config : Config) : Nat :=
  Packing.packedBytes config.width.bits config.group.size

/-- The words of a number of codes. -/
def wordsOf (config : Config) (count : Nat) : Nat :=
  Packing.packedWords config.width.bits count

/-- The largest code as a single. -/
def bins (config : Config) : Single :=
  .ofNat .single config.width.maxCode

/-! ## From weights to codes -/

/-- The parameters of a group. -/
def affineOf (config : Config) (group : List (Binary F)) : Affine :=
  .ofGroup group config.bins

/-- The codes of a group. -/
def codesOf (config : Config) (group : List (Binary F)) : List Nat :=
  let affine := config.affineOf group
  group.map fun v => affine.code config.bins v.widen

/-- Consecutive groups, each encoded over its own stretch of bytes. -/
def encodeGroups (config : Config) (groups : List (List (Binary F))) (rooms : List (List UInt8)) :
    Except Fault (Encoded F) := do
  let packed ← (groups.zip rooms).mapM fun slot =>
    Packing.pack config.width.bits (config.codesOf slot.1) slot.2
  return {
    packed := packed.flatten
    scales := groups.map fun group => (config.affineOf group).scale.narrow F
    biases := groups.map fun group => (config.affineOf group).bias.narrow F }

/-- The lengths that encoding `count` weights needs. -/
def requireEncoding (config : Config) (count : Nat) (into : Encoded F) :
    Checked QuantError Unit := do
  Checked.ofShape (requireWholeGroups "w" count config.group.size)
  let groups := count / config.group.size
  requireRoom .packed (groups * config.groupBytes) into.packed.length
  requireRoom .scales groups into.scales.length
  requireRoom .biases groups into.biases.length

/-- The weights encoded over the front of the given buffers. -/
def quantizeInto (config : Config) (weights : List (Binary F)) (into : Encoded F) :
    Checked QuantError (Encoded F) := do
  config.requireEncoding weights.length into
  let encoded ← Checked.ofFault (config.encodeGroups (wholeBlocks config.group.size weights)
    (wholeBlocks config.groupBytes into.packed))
  return {
    packed := overlay encoded.packed into.packed
    scales := overlay encoded.scales into.scales
    biases := overlay encoded.biases into.biases }

/-- The weights encoded into buffers of their own. -/
def quantize (config : Config) (weights : List (Binary F)) : Checked QuantError (Quantized F) := do
  Checked.ofShape (requireWholeGroups "w" weights.length config.group.size)
  let groups := weights.length / config.group.size
  let fresh : Encoded F := {
    packed := Packing.bytesOfWords (List.replicate (config.wordsOf weights.length) 0)
    scales := List.replicate groups 0
    biases := List.replicate groups 0 }
  let encoded ← config.quantizeInto weights fresh
  return ⟨Packing.wordsOfBytes encoded.packed, encoded.scales, encoded.biases⟩

/-! ## From codes to weights -/

/-- One group expanded: its bytes, and its scale and bias. -/
def expandGroup (config : Config) (bytes : List UInt8) (affine : Binary F × Binary F) :
    Except Fault (List (Binary F)) := do
  let codes ← Packing.unpack config.width.bits bytes (List.replicate config.group.size 0)
  let stored : Affine := ⟨affine.1.widen, affine.2.widen⟩
  return codes.map fun code => (stored.value code).narrow F

/-- The lengths that expanding to `count` weights needs. -/
def requireExpansion (config : Config) (count : Nat) (stored : Quantized F) :
    Checked QuantError Unit := do
  Checked.ofShape (requireWholeGroups "out" count config.group.size)
  let groups := count / config.group.size
  requireRoom .packed (config.wordsOf count) stored.packed.length
  requireRoom .scales groups stored.scales.length
  requireRoom .biases groups stored.biases.length

/-- The first `count` weights. -/
def expand (config : Config) (stored : Quantized F) (count : Nat) :
    Checked QuantError (List (Binary F)) := do
  config.requireExpansion count stored
  let groups := blocks config.groupBytes (count / config.group.size)
    (Packing.bytesOfWords stored.packed)
  let values ← Checked.ofFault ((groups.zip (stored.scales.zip stored.biases)).mapM fun slot =>
    config.expandGroup slot.1 slot.2)
  return values.flatten

/-- The weights written over `out`, as many as it holds. -/
def expandInto (config : Config) (stored : Quantized F) (out : List (Binary F)) :
    Checked QuantError (List (Binary F)) := do
  let values ← config.expand stored out.length
  return overlay values out

end Config

end SubByte
