/-
# Lanes — eight codes at once out of words

Four- and eight-bit codes tile a word, so eight of them lie in one word or in two.  Each
lane takes its word, shifts it down to its code and drops the bits above.  No other
width is decoded this way.
-/
import SubByte.Error
import SubByte.Binary.Rounding

namespace SubByte.Packing

/-- The codes of one step. -/
def lanes : Nat := 8

/-- For each lane its word and its shift, for the widths that have a lane decode. -/
def lanePlaces (bits : Nat) : Option (List (Nat × Nat)) :=
  match bits with
  | 4 => some [(0, 0), (0, 4), (0, 8), (0, 12), (0, 16), (0, 20), (0, 24), (0, 28)]
  | 8 => some [(0, 0), (0, 8), (0, 16), (0, 24), (1, 0), (1, 8), (1, 16), (1, 24)]
  | _ => none

/-- Whether codes of this width are decoded by lanes. -/
def hasLaneDecode (bits : Nat) : Bool :=
  (lanePlaces bits).isSome

/-- The code of one lane. -/
def laneCode (bits : Nat) (words : List UInt32) (place : Nat × Nat) : Except Fault Nat := do
  let word ← fetch words place.1
  return word.toNat >>> place.2 % (1 <<< bits)

/-- The codes of eight lanes, from the beginning of `words`, as singles. -/
def decodeLanes (bits : Nat) (words : List UInt32) : Checked QuantError (List Single) :=
  match lanePlaces bits with
  | none => Checked.reject (.unsupportedSimd bits)
  | some places => do
    let codes ← Checked.ofFault (places.mapM (laneCode bits words))
    return codes.map (Binary.ofNat .single)

/-- The first eight elements as singles. -/
def loadLanes {F : Format} (xs : List (Binary F)) : Except Fault (List Single) := do
  let front ← slice xs 0 lanes
  return front.map Binary.widen

end SubByte.Packing
