/-
# Decoding — codes out of bytes

A stream of codes is a stream of bits: code `i` of width `bits` lies at bit `i * bits`,
the low bit of a byte first.  The decoder takes a unit of bytes at a time and has the
place of every code in it written down: a code within one byte is one bit field of it,
and a code that straddles two bytes is the high field of the first with the low field of
the second above it.
-/
import SubByte.Blocks
import SubByte.Packing.Sizes

namespace SubByte.Packing

/-- Consecutive bits of one byte of a unit. -/
structure BitField where
  /-- the byte, counted from the beginning of the unit -/
  byte : Nat
  /-- its lowest bit taken -/
  low : Nat
  /-- how many bits are taken -/
  count : Nat
deriving DecidableEq, Repr

/-- The places of the codes of a unit, each the fields of a code, its low bits first. -/
def codeFields (bits : Nat) : List (List BitField) :=
  match bits with
  | 3 =>
    [[⟨0, 0, 3⟩], [⟨0, 3, 3⟩], [⟨0, 6, 2⟩, ⟨1, 0, 1⟩], [⟨1, 1, 3⟩], [⟨1, 4, 3⟩],
      [⟨1, 7, 1⟩, ⟨2, 0, 2⟩], [⟨2, 2, 3⟩], [⟨2, 5, 3⟩]]
  | 5 =>
    [[⟨0, 0, 5⟩], [⟨0, 5, 3⟩, ⟨1, 0, 2⟩], [⟨1, 2, 5⟩], [⟨1, 7, 1⟩, ⟨2, 0, 4⟩],
      [⟨2, 4, 4⟩, ⟨3, 0, 1⟩], [⟨3, 1, 5⟩], [⟨3, 6, 2⟩, ⟨4, 0, 3⟩], [⟨4, 3, 5⟩]]
  | 6 => [[⟨0, 0, 6⟩], [⟨0, 6, 2⟩, ⟨1, 0, 4⟩], [⟨1, 4, 4⟩, ⟨2, 0, 2⟩], [⟨2, 2, 6⟩]]
  | _ => (List.range (codesPerUnit bits byteBits)).map fun k => [⟨0, k * bits, bits⟩]

/-- The bits of a field, as a number. -/
def BitField.value (field : BitField) (byte : UInt8) : Nat :=
  byte.toNat >>> field.low % (1 <<< field.count)

/-- The number that the fields of a code make. -/
def readFields (bytes : List UInt8) : List BitField → Except Fault Nat
  | [] => .ok 0
  | field :: higher => do
    let byte ← fetch bytes field.byte
    let rest ← readFields bytes higher
    return field.value byte + rest <<< field.count

/-- The codes of one unit, from the beginning of `bytes`. -/
def decodeUnit (bits : Nat) (bytes : List UInt8) : Except Fault (List Nat) :=
  (codeFields bits).mapM (readFields bytes)

/-- The codes of consecutive units. -/
def decodeUnits (bits : Nat) (units : List (List UInt8)) : Except Fault (List Nat) := do
  let codes ← units.mapM (decodeUnit bits)
  return codes.flatten

/-- The codes of `bytes` written over the front of `out`, as many whole units as both
sides have. -/
def unpack (bits : Nat) (bytes : List UInt8) (out : List Nat) : Except Fault (List Nat) := do
  let size := bytesPerUnit bits byteBits
  let count := min (out.length / codesPerUnit bits byteBits) (bytes.length / size)
  let codes ← decodeUnits bits (blocks size count bytes)
  return overlay codes out

end SubByte.Packing
