/-
# Bit stream — codes read and written one bit at a time

The plainest statement of the storage format, and independent of the unit formulas of
`SubByte.Packing.Decode` and `SubByte.Packing.Encode`: bit `p` of a stream of words is
bit `p % 32` of word `p / 32`, and code `i` of width `bits` is the `bits` bits from bit
`i * bits` on, the low one first.
-/
import SubByte.Fault

namespace SubByte.Packing

/-- Bit `pos` of a stream of words. -/
def bitAt (words : List UInt32) (pos : Nat) : Except Fault Bool := do
  let word ← fetch words (pos / 32)
  return word.toNat.testBit (pos % 32)

/-- The number that the `count` bits from `pos` on make. -/
def readBits (words : List UInt32) (pos : Nat) : Nat → Except Fault Nat
  | 0 => .ok 0
  | count + 1 => do
    let low ← bitAt words pos
    let high ← readBits words (pos + 1) count
    return low.toNat + 2 * high

/-- Code `index` of a stream. -/
def readCode (words : List UInt32) (bits index : Nat) : Except Fault Nat :=
  readBits words (index * bits) bits

/-- A word with its bit `i` set or cleared. -/
def setBit (word : UInt32) (i : Nat) (value : Bool) : UInt32 :=
  let mask := UInt32.ofNat (1 <<< i)
  if value then word ||| mask else word &&& ~~~mask

/-- The `count` low bits of `code` written from `pos` on. -/
def writeBits (words : List UInt32) (pos code : Nat) : Nat → Except Fault (List UInt32)
  | 0 => .ok words
  | count + 1 => do
    let word ← fetch words (pos / 32)
    let written := words.set (pos / 32) (setBit word (pos % 32) (code.testBit 0))
    writeBits written (pos + 1) (code / 2) count

/-- Code `index` of a stream replaced. -/
def writeCode (words : List UInt32) (bits index code : Nat) : Except Fault (List UInt32) :=
  writeBits words (index * bits) code bits

end SubByte.Packing
