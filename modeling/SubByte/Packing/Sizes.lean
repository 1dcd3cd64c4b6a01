/-
# Sizes — how many codes a storage unit holds

Codes are stored in *units*: the least stretch of storage that holds whole codes only.
A width that is a power of two fills bytes and words without a rest, so its unit is the
storage element itself; codes of three, five and six bits straddle bytes, and their
units span three, five and three bytes.

The sizes are total in the width: a width that fits into no unit at all has zero codes
in it, and the checked forms, with a question mark, report the division by that zero as
a fault.
-/
import SubByte.Fault

namespace SubByte.Packing

/-- The decoder reads bytes. -/
def byteBits : Nat := 8

/-- The encoder fills 32-bit words. -/
def wordBits : Nat := 32

/-- Whether `n` is a power of two, which zero is not. -/
def isPowerOfTwo (n : Nat) : Bool :=
  n ≠ 0 && n &&& (n - 1) = 0

/-- The codes of one unit, for storage elements of the given number of bits. -/
def codesPerUnit (bits storage : Nat) : Nat :=
  match bits with
  | 3 => 8
  | 5 => 8
  | 6 => 4
  | _ => storage / bits

/-- The bytes that one unit spans. -/
def bytesPerUnit (bits storage : Nat) : Nat :=
  if isPowerOfTwo bits then storage / 8 else if bits = 5 then 5 else 3

/-- The bytes that hold `count` codes, when `count` fills whole units of words. -/
def packedBytes (bits count : Nat) : Nat :=
  count / codesPerUnit bits wordBits * bytesPerUnit bits wordBits

/-- The 32-bit words that hold `count` codes. -/
def packedWords (bits count : Nat) : Nat :=
  packedBytes bits count / 4

/-- `codesPerUnit`, for widths that may be zero. -/
def codesPerUnit? (bits storage : Nat) : Except Fault Nat :=
  if bits = 0 then .error .zeroDivisor else .ok (codesPerUnit bits storage)

/-- `packedBytes`, for widths that may not fit into a word. -/
def packedBytes? (bits count : Nat) : Except Fault Nat :=
  if codesPerUnit bits wordBits = 0 then .error .zeroDivisor else .ok (packedBytes bits count)

/-- `packedWords`, for widths that may not fit into a word. -/
def packedWords? (bits count : Nat) : Except Fault Nat :=
  if codesPerUnit bits wordBits = 0 then .error .zeroDivisor else .ok (packedWords bits count)

end SubByte.Packing
