/-
# Encoding — codes into bytes

The codes of a unit are laid side by side, the first one lowest, and the number that
they make is written as bytes, the low byte first.  Encoding works on units of words, so
it may take several of the decoder's units in one step; the stream is the same.

A code is not cut to its width: bits above it reach into the codes that follow in its
unit, and none beyond the unit.
-/
import SubByte.Blocks
import SubByte.Packing.Sizes

namespace SubByte.Packing

/-- The codes of a unit side by side, the first one lowest. -/
def joinCodes (bits : Nat) : List Nat → Nat
  | [] => 0
  | code :: rest => code ||| joinCodes bits rest <<< bits

/-- The low `count` bytes of a number, the lowest first. -/
def littleEndian : Nat → Nat → List UInt8
  | 0, _ => []
  | count + 1, v => UInt8.ofNat v :: littleEndian count (v >>> 8)

/-- The bytes of one unit. -/
def encodeUnit (bits : Nat) (codes : List Nat) : List UInt8 :=
  littleEndian (bytesPerUnit bits wordBits) (joinCodes bits codes)

/-- `codes` written over the front of `out`, as many whole units as both sides have. -/
def pack (bits : Nat) (codes : List Nat) (out : List UInt8) : Except Fault (List UInt8) :=
  let size := codesPerUnit bits wordBits
  if size = 0 then .error .zeroDivisor
  else
    let count := min (codes.length / size) (out.length / bytesPerUnit bits wordBits)
    .ok (overlay ((blocks size count codes).flatMap (encodeUnit bits)) out)

theorem length_littleEndian (count v : Nat) : (littleEndian count v).length = count := by
  induction count generalizing v with
  | zero => rfl
  | succ n ih => simp [littleEndian, ih]

/-! ## Words -/

/-- The bytes of words, the low byte of each word first. -/
def bytesOfWords (words : List UInt32) : List UInt8 :=
  words.flatMap fun w => littleEndian 4 w.toNat

/-- The words that bytes make, four to a word; fewer than four at the end make none. -/
def wordsOfBytes : List UInt8 → List UInt32
  | b0 :: b1 :: b2 :: b3 :: rest =>
    UInt32.ofNat (b0.toNat + b1.toNat <<< 8 + b2.toNat <<< 16 + b3.toNat <<< 24)
      :: wordsOfBytes rest
  | _ => []

theorem length_bytesOfWords (words : List UInt32) :
    (bytesOfWords words).length = 4 * words.length := by
  induction words with
  | nil => rfl
  | cons w r ih =>
    rw [bytesOfWords, List.flatMap_cons, List.length_append, length_littleEndian]
    rw [bytesOfWords] at ih
    rw [ih, List.length_cons]
    omega

end SubByte.Packing
