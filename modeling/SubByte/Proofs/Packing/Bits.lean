/-
# Bits — the stream bit by bit

Bit `p` of a stream of bytes is bit `p % 8` of byte `p / 8`, and bit `p` of a stream of words is
bit `p % 32` of word `p / 32`.  This is the format in its plainest form, and it is the number
that bytes or words make, looked at bit by bit (`testBit_ofDigits`).  Behind the last digit
no bit is set.

The decoder of units is stated here in that form (`unpack_reads`): for buffers of any lengths
it puts into place the numbers that the bits of the bytes spell, as many whole units of them
as both sides have, and leaves the rest of the output alone.
-/
import Mathlib.Data.List.GetD
import SubByte.Proofs.Packing.Units

namespace SubByte.Packing

/-! ## Digits -/

/-- A bit of a number is a bit of one of its digits. -/
theorem testBit_ofDigits {w : Nat} (hw : 0 < w) {digits : List Nat} :
    (∀ d ∈ digits, d < 2 ^ w) → ∀ pos,
      (Nat.ofDigits (2 ^ w) digits).testBit pos = (digits.getD (pos / w) 0).testBit (pos % w) := by
  induction digits with
  | nil =>
      intro _ pos
      simp only [Nat.ofDigits_nil, List.getD_nil, Nat.zero_testBit]
  | cons d digits ih =>
      intro hdigits pos
      have hd := hdigits d List.mem_cons_self
      rw [Nat.ofDigits_cons, Nat.add_comm, Nat.testBit_two_pow_mul_add _ hd]
      by_cases hlow : pos < w
      · rw [if_pos hlow, Nat.div_eq_of_lt hlow, Nat.mod_eq_of_lt hlow, List.getD_cons_zero]
      · obtain ⟨rest, rfl⟩ := Nat.exists_eq_add_of_le (Nat.le_of_not_lt hlow)
        rw [if_neg hlow, Nat.add_sub_cancel_left, Nat.add_div_left rest hw, Nat.add_mod_left,
          List.getD_cons_succ]
        exact ih (fun e he => hdigits e (List.mem_cons_of_mem d he)) rest

theorem testBit_streamOfWords (words : List UInt32) (pos : Nat) :
    (streamOfWords words).testBit pos = (words.getD (pos / 32) 0).toNat.testBit (pos % 32) := by
  rw [streamOfWords, testBit_ofDigits (by decide) (word_digits words)]
  exact congrArg (fun d => Nat.testBit d (pos % 32)) (List.getD_map (f := UInt32.toNat) words 0)

/-- Bit `pos` of bytes, the low bit of the first byte first. -/
def bitOfBytes (bytes : List UInt8) (pos : Nat) : Bool :=
  (bytes.getD (pos / 8) 0).toNat.testBit (pos % 8)

theorem testBit_streamOfBytes (bytes : List UInt8) (pos : Nat) :
    (streamOfBytes bytes).testBit pos = bitOfBytes bytes pos := by
  rw [streamOfBytes, testBit_ofDigits (by decide) (byte_digits bytes)]
  exact congrArg (fun d => Nat.testBit d (pos % 8)) (List.getD_map (f := UInt8.toNat) bytes 0)

/-! ## Numbers in bytes -/

/-- The number that `count` bits of bytes spell from bit `pos` on, the low one first. -/
def numberAt (bytes : List UInt8) (pos : Nat) : Nat → Nat
  | 0 => 0
  | count + 1 => (bitOfBytes bytes pos).toNat + 2 * numberAt bytes (pos + 1) count

theorem bitsFrom_streamOfBytes (bytes : List UInt8) (count : Nat) :
    ∀ pos, bitsFrom (streamOfBytes bytes) pos count = numberAt bytes pos count := by
  induction count with
  | zero =>
      intro pos
      rw [bitsFrom, Nat.pow_zero, Nat.mod_one, numberAt]
  | succ count ih =>
      intro pos
      have hlow : bitsFrom (streamOfBytes bytes) pos 1 = (bitOfBytes bytes pos).toNat := by
        rw [bitsFrom, Nat.pow_one, ← testBit_streamOfBytes, Nat.toNat_testBit]
      rw [Nat.add_comm count, bitsFrom_add, hlow, ih, Nat.pow_one, Nat.mul_comm, Nat.add_comm 1,
        numberAt]

/-- Decoding reads a plain stream of bits at every length.  As many whole units as both sides
have are decoded: the codes of these are the numbers that consecutive bits of the bytes
spell, all of them bits that are there, and every later element of the output is the old
one. -/
theorem unpack_reads (width : CodeWidth) (bytes : List UInt8) (out : List Nat) :
    let codes := codesPerUnit width.bits byteBits
    let count := min (out.length / codes) (bytes.length / bytesPerUnit width.bits byteBits)
    ∃ new, unpack width.bits bytes out = .ok new ∧ new.length = out.length ∧
      (∀ i < count * codes, (i + 1) * width.bits ≤ 8 * bytes.length ∧
        new[i]? = some (numberAt bytes (i * width.bits) width.bits)) ∧
      ∀ i, count * codes ≤ i → new[i]? = out[i]? := by
  intro codes count
  have hlength : ((List.range (count * codes)).map
      (codeAt width.bits (streamOfBytes bytes))).length = count * codes := by
    rw [List.length_map, List.length_range]
  have hroom : count * codes ≤ out.length :=
    Nat.le_trans (Nat.mul_le_mul_right codes (Nat.min_le_left _ _)) (Nat.div_mul_le_self _ _)
  have hbytes : count * bytesPerUnit width.bits byteBits ≤ bytes.length :=
    (Nat.le_div_iff_mul_le (bytesPerUnit_pos width)).mp (Nat.min_le_right _ _)
  refine ⟨_, unpack_eq_ok width bytes out, ?_, ?_, ?_⟩
  · exact length_overlay (by rwa [hlength])
  · intro i hi
    constructor
    · have hlast : (i + 1) * width.bits ≤ count * codes * width.bits :=
        Nat.mul_le_mul_right width.bits hi
      rw [Nat.mul_assoc, codesPerUnit_mul_bits, Nat.mul_left_comm] at hlast
      exact Nat.le_trans hlast (Nat.mul_le_mul_left 8 hbytes)
    · rw [overlay, List.getElem?_append_left (by rwa [hlength]), List.getElem?_map,
        List.getElem?_range hi, Option.map_some, codeAt, bitsFrom_streamOfBytes]
  · intro i hi
    exact getElem?_overlay (by rwa [hlength])

end SubByte.Packing
