/-
# Stream — the number that bytes or words make

Bytes and words are digits of one number, the first digit lowest, and a code is a
stretch of its bits: code `i` of width `bits` is `stream / 2 ^ (i * bits) % 2 ^ bits`.
That is the whole storage format, and both the bit reader and the words seen as bytes are
brought to it here.

The stretches obey two laws: one beside another makes a longer one (`bitsFrom_add`), and
a stretch of a stretch is a stretch of the whole (`bitsFrom_bitsFrom`).  The second is
what lets a decoder that was handed one group of one row speak of the stream it was cut
from.
-/
import Mathlib.Data.Nat.Digits.Defs
import SubByte.Packing.Bitstream
import SubByte.Packing.Encode
import SubByte.Proofs.Blocks
import SubByte.Proofs.Sequence

namespace SubByte.Packing

/-- The `count` bits of a number from bit `pos` on. -/
def bitsFrom (stream pos count : Nat) : Nat :=
  stream / 2 ^ pos % 2 ^ count

/-- The number that bytes make. -/
def streamOfBytes (bytes : List UInt8) : Nat :=
  Nat.ofDigits (2 ^ 8) (bytes.map UInt8.toNat)

/-- The number that words make. -/
def streamOfWords (words : List UInt32) : Nat :=
  Nat.ofDigits (2 ^ 32) (words.map UInt32.toNat)

/-- Code `i` of a stream. -/
def codeAt (bits stream i : Nat) : Nat :=
  bitsFrom stream (i * bits) bits

/-! ## Stretches of bits -/

theorem testBit_bitsFrom (stream pos count b : Nat) :
    (bitsFrom stream pos count).testBit b = (decide (b < count) && stream.testBit (pos + b)) := by
  rw [bitsFrom, Nat.testBit_mod_two_pow, Nat.testBit_div_two_pow, Nat.add_comm b]

/-- Two stretches side by side. -/
theorem bitsFrom_add (stream pos a b : Nat) :
    bitsFrom stream pos (a + b) =
      bitsFrom stream pos a + bitsFrom stream (pos + a) b * 2 ^ a := by
  rw [bitsFrom, bitsFrom, bitsFrom, Nat.pow_add, Nat.mod_mul, Nat.pow_add, Nat.div_div_eq_div_mul,
    Nat.mul_comm (2 ^ a)]

/-- A stretch of a stretch. -/
theorem bitsFrom_bitsFrom (stream pos : Nat) {len start count : Nat} (h : start + count ≤ len) :
    bitsFrom (bitsFrom stream pos len) start count = bitsFrom stream (pos + start) count := by
  apply Nat.eq_of_testBit_eq
  intro b
  rw [testBit_bitsFrom, testBit_bitsFrom, testBit_bitsFrom, Nat.add_assoc]
  by_cases hb : b < count
  · have hin : start + b < len := by omega
    simp only [hin, decide_true, Bool.true_and]
  · simp only [hb, decide_false, Bool.false_and]

theorem bitsFrom_ofDigits (w : Nat) {digits : List Nat} (hdigits : ∀ d ∈ digits, d < 2 ^ w)
    (start count : Nat) :
    Nat.ofDigits (2 ^ w) ((digits.drop start).take count) =
      bitsFrom (Nat.ofDigits (2 ^ w) digits) (w * start) (w * count) := by
  have hpos := Nat.two_pow_pos w
  rw [bitsFrom, Nat.pow_mul, Nat.pow_mul, Nat.ofDigits_div_pow_eq_ofDigits_drop _ hpos _ hdigits]
  exact (Nat.ofDigits_mod_pow_eq_ofDigits_take _ hpos _ fun d hd =>
    hdigits d (List.mem_of_mem_drop hd)).symm

/-! ## Bytes and words -/

theorem byte_digits (bytes : List UInt8) : ∀ d ∈ bytes.map UInt8.toNat, d < 2 ^ 8 := by
  intro d hd
  obtain ⟨b, _, rfl⟩ := List.mem_map.mp hd
  exact b.toNat_lt

theorem word_digits (words : List UInt32) : ∀ d ∈ words.map UInt32.toNat, d < 2 ^ 32 := by
  intro d hd
  obtain ⟨w, _, rfl⟩ := List.mem_map.mp hd
  exact w.toNat_lt

theorem streamOfBytes_take_drop (bytes : List UInt8) (start count : Nat) :
    streamOfBytes ((bytes.drop start).take count) =
      bitsFrom (streamOfBytes bytes) (8 * start) (8 * count) := by
  rw [streamOfBytes, List.map_take, List.map_drop]
  exact bitsFrom_ofDigits 8 (byte_digits bytes) start count

theorem streamOfWords_take_drop (words : List UInt32) (start count : Nat) :
    streamOfWords ((words.drop start).take count) =
      bitsFrom (streamOfWords words) (32 * start) (32 * count) := by
  rw [streamOfWords, List.map_take, List.map_drop]
  exact bitsFrom_ofDigits 32 (word_digits words) start count

theorem toNat_byte (bytes : List UInt8) {i : Nat} (h : i < bytes.length) :
    bytes[i].toNat = bitsFrom (streamOfBytes bytes) (8 * i) 8 := by
  have hone := streamOfBytes_take_drop bytes i 1
  rw [List.drop_eq_getElem_cons h, List.take_succ_cons, List.take_zero] at hone
  rw [← hone, streamOfBytes, List.map_cons, List.map_nil, Nat.ofDigits_singleton]

theorem toNat_word (words : List UInt32) {i : Nat} (h : i < words.length) :
    words[i].toNat = bitsFrom (streamOfWords words) (32 * i) 32 := by
  have hone := streamOfWords_take_drop words i 1
  rw [List.drop_eq_getElem_cons h, List.take_succ_cons, List.take_zero] at hone
  rw [← hone, streamOfWords, List.map_cons, List.map_nil, Nat.ofDigits_singleton]

theorem streamOfBytes_append (front back : List UInt8) :
    streamOfBytes (front ++ back) =
      streamOfBytes front + 2 ^ (8 * front.length) * streamOfBytes back := by
  rw [streamOfBytes, List.map_append, Nat.ofDigits_append, List.length_map, Nat.pow_mul]
  rfl

theorem streamOfBytes_littleEndian (v : Nat) :
    ∀ count, streamOfBytes (littleEndian count v) = v % 2 ^ (8 * count)
  | 0 => by simp [littleEndian, streamOfBytes, Nat.mod_one]
  | count + 1 => by
      have hrest := streamOfBytes_littleEndian (v >>> 8) count
      have hcons : streamOfBytes (littleEndian (count + 1) v) =
          v % 2 ^ 8 + 2 ^ 8 * streamOfBytes (littleEndian count (v >>> 8)) := by
        rw [littleEndian, streamOfBytes, List.map_cons, Nat.ofDigits_cons, UInt8.toNat_ofNat']
        rfl
      rw [hcons, hrest, Nat.shiftRight_eq_div_pow, Nat.mul_succ, Nat.add_comm (8 * count),
        Nat.pow_add, Nat.mod_mul]

theorem streamOfBytes_bytesOfWords (words : List UInt32) :
    streamOfBytes (bytesOfWords words) = streamOfWords words := by
  induction words with
  | nil => rfl
  | cons w words ih =>
      have hword : streamOfBytes (littleEndian 4 w.toNat) = w.toNat := by
        rw [streamOfBytes_littleEndian]
        exact Nat.mod_eq_of_lt w.toNat_lt
      rw [bytesOfWords, List.flatMap_cons, streamOfBytes_append, hword, length_littleEndian,
        ← bytesOfWords, ih, streamOfWords, streamOfWords, List.map_cons, Nat.ofDigits_cons]

theorem toNat_word_of_bytes (b0 b1 b2 b3 : UInt8) :
    (UInt32.ofNat (b0.toNat + b1.toNat <<< 8 + b2.toNat <<< 16 + b3.toNat <<< 24)).toNat =
      streamOfBytes [b0, b1, b2, b3] := by
  have h0 := b0.toNat_lt
  have h1 := b1.toNat_lt
  have h2 := b2.toNat_lt
  have h3 := b3.toNat_lt
  simp only [UInt32.toNat_ofNat', Nat.shiftLeft_eq, streamOfBytes, List.map_cons, List.map_nil,
    Nat.ofDigits_cons, Nat.ofDigits_nil]
  omega

theorem wordsOfBytes_whole {count : Nat} {bytes : List UInt8} (h : bytes.length = 4 * count) :
    (wordsOfBytes bytes).length = count ∧
      streamOfWords (wordsOfBytes bytes) = streamOfBytes bytes := by
  induction count generalizing bytes with
  | zero =>
      rw [List.eq_nil_of_length_eq_zero h]
      exact ⟨rfl, rfl⟩
  | succ count ih =>
      match bytes, h with
      | b0 :: b1 :: b2 :: b3 :: rest, h =>
          have hrest : rest.length = 4 * count := by
            simp only [List.length_cons] at h
            omega
          obtain ⟨hlength, hstream⟩ := ih hrest
          constructor
          · rw [wordsOfBytes, List.length_cons, hlength]
          · have hsplit := streamOfBytes_append [b0, b1, b2, b3] rest
            rw [wordsOfBytes, streamOfWords, List.map_cons, Nat.ofDigits_cons,
              toNat_word_of_bytes, ← streamOfWords, hstream]
            exact hsplit.symm

/-! ## Codes of a piece -/

theorem codeAt_bitsFrom {bits codes len : Nat} (hlen : codes * bits = len) (stream i : Nat)
    {k : Nat} (hk : k < codes) :
    codeAt bits (bitsFrom stream (i * len) len) k = codeAt bits stream (i * codes + k) := by
  have hnext := row_end_le hk (Nat.le_of_eq hlen)
  rw [codeAt, codeAt, bitsFrom_bitsFrom _ _ hnext, Nat.add_mul, Nat.mul_assoc, hlen]

theorem codeAt_bytes {bits codes size : Nat} (hsize : codes * bits = 8 * size)
    (bytes : List UInt8) (i : Nat) {k : Nat} (hk : k < codes) :
    codeAt bits (streamOfBytes ((bytes.drop (i * size)).take size)) k =
      codeAt bits (streamOfBytes bytes) (i * codes + k) := by
  rw [streamOfBytes_take_drop, Nat.mul_left_comm]
  exact codeAt_bitsFrom hsize _ i hk

theorem codeAt_words {bits codes size : Nat} (hsize : codes * bits = 32 * size)
    (words : List UInt32) (i : Nat) {k : Nat} (hk : k < codes) :
    codeAt bits (streamOfWords ((words.drop (i * size)).take size)) k =
      codeAt bits (streamOfWords words) (i * codes + k) := by
  rw [streamOfWords_take_drop, Nat.mul_left_comm]
  exact codeAt_bitsFrom hsize _ i hk

/-! ## The bit reader -/

theorem bitAt_eq_ok {words : List UInt32} {pos : Nat} (h : pos < 32 * words.length) :
    bitAt words pos = .ok ((streamOfWords words).testBit pos) := by
  have hword : pos / 32 < words.length := by omega
  rw [bitAt, fetch_eq_ok hword, ok_bind, pure_eq_ok, toNat_word words hword]
  have hbit : pos % 32 < 32 := Nat.mod_lt _ (by decide)
  rw [testBit_bitsFrom, decide_eq_true hbit, Bool.true_and, Nat.div_add_mod]

theorem readBits_eq_ok {words : List UInt32} :
    ∀ {count pos : Nat}, pos + count ≤ 32 * words.length →
      readBits words pos count = .ok (bitsFrom (streamOfWords words) pos count)
  | 0, pos, _ => by rw [readBits, bitsFrom, Nat.pow_zero, Nat.mod_one]
  | count + 1, pos, h => by
      have hlow : bitsFrom (streamOfWords words) pos 1 =
          ((streamOfWords words).testBit pos).toNat := by
        rw [bitsFrom, Nat.pow_one, Nat.toNat_testBit]
      rw [readBits, bitAt_eq_ok (by omega), ok_bind, readBits_eq_ok (by omega), ok_bind,
        pure_eq_ok, Nat.add_comm count, bitsFrom_add, hlow, Nat.pow_one, Nat.mul_comm 2]

theorem readCode_eq_ok {words : List UInt32} {bits i : Nat}
    (h : (i + 1) * bits ≤ 32 * words.length) :
    readCode words bits i = .ok (codeAt bits (streamOfWords words) i) := by
  rw [Nat.succ_mul] at h
  exact readBits_eq_ok h

end SubByte.Packing
