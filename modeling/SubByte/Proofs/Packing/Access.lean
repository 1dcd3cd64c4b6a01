/-
# Access — a stream of words as an array of codes

With a reader and a writer of single codes a stream of words is an array whose elements are as wide
as the codes are.  They obey the laws of an array (`writeCode_laws`): what is read at a place is what
was last written there, as far as it is within the width; every other place reads as before; and to
write back what was just read changes nothing.

Whether two codes share a byte or a word does not matter, because all of this is looked at bit by
bit.  The writer changes the bits of its code alone (`Overwritten`), the reader looks at the bits of
its code alone (`readBits_congr`), and the bits of two codes are never the same
(`codes_apart`).  So no bound on the width is used: a code may span many words, and the codes of
width zero have no bits at all.
-/
import SubByte.Proofs.Packing.Writing

namespace SubByte.Packing

/-! ## Reading -/

theorem bitAt_eq_error {words : List UInt32} {pos : Nat} (h : 32 * words.length ≤ pos) :
    bitAt words pos = .error .outOfBounds := by
  have hnone : words[pos / 32]? = none := List.getElem?_eq_none (by omega)
  rw [bitAt, fetch, hnone]
  rfl

/-- Reading a stretch looks at the bits of the stretch and at no others. -/
theorem readBits_congr {old new : List UInt32} {count : Nat} :
    ∀ {pos : Nat}, (∀ b < count, bitAt new (pos + b) = bitAt old (pos + b)) →
      readBits new pos count = readBits old pos count := by
  induction count with
  | zero =>
      intro pos _
      rfl
  | succ count ih =>
      intro pos h
      have hlow : bitAt new pos = bitAt old pos := h 0 (Nat.zero_lt_succ count)
      have hhigh : readBits new (pos + 1) count = readBits old (pos + 1) count := by
        apply ih
        intro b hb
        rw [Nat.add_assoc, Nat.add_comm 1]
        exact h (b + 1) (Nat.succ_lt_succ hb)
      simp only [readBits, hlow, hhigh]

theorem exists_readCode {words : List UInt32} {bits i : Nat}
    (h : (i + 1) * bits ≤ 32 * words.length) :
    ∃ code < 2 ^ bits, readCode words bits i = .ok code :=
  ⟨_, Nat.mod_lt _ (Nat.two_pow_pos bits), readCode_eq_ok h⟩

/-! ## Writing -/

theorem streamOfWords_inj {front back : List UInt32} (hlength : front.length = back.length)
    (h : streamOfWords front = streamOfWords back) : front = back := by
  refine List.ext_getElem hlength ?_
  intro i hfront hback
  apply UInt32.toNat_inj.mp
  rw [toNat_word front hfront, toNat_word back hback, h]

namespace Overwritten

variable {bits i code : Nat} {old new : List UInt32}

/-- Beside the code that was written every bit is the old one, the missing ones included. -/
theorem bitAt_outside (h : Overwritten (i * bits) bits code old new) {pos : Nat}
    (hpos : pos < i * bits ∨ i * bits + bits ≤ pos) : bitAt new pos = bitAt old pos := by
  by_cases hin : pos < 32 * old.length
  · rw [bitAt_eq_ok hin, bitAt_eq_ok (by rwa [h.length]), h.outside pos hpos]
  · have hout := Nat.le_of_not_lt hin
    rw [bitAt_eq_error hout, bitAt_eq_error (by rwa [h.length])]

theorem readCode_self (h : Overwritten (i * bits) bits code old new)
    (hi : (i + 1) * bits ≤ 32 * old.length) : readCode new bits i = .ok (code % 2 ^ bits) := by
  rw [readCode_eq_ok (by rwa [h.length]), h.codeAt_self]

theorem readCode_of_ne (h : Overwritten (i * bits) bits code old new) {j : Nat} (hne : j ≠ i) :
    readCode new bits j = readCode old bits j := by
  apply readBits_congr
  intro b hb
  exact h.bitAt_outside (codes_apart hne hb)

theorem eq_of_codeAt (h : Overwritten (i * bits) bits (codeAt bits (streamOfWords old) i) old new) :
    new = old := by
  apply streamOfWords_inj h.length
  apply Nat.eq_of_testBit_eq
  intro pos
  by_cases hout : pos < i * bits ∨ i * bits + bits ≤ pos
  · exact h.outside pos hout
  · obtain ⟨b, rfl⟩ := Nat.exists_eq_add_of_le (show i * bits ≤ pos by omega)
    have hb : b < bits := by omega
    rw [h.inside b hb, codeAt, testBit_bitsFrom, decide_eq_true hb, Bool.true_and]

end Overwritten

/-! ## The laws -/

/-- A stream of words is an array of codes of any width.  Every code within the words can be read.
At each such place a code can be written, whatever its size: after that the place reads as the code
modulo `2 ^ bits`, every other place reads as it did, and so does every bit that is not of the
code.  Writing back the code that a place reads leaves the words as they were. -/
theorem writeCode_laws {words : List UInt32} {bits i : Nat}
    (hi : (i + 1) * bits ≤ 32 * words.length) :
    (∀ j, (j + 1) * bits ≤ 32 * words.length →
      ∃ code < 2 ^ bits, readCode words bits j = .ok code) ∧
    (∀ code, ∃ new, writeCode words bits i code = .ok new ∧ new.length = words.length ∧
      readCode new bits i = .ok (code % 2 ^ bits) ∧
      (∀ j, j ≠ i → readCode new bits j = readCode words bits j) ∧
      ∀ pos, pos < i * bits ∨ (i + 1) * bits ≤ pos → bitAt new pos = bitAt words pos) ∧
    (readCode words bits i >>= writeCode words bits i) = .ok words := by
  refine ⟨fun j hj => exists_readCode hj, ?_, ?_⟩
  · intro code
    obtain ⟨new, hnew, hwritten⟩ := writeCode_overwrites code hi
    refine ⟨new, hnew, hwritten.length, hwritten.readCode_self hi, ?_, ?_⟩
    · intro j hne
      exact hwritten.readCode_of_ne hne
    · intro pos hpos
      rw [Nat.succ_mul] at hpos
      exact hwritten.bitAt_outside hpos
  · obtain ⟨new, hnew, hwritten⟩ := writeCode_overwrites (codeAt bits (streamOfWords words) i) hi
    rw [readCode_eq_ok hi, ok_bind, hnew, hwritten.eq_of_codeAt]

/-- A code of twenty bits across the border of two words, cut from a number of 32 bits.  The codes
on both sides of it, which share its words, stay. -/
theorem writeCode_laws_straddling :
    (∃ new, writeCode [0xFFFFFFFF, 0x12345678] 20 1 0xABCDE123 = .ok new ∧
      readCode new 20 1 = .ok 0xDE123 ∧ readCode new 20 0 = .ok 0xFFFFF ∧
      readCode new 20 2 = .ok 0x23456 ∧ bitAt new 60 = .ok true) ∧
    (readCode [0xFFFFFFFF, 0x12345678] 20 1 >>= writeCode [0xFFFFFFFF, 0x12345678] 20 1) =
      .ok [0xFFFFFFFF, 0x12345678] := by
  have hroom : (1 + 1) * 20 ≤ 32 * [(0xFFFFFFFF : UInt32), 0x12345678].length := by decide
  obtain ⟨-, hwrite, hback⟩ := writeCode_laws hroom
  obtain ⟨new, hnew, -, hself, hother, houtside⟩ := hwrite 0xABCDE123
  refine ⟨⟨new, hnew, hself, ?_, ?_, ?_⟩, hback⟩
  · exact (hother 0 (by decide)).trans (by rfl)
  · exact (hother 2 (by decide)).trans (by rfl)
  · exact (houtside 60 (.inr (by decide))).trans (by rfl)

end SubByte.Packing
