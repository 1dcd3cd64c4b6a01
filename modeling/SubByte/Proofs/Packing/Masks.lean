/-
# Masks — the units of a machine with words

The decoder is stated by fields of bits, the encoder by a number without a bound, and the bit
writer by a word with one bit changed.  A machine has registers: it masks and shifts bytes in
32-bit words, gathers the codes of a unit in a 64-bit word, whose highest bits may be lost,
and changes a bit of a word in the byte that has it.  Here these are written out and agree
with the statements above (`decodeUnit_eq_masked`, `encodeUnit_eq_gathered`,
`setBit_eq_byte`), so that nothing which is shown of those depends on the registers being
wide enough.
-/
import SubByte.Packing.Lanes
import SubByte.Proofs.Packing.Writing

namespace SubByte.Packing

/-! ## Decoding -/

/-- Codes from the low end of a word, which is shifted down behind each of them.  A word that
is one code is not shifted. -/
def shiftedCodes (bits : Nat) : Nat → UInt32 → List UInt32
  | 0, _ => []
  | count + 1, word =>
    (word &&& (1 <<< UInt32.ofNat bits) - 1) ::
      shiftedCodes bits count (if bits = 8 then word else word >>> UInt32.ofNat bits)

/-- The codes of one unit by masks and shifts of its bytes. -/
def maskedUnit (bits : Nat) (bytes : List UInt8) : List UInt32 :=
  match bits, bytes.map UInt8.toUInt32 with
  | 3, b0 :: b1 :: b2 :: _ =>
    [b0 &&& 0x7,
      (b0 &&& 0x38) >>> 3,
      ((b0 &&& 0xc0) >>> 6) + ((b1 &&& 0x1) <<< 2),
      (b1 &&& 0xe) >>> 1,
      (b1 &&& 0x70) >>> 4,
      ((b1 &&& 0x80) >>> 7) + ((b2 &&& 0x3) <<< 1),
      (b2 &&& 0x1c) >>> 2,
      (b2 &&& 0xe0) >>> 5]
  | 5, b0 :: b1 :: b2 :: b3 :: b4 :: _ =>
    [b0 &&& 0x1f,
      ((b0 &&& 0xe0) >>> 5) + ((b1 &&& 0x3) <<< 3),
      (b1 &&& 0x7c) >>> 2,
      ((b1 &&& 0x80) >>> 7) + ((b2 &&& 0xf) <<< 1),
      ((b2 &&& 0xf0) >>> 4) + ((b3 &&& 0x1) <<< 4),
      (b3 &&& 0x3e) >>> 1,
      ((b3 &&& 0xc0) >>> 6) + ((b4 &&& 0x7) <<< 2),
      (b4 &&& 0xf8) >>> 3]
  | 6, b0 :: b1 :: b2 :: _ =>
    [b0 &&& 0x3f,
      ((b0 >>> 6) &&& (0x3 : UInt32)) + ((b1 &&& 0xf) <<< 2),
      ((b1 >>> 4) &&& (0xf : UInt32)) + ((b2 &&& 0x3) <<< 4),
      (b2 >>> 2) &&& (0x3f : UInt32)]
  | _, b0 :: _ => shiftedCodes bits (codesPerUnit bits byteBits) b0
  | _, [] => []

theorem BitField.value_eq_and (field : BitField) (byte : UInt8) :
    field.value byte = byte.toNat >>> field.low &&& (1 <<< field.count - 1) := by
  rw [value, Nat.one_shiftLeft, Nat.and_two_pow_sub_one_eq_mod]

theorem toNat_masked_lt (byte : UInt8) (mask : UInt32) :
    (byte.toUInt32 &&& mask).toNat < 2 ^ 8 := by
  rw [UInt32.toNat_and, UInt8.toNat_toUInt32]
  exact Nat.lt_of_le_of_lt Nat.and_le_left byte.toNat_lt

/-- A part of one byte below a part of another stays within a word. -/
theorem toNat_straddling {low : UInt32} (hlow : low.toNat < 2 ^ 8) (byte : UInt8) (mask : UInt32)
    {shift : UInt32} (hshift : shift.toNat ≤ 8) :
    (low + (byte.toUInt32 &&& mask) <<< shift).toNat =
      low.toNat + (byte.toNat &&& mask.toNat) <<< shift.toNat := by
  have hbyte := toNat_masked_lt byte mask
  have hpow : 2 ^ shift.toNat ≤ 2 ^ 8 := Nat.pow_le_pow_right (by decide) hshift
  have hproduct := Nat.mul_le_mul (Nat.le_of_lt hbyte) hpow
  rw [UInt32.toNat_and, UInt8.toNat_toUInt32] at hproduct
  rw [UInt32.toNat_add, UInt32.toNat_shiftLeft, UInt32.toNat_and, UInt8.toNat_toUInt32,
    Nat.mod_eq_of_lt (show shift.toNat < 32 by omega), Nat.shiftLeft_eq]
  omega

theorem toNat_part_lt (byte : UInt8) (mask shift : UInt32) :
    ((byte.toUInt32 &&& mask) >>> shift).toNat < 2 ^ 8 ∧
      (byte.toUInt32 >>> shift &&& mask).toNat < 2 ^ 8 := by
  constructor
  · rw [UInt32.toNat_shiftRight]
    exact Nat.lt_of_le_of_lt (Nat.shiftRight_le _ _) (toNat_masked_lt byte mask)
  · rw [UInt32.toNat_and, UInt32.toNat_shiftRight, UInt8.toNat_toUInt32]
    exact Nat.lt_of_le_of_lt (Nat.le_trans Nat.and_le_left (Nat.shiftRight_le _ _)) byte.toNat_lt

theorem toNat_shiftRight {shift : Nat} (hshift : shift < 32) (word : UInt32) :
    (word >>> UInt32.ofNat shift).toNat = word.toNat >>> shift := by
  rw [UInt32.toNat_shiftRight, UInt32.toNat_ofNat_of_lt' (Nat.lt_trans hshift (by decide)),
    Nat.mod_eq_of_lt hshift]

theorem toNat_and_lowMask {bits : Nat} (hbits : bits < 32) (word : UInt32) :
    (word &&& (1 <<< UInt32.ofNat bits) - 1).toNat = word.toNat % 2 ^ bits := by
  have hpow : 2 ^ bits < 2 ^ 32 := Nat.pow_lt_pow_right (by decide) hbits
  have hone : ((1 : UInt32) <<< UInt32.ofNat bits).toNat = 2 ^ bits := by
    rw [UInt32.toNat_shiftLeft, UInt32.toNat_ofNat_of_lt' (Nat.lt_trans hbits (by decide)),
      Nat.mod_eq_of_lt hbits, UInt32.toNat_one, Nat.one_shiftLeft, Nat.mod_eq_of_lt hpow]
  have hle : (1 : UInt32) ≤ 1 <<< UInt32.ofNat bits := by
    rw [UInt32.le_iff_toNat_le, hone, UInt32.toNat_one]
    exact Nat.one_le_two_pow
  rw [UInt32.toNat_and, UInt32.toNat_sub_of_le _ _ hle, hone, UInt32.toNat_one,
    Nat.and_two_pow_sub_one_eq_mod]

theorem map_toNat_shiftedCodes {bits : Nat} (hbits : bits < 32) (count : Nat) :
    ∀ word : UInt32, bits ≠ 8 ∨ count ≤ 1 →
      (shiftedCodes bits count word).map UInt32.toNat =
        (List.range count).map fun k => word.toNat >>> (k * bits) % 2 ^ bits := by
  induction count with
  | zero =>
      intro word _
      rfl
  | succ count ih =>
      intro word hcount
      rw [shiftedCodes, List.map_cons, toNat_and_lowMask hbits, List.range_succ_eq_map,
        List.map_cons, List.map_map, Nat.zero_mul, Nat.shiftRight_zero]
      congr 1
      rcases hcount with hshifted | hcount
      · rw [if_neg hshifted, ih _ (.inl hshifted)]
        refine List.map_congr_left fun k _ => ?_
        rw [toNat_shiftRight hbits, ← Nat.shiftRight_add, Function.comp_apply, Nat.succ_mul,
          Nat.add_comm bits]
      · rw [Nat.le_zero.mp (Nat.le_of_succ_le_succ hcount)]
        rfl

theorem decodeUnit_eq_shifted {bits : Nat} (hbits : bits < 8 ∨ bits = 8)
    (hfields : codeFields bits =
      (List.range (codesPerUnit bits byteBits)).map fun k => [⟨0, k * bits, bits⟩])
    (byte : UInt8) (rest : List UInt8) :
    decodeUnit bits (byte :: rest) = .ok ((shiftedCodes bits (codesPerUnit bits byteBits)
      byte.toUInt32).map UInt32.toNat) := by
  have hread : ∀ k ∈ List.range (codesPerUnit bits byteBits),
      readFields (byte :: rest) [⟨0, k * bits, bits⟩] =
        .ok (byte.toNat >>> (k * bits) % 2 ^ bits) := by
    intro k _
    have hbyte : fetch (byte :: rest) 0 = .ok byte := rfl
    rw [readFields, readFields, hbyte, ok_bind, ok_bind, pure_eq_ok, BitField.value,
      Nat.one_shiftLeft, Nat.zero_shiftLeft, Nat.add_zero]
  have hcount : bits ≠ 8 ∨ codesPerUnit bits byteBits ≤ 1 := by
    rcases hbits with hlt | rfl
    · exact .inl (Nat.ne_of_lt hlt)
    · exact .inr (Nat.le_refl 1)
  rw [decodeUnit, hfields, mapM_map_eq_ok hread,
    map_toNat_shiftedCodes (by omega) _ _ hcount, UInt8.toNat_toUInt32]

/-- The decoder's fields are what masks and shifts of 32-bit words take from the bytes. -/
theorem decodeUnit_eq_masked (width : CodeWidth) {bytes : List UInt8}
    (h : bytesPerUnit width.bits byteBits ≤ bytes.length) :
    decodeUnit width.bits bytes =
      .ok ((maskedUnit width.bits bytes).map UInt32.toNat) := by
  have hfields : ∀ codes, decodeUnit width.bits bytes = .ok codes →
      codes = (maskedUnit width.bits bytes).map UInt32.toNat →
      decodeUnit width.bits bytes = .ok ((maskedUnit width.bits bytes).map UInt32.toNat) := by
    intro codes hcodes hmasked
    rw [hcodes, hmasked]
  -- Codes that straddle two bytes are sums, and these must not pass the end of a word.
  cases width with
  | two =>
      obtain ⟨b0, rest, rfl⟩ := List.exists_cons_of_length_pos h
      exact decodeUnit_eq_shifted (by decide) rfl b0 rest
  | three =>
      match bytes, h with
      | b0 :: b1 :: b2 :: _, _ =>
          refine hfields _ rfl ?_
          simp (disch := decide) only [maskedUnit, CodeWidth.bits, List.map_cons, List.map_nil,
            toNat_straddling (toNat_part_lt _ _ _).1]
          simp [BitField.value_eq_and, Nat.shiftRight_and_distrib]
  | four =>
      obtain ⟨b0, rest, rfl⟩ := List.exists_cons_of_length_pos h
      exact decodeUnit_eq_shifted (by decide) rfl b0 rest
  | five =>
      match bytes, h with
      | b0 :: b1 :: b2 :: b3 :: b4 :: _, _ =>
          refine hfields _ rfl ?_
          simp (disch := decide) only [maskedUnit, CodeWidth.bits, List.map_cons, List.map_nil,
            toNat_straddling (toNat_part_lt _ _ _).1]
          simp [BitField.value_eq_and, Nat.shiftRight_and_distrib]
  | six =>
      match bytes, h with
      | b0 :: b1 :: b2 :: _, _ =>
          refine hfields _ rfl ?_
          simp (disch := decide) only [maskedUnit, CodeWidth.bits, List.map_cons, List.map_nil,
            toNat_straddling (toNat_part_lt _ _ _).2]
          simp [BitField.value_eq_and]
  | eight =>
      obtain ⟨b0, rest, rfl⟩ := List.exists_cons_of_length_pos h
      exact decodeUnit_eq_shifted (by decide) rfl b0 rest

/-! ## Encoding -/

/-- Codes gathered in a 64-bit word, from the code that is shifted up by `k` widths on. -/
def gatherCodes (bits : Nat) : Nat → UInt64 → List UInt32 → UInt64
  | _, word, [] => word
  | k, word, code :: rest =>
    gatherCodes bits (k + 1) (word ||| code.toUInt64 <<< UInt64.ofNat (k * bits)) rest

/-- What is gathered is the number that the codes make, as far as a word goes. -/
theorem toNat_gatherCodes {bits : Nat} (hbits : 0 < bits) (codes : List UInt32) :
    ∀ (k : Nat) (word : UInt64), (k + codes.length) * bits ≤ 64 →
      (gatherCodes bits k word codes).toNat =
        (word.toNat ||| joinCodes bits (codes.map UInt32.toNat) <<< (k * bits)) % 2 ^ 64 := by
  induction codes with
  | nil =>
      intro k word _
      rw [gatherCodes, List.map_nil, joinCodes, Nat.zero_shiftLeft, Nat.or_zero]
      exact (Nat.mod_eq_of_lt word.toNat_lt).symm
  | cons code rest ih =>
      intro k word hroom
      rw [List.length_cons] at hroom
      have hnext : (k + 1 + rest.length) * bits ≤ 64 := by
        rwa [Nat.add_assoc, Nat.add_comm 1]
      have hshift : k * bits < 64 := by
        have hmore : (k + 1) * bits ≤ (k + (rest.length + 1)) * bits :=
          Nat.mul_le_mul_right bits (by omega)
        rw [Nat.succ_mul] at hmore
        omega
      have hplace : (code.toUInt64 <<< UInt64.ofNat (k * bits)).toNat =
          code.toNat <<< (k * bits) % 2 ^ 64 := by
        rw [UInt64.toNat_shiftLeft, UInt64.toNat_ofNat_of_lt' (Nat.lt_trans hshift (by decide)),
          Nat.mod_eq_of_lt hshift, UInt32.toNat_toUInt64]
      rw [gatherCodes, ih _ _ hnext, UInt64.toNat_or, hplace, List.map_cons, joinCodes,
        Nat.shiftLeft_or_distrib, ← Nat.shiftLeft_add, Nat.succ_mul, Nat.add_comm bits]
      simp only [Nat.or_mod_two_pow, Nat.mod_mod, Nat.or_assoc]

theorem littleEndian_eq_take {count : Nat} (hcount : count ≤ 8) (v : Nat) :
    littleEndian count v = (littleEndian 8 (v % 2 ^ 64)).take count := by
  have hlength : ((littleEndian 8 (v % 2 ^ 64)).take count).length = count := by
    rw [List.length_take, length_littleEndian, Nat.min_eq_left hcount]
  refine streamOfBytes_inj ((length_littleEndian count v).trans hlength.symm) ?_
  have hfront := streamOfBytes_take_drop (littleEndian 8 (v % 2 ^ 64)) 0 count
  rw [List.drop_zero, streamOfBytes_littleEndian, bitsFrom, Nat.pow_zero, Nat.div_one] at hfront
  have hdvd : 2 ^ (8 * count) ∣ 2 ^ 64 := Nat.pow_dvd_pow 2 (by omega)
  rw [hfront, streamOfBytes_littleEndian, Nat.mod_mod, Nat.mod_mod_of_dvd v hdvd]

/-- The encoder's number may be gathered in a 64-bit word: no code of a unit is shifted past it,
and what a code above its width loses there is above the bytes of the unit. -/
theorem encodeUnit_eq_gathered (width : CodeWidth) {codes : List UInt32}
    (h : codes.length ≤ codesPerUnit width.bits wordBits) :
    encodeUnit width.bits (codes.map UInt32.toNat) =
      (littleEndian 8 (gatherCodes width.bits 0 0 codes).toNat).take
        (bytesPerUnit width.bits wordBits) := by
  have hbytes : bytesPerUnit width.bits wordBits ≤ 8 := by
    cases width <;> decide
  have hroom : (0 + codes.length) * width.bits ≤ 64 := by
    have hcodes := Nat.mul_le_mul_right width.bits h
    rw [codesPerUnit_mul_bits_word] at hcodes
    rw [Nat.zero_add]
    omega
  rw [encodeUnit, littleEndian_eq_take hbytes, toNat_gatherCodes width.bits_pos codes 0 0 hroom,
    Nat.zero_mul, Nat.shiftLeft_zero, UInt64.toNat_zero, Nat.zero_or]

/-! ## Bits -/

/-- A bit of a word, from the byte that has it. -/
def bitOfByte (word : UInt32) (i : Nat) : UInt8 :=
  ((littleEndian 4 word.toNat).getD (i / 8) 0 >>> UInt8.ofNat (i % 8)) &&& 1

/-- A word with its bit `i` set or cleared in the byte that has it. -/
def setBitOfByte (word : UInt32) (i : Nat) (value : Bool) : UInt32 :=
  let bytes := littleEndian 4 word.toNat
  let byte := bytes.getD (i / 8) 0
  let mask : UInt8 := 1 <<< UInt8.ofNat (i % 8)
  let written := bytes.set (i / 8) (if value then byte ||| mask else byte &&& ~~~mask)
  UInt32.ofNat (streamOfBytes written)

theorem bitOfBytes_littleEndian (word : UInt32) (i : Nat) :
    bitOfBytes (littleEndian 4 word.toNat) i = word.toNat.testBit i := by
  rw [← testBit_streamOfBytes, streamOfBytes_littleEndian]
  exact congrArg (Nat.testBit · i) (Nat.mod_eq_of_lt word.toNat_lt)

theorem toNat_shift_mod (i : Nat) : (UInt8.ofNat (i % 8)).toNat % 8 = i % 8 := by
  rw [UInt8.toNat_ofNat']
  omega

theorem toNat_bitOfByte (word : UInt32) (i : Nat) :
    (bitOfByte word i).toNat = (word.toNat.testBit i).toNat := by
  rw [bitOfByte, UInt8.toNat_and, UInt8.toNat_shiftRight, toNat_shift_mod, UInt8.toNat_one,
    Nat.and_one_is_mod, ← bitOfBytes_littleEndian, bitOfBytes, Nat.toNat_testBit,
    Nat.shiftRight_eq_div_pow]

theorem testBit_setByteBit (byte : UInt8) (i : Nat) {j : Nat} (hj : j < 8) (value : Bool) :
    let mask : UInt8 := 1 <<< UInt8.ofNat (i % 8)
    (if value then byte ||| mask else byte &&& ~~~mask).toNat.testBit j =
      if i % 8 = j then value else byte.toNat.testBit j := by
  intro mask
  have hlt : 2 ^ (i % 8) < 2 ^ 8 := Nat.pow_lt_pow_right (by decide) (Nat.mod_lt i (by decide))
  have hmask : mask.toNat = 2 ^ (i % 8) := by
    rw [UInt8.toNat_shiftLeft, toNat_shift_mod, UInt8.toNat_one, Nat.one_shiftLeft]
    exact Nat.mod_eq_of_lt hlt
  cases value with
  | true =>
      simp only [if_true, UInt8.toNat_or, hmask, Nat.testBit_or, Nat.testBit_two_pow]
      by_cases hij : i % 8 = j <;> simp [hij]
  | false =>
      have hcomplement : UInt8.size - 1 - 2 ^ (i % 8) = 2 ^ 8 - (2 ^ (i % 8) + 1) := by
        rw [UInt8.size]
        omega
      simp only [Bool.false_eq_true, if_false, UInt8.toNat_and, UInt8.toNat_not, hmask,
        Nat.testBit_and, hcomplement, Nat.testBit_two_pow_sub_succ hlt, Nat.testBit_two_pow]
      by_cases hij : i % 8 = j <;> simp [hij, hj]

/-- The bit writer may change the byte that has the bit. -/
theorem setBit_eq_byte (word : UInt32) {i : Nat} (hi : i < 32) (value : Bool) :
    setBit word i value = setBitOfByte word i value := by
  apply UInt32.toNat_inj.mp
  apply Nat.eq_of_testBit_eq
  intro j
  by_cases hj : j < 32
  · have hold := bitOfBytes_littleEndian word j
    rw [bitOfBytes] at hold
    rw [testBit_setBit word hi hj, setBitOfByte, UInt32.toNat_ofNat', Nat.testBit_mod_two_pow,
      decide_eq_true hj, Bool.true_and, testBit_streamOfBytes, bitOfBytes, ← hold]
    by_cases hsame : i / 8 = j / 8
    · have hbyte : i / 8 < (littleEndian 4 word.toNat).length := by
        rw [length_littleEndian]
        omega
      have hwritten : ∀ byte, ((littleEndian 4 word.toNat).set (i / 8) byte).getD (i / 8) 0 =
          byte := by
        intro byte
        rw [List.getD_eq_getElem?_getD, List.getElem?_set_self hbyte, Option.getD_some]
      have hbit : i % 8 = j % 8 ↔ i = j := by omega
      rw [← hsame, hwritten, testBit_setByteBit _ i (Nat.mod_lt j (by decide))]
      simp only [hbit]
    · have hne : i ≠ j := fun h => hsame (congrArg (· / 8) h)
      rw [if_neg hne, List.getD_eq_getElem?_getD, List.getD_eq_getElem?_getD,
        List.getElem?_set_ne hsame]
  · have hhigh : ∀ w : UInt32, w.toNat.testBit j = false := fun w =>
      Nat.testBit_lt_two_pow (Nat.lt_of_lt_of_le w.toNat_lt
        (Nat.pow_le_pow_right (by decide) (Nat.le_of_not_lt hj)))
    rw [hhigh, hhigh]

/-! ## Lanes -/

theorem laneCode_eq_masked {bits : Nat} (hbits : bits < 32) (words : List UInt32)
    {place : Nat × Nat} (hplace : place.2 < 32) :
    laneCode bits words place = (do
      let word ← fetch words place.1
      return (word >>> UInt32.ofNat place.2 &&& (1 <<< UInt32.ofNat bits) - 1).toNat) := by
  simp only [laneCode, toNat_and_lowMask hbits, toNat_shiftRight hplace, Nat.one_shiftLeft]

end SubByte.Packing
