/-
# Writing — codes put into a stream one at a time

The bit writer changes a word by one bit at a time, and the bits that it changes are those of
the code that it was given: the others stay (`writeBits_overwrites`).  Codes lie side by
side, so what is written at one place is not seen at another, whether the two share a byte
or a word or not (`Overwritten.codeAt_of_ne`).

Hence a run of writes leaves at each place the code that was last written there, and what
the words held before where nothing was written (`writeCodes_eq_ok`).  When every code has
been written and they fill the words, no bit of the old words is left, and the words are
those of the encoder, in whatever order the codes came (`writeCodes_pack`).
-/
import SubByte.Proofs.Packing.Bits
import SubByte.Proofs.Packing.Codes

namespace SubByte.Packing

/-! ## One bit -/

theorem toNat_mask {i : Nat} (hi : i < 32) : (UInt32.ofNat (1 <<< i)).toNat = 2 ^ i := by
  rw [Nat.one_shiftLeft]
  exact UInt32.toNat_ofNat_of_lt' (Nat.pow_lt_pow_right (by decide) hi)

theorem testBit_setBit (word : UInt32) {i j : Nat} (hi : i < 32) (hj : j < 32) (value : Bool) :
    (setBit word i value).toNat.testBit j = if i = j then value else word.toNat.testBit j := by
  cases value with
  | true =>
      simp only [setBit, if_true, UInt32.toNat_or, toNat_mask hi, Nat.testBit_or,
        Nat.testBit_two_pow]
      by_cases hij : i = j <;> simp [hij]
  | false =>
      have hlt : 2 ^ i < 2 ^ 32 := Nat.pow_lt_pow_right (by decide) hi
      have hcomplement : UInt32.size - 1 - 2 ^ i = 2 ^ 32 - (2 ^ i + 1) := by
        rw [UInt32.size]
        omega
      simp only [setBit, Bool.false_eq_true, if_false, UInt32.toNat_and, UInt32.toNat_not,
        toNat_mask hi, Nat.testBit_and, hcomplement, Nat.testBit_two_pow_sub_succ hlt,
        Nat.testBit_two_pow]
      by_cases hij : i = j <;> simp [hij, hj]

theorem testBit_set {words : List UInt32} {pos : Nat} (hword : pos / 32 < words.length)
    (value : Bool) (p : Nat) :
    (streamOfWords (words.set (pos / 32) (setBit words[pos / 32] (pos % 32) value))).testBit p =
      if pos = p then value else (streamOfWords words).testBit p := by
  have hpos : pos % 32 < 32 := Nat.mod_lt pos (by decide)
  have hp : p % 32 < 32 := Nat.mod_lt p (by decide)
  rw [testBit_streamOfWords, testBit_streamOfWords]
  by_cases hsame : pos / 32 = p / 32
  · have hnew : (words.set (pos / 32) (setBit words[pos / 32] (pos % 32) value)).getD (p / 32) 0 =
        setBit words[pos / 32] (pos % 32) value := by
      rw [← hsame, List.getD_eq_getElem _ 0 (by rwa [List.length_set]), List.getElem_set_self]
    have hold : words.getD (p / 32) 0 = words[pos / 32] := by
      rw [← hsame, List.getD_eq_getElem _ 0 hword]
    have hbit : pos % 32 = p % 32 ↔ pos = p := by omega
    rw [hnew, hold, testBit_setBit _ hpos hp]
    simp only [hbit]
  · have hne : pos ≠ p := fun h => hsame (congrArg (· / 32) h)
    have hother : (words.set (pos / 32) (setBit words[pos / 32] (pos % 32) value)).getD (p / 32) 0 =
        words.getD (p / 32) 0 := by
      rw [List.getD_eq_getElem?_getD, List.getElem?_set_ne hsame, List.getD_eq_getElem?_getD]
    rw [hother, if_neg hne]

/-! ## One code -/

/-- The `count` bits from `pos` on are the low ones of `code`, and all others are the old ones. -/
structure Overwritten (pos count code : Nat) (old new : List UInt32) : Prop where
  length : new.length = old.length
  inside : ∀ b < count, (streamOfWords new).testBit (pos + b) = code.testBit b
  outside : ∀ p, p < pos ∨ pos + count ≤ p →
    (streamOfWords new).testBit p = (streamOfWords old).testBit p

/-- Writing bit after bit writes a stretch of bits, and nothing beside it. -/
theorem writeBits_overwrites (count : Nat) :
    ∀ (words : List UInt32) (pos code : Nat), pos + count ≤ 32 * words.length →
      ∃ new, writeBits words pos code count = .ok new ∧
        Overwritten pos count code words new := by
  induction count with
  | zero =>
      intro words pos code _
      exact ⟨words, rfl, rfl, nofun, fun _ _ => rfl⟩
  | succ count ih =>
      intro words pos code hroom
      have hword : pos / 32 < words.length := by omega
      have hfirst := testBit_set hword (code.testBit 0)
      obtain ⟨new, hnew, hrest⟩ :=
        ih (words.set (pos / 32) (setBit words[pos / 32] (pos % 32) (code.testBit 0)))
          (pos + 1) (code / 2) (by rw [List.length_set]; omega)
      refine ⟨new, ?_, ?_, ?_, ?_⟩
      · rw [writeBits, fetch_eq_ok hword, ok_bind]
        exact hnew
      · exact hrest.length.trans List.length_set
      · intro b hb
        cases b with
        | zero =>
            -- the first bit lies before all that is written after it
            rw [Nat.add_zero, hrest.outside pos (.inl (Nat.lt_succ_self pos)), hfirst, if_pos rfl]
        | succ b =>
            have hlater := hrest.inside b (Nat.lt_of_succ_lt_succ hb)
            rwa [Nat.add_assoc, Nat.add_comm 1, ← Nat.testBit_succ] at hlater
      · intro p hp
        rw [hrest.outside p (by omega), hfirst, if_neg (by omega)]

theorem writeCode_overwrites {words : List UInt32} {bits i : Nat} (code : Nat)
    (h : (i + 1) * bits ≤ 32 * words.length) :
    ∃ new, writeCode words bits i code = .ok new ∧
      Overwritten (i * bits) bits code words new := by
  rw [Nat.succ_mul] at h
  exact writeBits_overwrites bits words (i * bits) code h

theorem codes_apart {bits i j b : Nat} (hne : j ≠ i) (hb : b < bits) :
    j * bits + b < i * bits ∨ i * bits + bits ≤ j * bits + b := by
  rcases Nat.lt_or_gt_of_ne hne with hlt | hgt
  · have hnext := row_end_le hlt (Nat.le_refl (i * bits))
    omega
  · have hnext := row_end_le hgt (Nat.le_refl (j * bits))
    omega

namespace Overwritten

variable {bits i code : Nat} {old new : List UInt32}

theorem codeAt_self (h : Overwritten (i * bits) bits code old new) :
    codeAt bits (streamOfWords new) i = code % 2 ^ bits := by
  apply Nat.eq_of_testBit_eq
  intro b
  rw [codeAt, testBit_bitsFrom, Nat.testBit_mod_two_pow]
  by_cases hb : b < bits
  · rw [h.inside b hb]
  · simp only [hb, decide_false, Bool.false_and]

/-- The codes at the other places are the old ones. -/
theorem codeAt_of_ne (h : Overwritten (i * bits) bits code old new) {j : Nat} (hne : j ≠ i) :
    codeAt bits (streamOfWords new) j = codeAt bits (streamOfWords old) j := by
  apply Nat.eq_of_testBit_eq
  intro b
  rw [codeAt, codeAt, testBit_bitsFrom, testBit_bitsFrom]
  by_cases hb : b < bits
  · rw [h.outside _ (codes_apart hne hb)]
  · simp only [hb, decide_false, Bool.false_and]

end Overwritten

/-! ## Many codes -/

/-- The codes at the given indices written one after another, each to its own place. -/
def writeCodes (bits : Nat) (codes : List Nat) (words : List UInt32) (order : List Nat) :
    Except Fault (List UInt32) :=
  order.foldlM (fun words i => do
    let code ← fetch codes i
    writeCode words bits i code) words

section Order

variable {bits : Nat} {codes : List Nat}

/-- At the indices of a run the codes are those that it has written, and elsewhere they are the
old ones. -/
theorem writeCodes_eq_ok (order : List Nat) :
    ∀ words : List UInt32, codes.length * bits ≤ 32 * words.length →
      (∀ i ∈ order, i < codes.length) →
      ∃ new, writeCodes bits codes words order = .ok new ∧ new.length = words.length ∧
        (∀ i (hi : i < codes.length), i ∈ order →
          codeAt bits (streamOfWords new) i = codes[i] % 2 ^ bits) ∧
        ∀ i, i ∉ order → codeAt bits (streamOfWords new) i = codeAt bits (streamOfWords words) i := by
  induction order with
  | nil =>
      intro words _ _
      exact ⟨words, rfl, rfl, fun _ _ h => absurd h List.not_mem_nil, fun _ _ => rfl⟩
  | cons i order ih =>
      intro words hroom horder
      have hi := horder i List.mem_cons_self
      have hplace : (i + 1) * bits ≤ 32 * words.length :=
        Nat.le_trans (Nat.mul_le_mul_right bits hi) hroom
      obtain ⟨first, hfirst, hwritten⟩ := writeCode_overwrites codes[i] hplace
      obtain ⟨new, hnew, hlength, hinside, houtside⟩ := ih first
        (by rwa [hwritten.length]) fun j hj => horder j (List.mem_cons_of_mem i hj)
      refine ⟨new, ?_, hlength.trans hwritten.length, ?_, ?_⟩
      · rw [writeCodes, List.foldlM_cons, fetch_eq_ok hi, ok_bind, hfirst, ok_bind]
        exact hnew
      · intro j hj hmem
        by_cases hlater : j ∈ order
        · exact hinside j hj hlater
        · -- written first and not again
          obtain rfl : j = i := (List.mem_cons.mp hmem).resolve_right hlater
          rw [houtside j hlater, hwritten.codeAt_self]
      · intro j hmem
        obtain ⟨hne, hlater⟩ := not_or.mp fun h => hmem (List.mem_cons.mpr h)
        rw [houtside j hlater, hwritten.codeAt_of_ne hne]

theorem streamOfWords_lt (words : List UInt32) :
    streamOfWords words < 2 ^ (32 * words.length) := by
  rw [Nat.pow_mul, ← List.length_map UInt32.toNat]
  exact Nat.ofDigits_lt_base_pow_length (by decide) (word_digits words)

theorem streamOfWords_writeCodes (words : List UInt32) (order : List Nat)
    (hcodes : InRange bits codes) (hfull : codes.length * bits = 32 * words.length)
    (horder : ∀ i, i ∈ order ↔ i < codes.length) :
    ∃ new, writeCodes bits codes words order = .ok new ∧ new.length = words.length ∧
      streamOfWords new = streamOfCodes bits codes := by
  obtain ⟨new, hnew, hlength, hinside, -⟩ :=
    writeCodes_eq_ok order words (Nat.le_of_eq hfull) fun i hi => (horder i).mp hi
  refine ⟨new, hnew, hlength, ?_⟩
  have hread : (List.range codes.length).map (codeAt bits (streamOfWords new)) = codes := by
    refine List.ext_getElem (by rw [List.length_map, List.length_range]) ?_
    intro i _ hi
    rw [List.getElem_map, List.getElem_range, hinside i hi ((horder i).mpr hi)]
    exact Nat.mod_eq_of_lt (hcodes _ (List.getElem_mem hi))
  have hstream := streamOfCodes_codeAt bits (streamOfWords new) codes.length
  rw [hread, Nat.mul_comm bits, hfull, ← hlength] at hstream
  rw [hstream]
  exact (Nat.mod_eq_of_lt (streamOfWords_lt new)).symm

end Order

theorem codesPerUnit_dvd (width : CodeWidth) : codesPerUnit width.bits wordBits ∣ 32 := by
  cases width <;> decide

/-- The bit writer and the encoder write the same stream.  When each code is written to its
place once, in any order and over any words, the bytes of the words are those that encoding
the codes writes to the front of a buffer. -/
theorem writeCodes_pack (width : CodeWidth) (codes : List Nat) (words : List UInt32)
    (order : List Nat) (hcodes : InRange width.bits codes) (hwhole : 32 ∣ codes.length)
    (hwords : words.length = codes.length * width.bits / 32)
    (horder : order.Perm (List.range codes.length)) :
    ∃ written, writeCodes width.bits codes words order = .ok written ∧
      written.length = words.length ∧
      ∀ out : List UInt8, 4 * words.length ≤ out.length →
        pack width.bits codes out = .ok (overlay (bytesOfWords written) out) := by
  have hfull : codes.length * width.bits = 32 * words.length := by
    rw [hwords]
    exact (Nat.mul_div_cancel' (Nat.dvd_mul_right_of_dvd hwhole width.bits)).symm
  obtain ⟨count, hcount⟩ :=
    exists_eq_mul_left_of_dvd (Nat.dvd_trans (codesPerUnit_dvd width) hwhole)
  have hbytes : count * bytesPerUnit width.bits wordBits = 4 * words.length := by
    have hunits := units_mul_bits width count
    rw [← hcount, hfull] at hunits
    omega
  obtain ⟨written, hwritten, hlength, hstream⟩ :=
    streamOfWords_writeCodes words order hcodes hfull fun i => by
      rw [horder.mem_iff, List.mem_range]
  refine ⟨written, hwritten, hlength, ?_⟩
  intro out hout
  have hencoded : encodeUnits width.bits count codes = bytesOfWords written := by
    refine streamOfBytes_inj ?_ ?_
    · rw [length_encodeUnits, length_bytesOfWords, hlength, hbytes]
    · rw [streamOfBytes_pack_whole width hcodes hcount, streamOfBytes_bytesOfWords, hstream]
  have hunit : 0 < bytesPerUnit width.bits wordBits := by cases width <;> decide
  have hroom : count ≤ out.length / bytesPerUnit width.bits wordBits :=
    (Nat.le_div_iff_mul_le hunit).mpr (hbytes ▸ hout)
  rw [pack_eq_ok, hcount, Nat.mul_div_cancel _ (codesPerUnit_pos width), Nat.min_eq_left hroom,
    hencoded]

/-- Thirty-two codes of three bits, the last one first, over three words that held something
else. -/
theorem writeCodes_pack_backwards :
    ∃ written, writeCodes 3 ((List.range 32).map (· % 8)) [0xFFFFFFFF, 0, 0x12345678]
        (List.range 32).reverse = .ok written ∧ written.length = 3 ∧
      pack 3 ((List.range 32).map (· % 8)) (List.replicate 12 7) = .ok (bytesOfWords written) := by
  obtain ⟨written, hwritten, hlength, hpack⟩ :=
    writeCodes_pack .three ((List.range 32).map (· % 8)) [0xFFFFFFFF, 0, 0x12345678]
      (List.range 32).reverse (by unfold InRange; decide) (by decide) (by decide)
      (List.reverse_perm _)
  have hwhole : overlay (bytesOfWords written) (List.replicate 12 7) = bytesOfWords written :=
    overlay_eq_front (by rw [length_bytesOfWords, hlength]; decide)
  refine ⟨written, hwritten, hlength, ?_⟩
  rw [← hwhole]
  exact hpack (List.replicate 12 7) (by decide)

end SubByte.Packing
