/-
# Codes — the encoder writes the stream

Codes within their width are digits of one number, as bytes are, and the encoder changes
the base: the bytes of a unit make the number that its codes make.  Units hold whole codes
and whole bytes, so this goes on from unit to unit (`streamOfBytes_encodeUnits`), and the
decoder, which reads the stream, finds the codes that were written.

In a number two lists of digits of one length are told apart, which gives both inverse
laws (`packing_inverse`): the codes of a stream are its digits to one base, its bytes are
those to another, and nothing of either is left over.
-/
import SubByte.Proofs.Packing.Units

namespace SubByte.Packing

/-- The number that codes make. -/
def streamOfCodes (bits : Nat) (codes : List Nat) : Nat :=
  Nat.ofDigits (2 ^ bits) codes

/-- Codes that are within their width. -/
def InRange (bits : Nat) (codes : List Nat) : Prop :=
  ∀ code ∈ codes, code < 2 ^ bits

/-! ## Digits -/

section Digits

variable {bits : Nat} {codes : List Nat}

theorem streamOfCodes_lt (hbits : 0 < bits) (h : InRange bits codes) :
    streamOfCodes bits codes < 2 ^ (bits * codes.length) := by
  rw [Nat.pow_mul]
  exact Nat.ofDigits_lt_base_pow_length (Nat.one_lt_two_pow (Nat.ne_of_gt hbits)) h

theorem streamOfCodes_append (front back : List Nat) :
    streamOfCodes bits (front ++ back) =
      streamOfCodes bits front + 2 ^ (bits * front.length) * streamOfCodes bits back := by
  rw [streamOfCodes, Nat.ofDigits_append, Nat.pow_mul]
  rfl

theorem codeAt_streamOfCodes (h : InRange bits codes) {i : Nat} (hi : i < codes.length) :
    codeAt bits (streamOfCodes bits codes) i = codes[i] := by
  have hone := bitsFrom_ofDigits bits h i 1
  rw [List.drop_eq_getElem_cons hi, List.take_succ_cons, List.take_zero,
    Nat.ofDigits_singleton, Nat.mul_one, Nat.mul_comm] at hone
  exact hone.symm

theorem streamOfCodes_codeAt (bits stream count : Nat) :
    streamOfCodes bits ((List.range count).map (codeAt bits stream)) =
      stream % 2 ^ (bits * count) := by
  induction count with
  | zero => simp [streamOfCodes, Nat.mod_one]
  | succ count ih =>
      have hsplit := bitsFrom_add stream 0 (bits * count) bits
      rw [List.range_succ, List.map_append, streamOfCodes_append, ih, List.length_map,
        List.length_range, Nat.mul_succ]
      simp only [bitsFrom, Nat.pow_zero, Nat.div_one, Nat.zero_add] at hsplit
      rw [hsplit, Nat.mul_comm (stream / _ % _)]
      simp only [List.map_cons, List.map_nil, streamOfCodes, Nat.ofDigits_singleton, codeAt,
        bitsFrom, Nat.mul_comm count]

theorem inRange_codeAt (bits stream count : Nat) :
    InRange bits ((List.range count).map (codeAt bits stream)) := by
  intro code hcode
  obtain ⟨i, -, rfl⟩ := List.mem_map.mp hcode
  exact Nat.mod_lt _ (Nat.two_pow_pos bits)

end Digits

theorem streamOfBytes_lt (bytes : List UInt8) :
    streamOfBytes bytes < 2 ^ (8 * bytes.length) := by
  rw [Nat.pow_mul, ← List.length_map UInt8.toNat]
  exact Nat.ofDigits_lt_base_pow_length (by decide) (byte_digits bytes)

theorem streamOfBytes_inj {front back : List UInt8} (hlength : front.length = back.length)
    (h : streamOfBytes front = streamOfBytes back) : front = back := by
  have hdigits : front.map UInt8.toNat = back.map UInt8.toNat :=
    Nat.ofDigits_inj_of_len_eq (by decide) (by rw [List.length_map, List.length_map, hlength])
      (byte_digits front) (byte_digits back) h
  exact List.map_injective_iff.mpr (fun _ _ hbyte => UInt8.toNat_inj.mp hbyte) hdigits

theorem bytesOfWords_wordsOfBytes {count : Nat} {bytes : List UInt8}
    (h : bytes.length = 4 * count) : bytesOfWords (wordsOfBytes bytes) = bytes := by
  obtain ⟨hlength, hstream⟩ := wordsOfBytes_whole h
  refine streamOfBytes_inj ?_ ((streamOfBytes_bytesOfWords _).trans hstream)
  rw [length_bytesOfWords, hlength, h]

/-! ## Units -/

theorem codesPerUnit_mul_bits_word (width : CodeWidth) :
    codesPerUnit width.bits wordBits * width.bits = 8 * bytesPerUnit width.bits wordBits := by
  cases width <;> rfl

theorem codesPerUnit_pos (width : CodeWidth) : 0 < codesPerUnit width.bits wordBits := by
  cases width <;> decide

theorem bytesPerUnit_word_pos (width : CodeWidth) : 0 < bytesPerUnit width.bits wordBits := by
  cases width <;> decide

/-- Codes side by side do not touch when they are within their width. -/
theorem joinCodes_eq {bits : Nat} {codes : List Nat} (h : InRange bits codes) :
    joinCodes bits codes = streamOfCodes bits codes := by
  induction codes with
  | nil => rfl
  | cons code rest ih =>
      have hcode := h code List.mem_cons_self
      have hrest : InRange bits rest := fun c hc => h c (List.mem_cons_of_mem code hc)
      rw [joinCodes, ih hrest, Nat.shiftLeft_eq, Nat.or_comm, Nat.mul_comm,
        ← Nat.two_pow_add_eq_or_of_lt hcode, Nat.add_comm]
      rfl

theorem streamOfBytes_encodeUnit (width : CodeWidth) {codes : List Nat}
    (h : InRange width.bits codes) (hlength : codes.length = codesPerUnit width.bits wordBits) :
    streamOfBytes (encodeUnit width.bits codes) = streamOfCodes width.bits codes := by
  have hlt := streamOfCodes_lt width.bits_pos h
  rw [hlength, Nat.mul_comm, codesPerUnit_mul_bits_word] at hlt
  rw [encodeUnit, joinCodes_eq h, streamOfBytes_littleEndian]
  exact Nat.mod_eq_of_lt hlt

/-- The bytes of consecutive units. -/
def encodeUnits (bits count : Nat) (codes : List Nat) : List UInt8 :=
  (blocks (codesPerUnit bits wordBits) count codes).flatMap (encodeUnit bits)

theorem length_encodeUnits (bits : Nat) (count : Nat) (codes : List Nat) :
    (encodeUnits bits count codes).length = count * bytesPerUnit bits wordBits := by
  induction count generalizing codes with
  | zero => simp [encodeUnits, blocks]
  | succ count ih =>
      have hrest := ih (codes.drop (codesPerUnit bits wordBits))
      rw [encodeUnits] at hrest
      rw [encodeUnits, blocks, List.flatMap_cons, List.length_append, hrest, encodeUnit,
        length_littleEndian, Nat.succ_mul, Nat.add_comm]

/-- The bytes of units make the number that their codes make. -/
theorem streamOfBytes_encodeUnits (width : CodeWidth) {codes : List Nat} {count : Nat}
    (h : InRange width.bits codes)
    (hlength : count * codesPerUnit width.bits wordBits ≤ codes.length) :
    streamOfBytes (encodeUnits width.bits count codes) =
      streamOfCodes width.bits (codes.take (count * codesPerUnit width.bits wordBits)) := by
  induction count generalizing codes with
  | zero => simp [encodeUnits, blocks, streamOfBytes, streamOfCodes]
  | succ count ih =>
      rw [Nat.succ_mul] at hlength ⊢
      have hfront : (codes.take (codesPerUnit width.bits wordBits)).length =
          codesPerUnit width.bits wordBits := by
        rw [List.length_take]
        omega
      have hfrontRange : InRange width.bits (codes.take (codesPerUnit width.bits wordBits)) :=
        fun c hc => h c (List.mem_of_mem_take hc)
      have hrestRange : InRange width.bits (codes.drop (codesPerUnit width.bits wordBits)) :=
        fun c hc => h c (List.mem_of_mem_drop hc)
      have hunit := streamOfBytes_encodeUnit width hfrontRange hfront
      have hrest := ih hrestRange (by rw [List.length_drop]; omega)
      rw [encodeUnits] at hrest
      rw [encodeUnits, blocks, List.flatMap_cons, streamOfBytes_append, hrest, hunit, encodeUnit,
        length_littleEndian, Nat.add_comm (count * _), List.take_add, streamOfCodes_append, hfront,
        Nat.mul_comm width.bits, codesPerUnit_mul_bits_word]

/-- Encoding writes as many whole units as both sides have, and touches nothing behind
them. -/
theorem pack_eq_ok (width : CodeWidth) (codes : List Nat) (out : List UInt8) :
    pack width.bits codes out = .ok (overlay
      (encodeUnits width.bits (min (codes.length / codesPerUnit width.bits wordBits)
        (out.length / bytesPerUnit width.bits wordBits)) codes) out) := by
  rw [pack]
  exact if_neg (Nat.ne_of_gt (codesPerUnit_pos width))

theorem pack_whole (width : CodeWidth) {codes : List Nat} {out : List UInt8} {count : Nat}
    (hcodes : codes.length = count * codesPerUnit width.bits wordBits)
    (hout : out.length = count * bytesPerUnit width.bits wordBits) :
    pack width.bits codes out = .ok (encodeUnits width.bits count codes) := by
  rw [pack_eq_ok, hcodes, hout, Nat.mul_div_cancel _ (codesPerUnit_pos width),
    Nat.mul_div_cancel _ (bytesPerUnit_word_pos width), Nat.min_self]
  refine congrArg Except.ok (overlay_eq_front ?_)
  rw [length_encodeUnits, hout]

theorem streamOfBytes_pack_whole (width : CodeWidth) {codes : List Nat} {count : Nat}
    (h : InRange width.bits codes)
    (hcodes : codes.length = count * codesPerUnit width.bits wordBits) :
    streamOfBytes (encodeUnits width.bits count codes) = streamOfCodes width.bits codes := by
  rw [streamOfBytes_encodeUnits width h (Nat.le_of_eq hcodes.symm), ← hcodes, List.take_length]

/-! ## Both directions -/

theorem units_of_word_unit (width : CodeWidth) :
    ∃ units, codesPerUnit width.bits wordBits = units * codesPerUnit width.bits byteBits ∧
      bytesPerUnit width.bits wordBits = units * bytesPerUnit width.bits byteBits := by
  refine ⟨bytesPerUnit width.bits wordBits / bytesPerUnit width.bits byteBits, ?_⟩
  cases width <;> decide

theorem unpack_front (width : CodeWidth) {bytes : List UInt8} {out : List Nat} {count : Nat}
    (hbytes : count * bytesPerUnit width.bits wordBits ≤ bytes.length)
    (hout : count * codesPerUnit width.bits wordBits ≤ out.length) :
    ∃ codes, unpack width.bits bytes out = .ok codes ∧ codes.length = out.length ∧
      ∀ i < count * codesPerUnit width.bits wordBits,
        codes[i]? = some (codeAt width.bits (streamOfBytes bytes) i) := by
  have hcodes : 0 < codesPerUnit width.bits byteBits := by cases width <;> decide
  obtain ⟨units, hcodeUnits, hbyteUnits⟩ := units_of_word_unit width
  rw [hcodeUnits, ← Nat.mul_assoc] at hout ⊢
  rw [hbyteUnits, ← Nat.mul_assoc] at hbytes
  have hroom : count * units ≤ min (out.length / codesPerUnit width.bits byteBits)
      (bytes.length / bytesPerUnit width.bits byteBits) :=
    Nat.le_min.mpr ⟨(Nat.le_div_iff_mul_le hcodes).mpr hout,
      (Nat.le_div_iff_mul_le (bytesPerUnit_pos width)).mpr hbytes⟩
  refine ⟨_, unpack_eq_ok width bytes out, ?_, ?_⟩
  · apply length_overlay
    rw [List.length_map, List.length_range]
    exact Nat.le_trans (Nat.mul_le_mul_right _ (Nat.min_le_left _ _)) (Nat.div_mul_le_self _ _)
  · intro i hi
    have hread := Nat.lt_of_lt_of_le hi
      (Nat.mul_le_mul_right (codesPerUnit width.bits byteBits) hroom)
    rw [overlay, List.getElem?_append_left (by rwa [List.length_map, List.length_range]),
      List.getElem?_map, List.getElem?_range hread, Option.map_some]

theorem unpack_whole (width : CodeWidth) {bytes : List UInt8} {out : List Nat} {count : Nat}
    (hbytes : bytes.length = count * bytesPerUnit width.bits wordBits)
    (hout : out.length = count * codesPerUnit width.bits wordBits) :
    unpack width.bits bytes out =
      .ok ((List.range out.length).map (codeAt width.bits (streamOfBytes bytes))) := by
  obtain ⟨codes, hunpack, hlength, hcodes⟩ :=
    unpack_front width (Nat.le_of_eq hbytes.symm) (Nat.le_of_eq hout.symm)
  rw [hunpack]
  refine congrArg Except.ok (List.ext_getElem (by rw [hlength, List.length_map, List.length_range]) ?_)
  intro i hi _
  have hread := hcodes i (by rwa [← hout, ← hlength])
  rw [List.getElem?_eq_getElem hi, Option.some.injEq] at hread
  rw [hread, List.getElem_map, List.getElem_range]

theorem units_mul_bits (width : CodeWidth) (count : Nat) :
    count * codesPerUnit width.bits wordBits * width.bits =
      8 * (count * bytesPerUnit width.bits wordBits) := by
  rw [Nat.mul_assoc, codesPerUnit_mul_bits_word, Nat.mul_left_comm]

theorem unpack_pack (width : CodeWidth) {codes : List Nat} {packed : List UInt8}
    {unpacked : List Nat} {count : Nat} (hcodes : InRange width.bits codes)
    (hcount : codes.length = count * codesPerUnit width.bits wordBits)
    (hpacked : packed.length = count * bytesPerUnit width.bits wordBits)
    (hunpacked : unpacked.length = codes.length) :
    ∃ bytes, pack width.bits codes packed = .ok bytes ∧
      unpack width.bits bytes unpacked = .ok codes := by
  refine ⟨_, pack_whole width hcount hpacked, ?_⟩
  rw [unpack_whole width (length_encodeUnits _ _ _) (hunpacked.trans hcount), hunpacked,
    streamOfBytes_pack_whole width hcodes hcount]
  refine congrArg Except.ok (List.ext_getElem (by rw [List.length_map, List.length_range]) ?_)
  intro i _ hi
  rw [List.getElem_map, List.getElem_range, codeAt_streamOfCodes hcodes hi]

theorem pack_unpack (width : CodeWidth) {bytes packed : List UInt8} {unpacked : List Nat}
    {count : Nat} (hbytes : bytes.length = count * bytesPerUnit width.bits wordBits)
    (hunpacked : unpacked.length = count * codesPerUnit width.bits wordBits)
    (hpacked : packed.length = bytes.length) :
    ∃ codes, unpack width.bits bytes unpacked = .ok codes ∧ InRange width.bits codes ∧
      pack width.bits codes packed = .ok bytes := by
  have hcodes := inRange_codeAt width.bits (streamOfBytes bytes) unpacked.length
  have hcount : ((List.range unpacked.length).map
      (codeAt width.bits (streamOfBytes bytes))).length =
        count * codesPerUnit width.bits wordBits := by
    rw [List.length_map, List.length_range, hunpacked]
  refine ⟨_, unpack_whole width hbytes hunpacked, hcodes, ?_⟩
  rw [pack_whole width hcount (hpacked.trans hbytes)]
  refine congrArg Except.ok (streamOfBytes_inj ?_ ?_)
  · rw [length_encodeUnits, hbytes]
  · rw [streamOfBytes_pack_whole width hcodes hcount, streamOfCodes_codeAt, hunpacked,
      Nat.mul_comm width.bits, units_mul_bits, ← hbytes]
    exact Nat.mod_eq_of_lt (streamOfBytes_lt bytes)

/-- The codes of whole units and the bytes of as many are the same thing: each is found
again behind the other, whatever the buffers held before. -/
theorem packing_inverse (width : CodeWidth) :
    (∀ (codes : List Nat) (packed : List UInt8) (unpacked : List Nat), InRange width.bits codes →
      codesPerUnit width.bits wordBits ∣ codes.length →
      packed.length = packedBytes width.bits codes.length → unpacked.length = codes.length →
      packedBytes width.bits codes.length = codes.length * width.bits / 8 ∧
        ∃ bytes, pack width.bits codes packed = .ok bytes ∧
          unpack width.bits bytes unpacked = .ok codes) ∧
    (∀ (bytes packed : List UInt8) (unpacked : List Nat),
      bytesPerUnit width.bits wordBits ∣ bytes.length →
      unpacked.length = bytes.length * 8 / width.bits → packed.length = bytes.length →
      ∃ codes, unpack width.bits bytes unpacked = .ok codes ∧ InRange width.bits codes ∧
        pack width.bits codes packed = .ok bytes) := by
  constructor
  · intro codes packed unpacked hcodes hwhole hpacked hunpacked
    obtain ⟨count, hcount⟩ := exists_eq_mul_left_of_dvd hwhole
    have hsize : packedBytes width.bits codes.length =
        count * bytesPerUnit width.bits wordBits := by
      rw [packedBytes, hcount, Nat.mul_div_cancel _ (codesPerUnit_pos width)]
    refine ⟨?_, unpack_pack width hcodes hcount (hpacked.trans hsize) hunpacked⟩
    rw [hsize, hcount, units_mul_bits, Nat.mul_div_cancel_left _ (by decide)]
  · intro bytes packed unpacked hwhole hunpacked hpacked
    obtain ⟨count, hcount⟩ := exists_eq_mul_left_of_dvd hwhole
    refine pack_unpack width hcount ?_ hpacked
    rw [hunpacked, hcount, Nat.mul_comm _ 8, ← units_mul_bits,
      Nat.mul_div_cancel _ width.bits_pos]

/-- Four codes of six bits that share their bytes, and the three bytes they make, each over
buffers that held something else. -/
theorem packing_inverse_six :
    (∃ bytes, pack 6 [63, 1, 62, 33] [7, 7, 7] = .ok bytes ∧
      unpack 6 bytes [9, 9, 9, 9] = .ok [63, 1, 62, 33]) ∧
    ∃ codes, unpack 6 [0x7F, 0xE0, 0x87] [9, 9, 9, 9] = .ok codes ∧
      pack 6 codes [7, 7, 7] = .ok [0x7F, 0xE0, 0x87] := by
  obtain ⟨hcodes, hbytes⟩ := packing_inverse .six
  obtain ⟨-, hpack⟩ := hcodes [63, 1, 62, 33] [7, 7, 7] [9, 9, 9, 9]
    (by unfold InRange; decide) ⟨1, rfl⟩ rfl rfl
  obtain ⟨codes, hunpack, -, hpacked⟩ := hbytes [0x7F, 0xE0, 0x87] [7, 7, 7] [9, 9, 9, 9]
    ⟨1, rfl⟩ rfl rfl
  exact ⟨hpack, codes, hunpack, hpacked⟩

end SubByte.Packing
