/-
# Units — the decoder reads the stream

The decoder knows the place of every code of a unit by heart.  What makes a table of
places right is decidable: the fields of a code adjoin (`Adjoin`), the codes of a unit
begin at the multiples of their width, and each has as many bits as the width says.  The
tables of the six widths pass, and nothing else about them is used: a decoded unit is the
codes of its stream (`decodeUnit_eq_ok`), and so are as many units as both sides have
room for (`unpack_eq_ok`).
-/
import SubByte.Config
import SubByte.Packing.Decode
import SubByte.Proofs.Packing.Stream

namespace SubByte.Packing

/-! ## Places -/

/-- Each field begins at the bit where the one before it ends, the first at bit `pos`,
and stays within its byte. -/
def Adjoin : Nat → List BitField → Prop
  | _, [] => True
  | pos, field :: higher =>
      8 * field.byte + field.low = pos ∧ 0 < field.count ∧ field.low + field.count ≤ 8 ∧
        Adjoin (pos + field.count) higher

instance decAdjoin : (pos : Nat) → (fields : List BitField) → Decidable (Adjoin pos fields)
  | _, [] => .isTrue trivial
  | pos, field :: higher =>
      have := decAdjoin (pos + field.count) higher
      inferInstanceAs (Decidable (_ ∧ _ ∧ _ ∧ _))

/-- The bits of all fields together. -/
def fieldBits : List BitField → Nat
  | [] => 0
  | field :: higher => field.count + fieldBits higher

/-- The bit at which the first field begins. -/
def startBit : List BitField → Nat
  | [] => 0
  | field :: _ => 8 * field.byte + field.low

theorem readFields_eq_ok (bytes : List UInt8) :
    ∀ {fields : List BitField} {pos : Nat}, Adjoin pos fields →
      pos + fieldBits fields ≤ 8 * bytes.length →
      readFields bytes fields = .ok (bitsFrom (streamOfBytes bytes) pos (fieldBits fields))
  | [], pos, _, _ => by rw [readFields, fieldBits, bitsFrom, Nat.pow_zero, Nat.mod_one]
  | field :: higher, pos, ⟨hpos, hcount, hbyte, hhigher⟩, hlen => by
      simp only [fieldBits] at hlen ⊢
      have hin : field.byte < bytes.length := by omega
      have hvalue : field.value bytes[field.byte] =
          bitsFrom (streamOfBytes bytes) pos field.count := by
        rw [BitField.value, toNat_byte bytes hin, Nat.shiftRight_eq_div_pow, Nat.one_shiftLeft]
        exact (bitsFrom_bitsFrom _ _ hbyte).trans (by rw [hpos])
      rw [readFields, fetch_eq_ok hin, ok_bind, readFields_eq_ok bytes hhigher (by omega), ok_bind,
        pure_eq_ok, hvalue, Nat.shiftLeft_eq, bitsFrom_add]

/-! ## The tables -/

theorem map_startBit_codeFields (width : CodeWidth) :
    (codeFields width.bits).map startBit =
      (List.range (codesPerUnit width.bits byteBits)).map fun k => k * width.bits := by
  cases width <;> decide

/-- Every code of a unit has the bits of its width, one field beside the other. -/
theorem adjoin_codeFields (width : CodeWidth) :
    ∀ fields ∈ codeFields width.bits,
      Adjoin (startBit fields) fields ∧ fieldBits fields = width.bits := by
  cases width <;> decide

theorem codesPerUnit_mul_bits (width : CodeWidth) :
    codesPerUnit width.bits byteBits * width.bits = 8 * bytesPerUnit width.bits byteBits := by
  cases width <;> rfl

theorem bytesPerUnit_pos (width : CodeWidth) : 0 < bytesPerUnit width.bits byteBits := by
  cases width <;> decide

/-! ## Units -/

/-- A unit is decoded to the codes of its stream. -/
theorem decodeUnit_eq_ok (width : CodeWidth) {bytes : List UInt8}
    (h : bytesPerUnit width.bits byteBits ≤ bytes.length) :
    decodeUnit width.bits bytes =
      .ok ((List.range (codesPerUnit width.bits byteBits)).map
        (codeAt width.bits (streamOfBytes bytes))) := by
  have hread : ∀ fields ∈ codeFields width.bits, readFields bytes fields =
      .ok (bitsFrom (streamOfBytes bytes) (startBit fields) width.bits) := by
    intro fields hfields
    obtain ⟨hadjoin, hbits⟩ := adjoin_codeFields width fields hfields
    have hstart := List.mem_map_of_mem (f := startBit) hfields
    rw [map_startBit_codeFields] at hstart
    obtain ⟨k, hk, hstart⟩ := List.mem_map.mp hstart
    have hnext := row_end_le (List.mem_range.mp hk) (Nat.le_of_eq (codesPerUnit_mul_bits width))
    have hread := readFields_eq_ok bytes hadjoin (by omega)
    rwa [hbits] at hread
  rw [decodeUnit, mapM_eq_ok hread]
  have hmap := congrArg
    (List.map fun pos => bitsFrom (streamOfBytes bytes) pos width.bits)
    (map_startBit_codeFields width)
  rw [List.map_map, List.map_map] at hmap
  exact congrArg Except.ok hmap

/-- Decoding reads the stream: as many whole units as both sides have, the codes from the
first on, and nothing behind them is touched. -/
theorem unpack_eq_ok (width : CodeWidth) (bytes : List UInt8) (out : List Nat) :
    let codes := codesPerUnit width.bits byteBits
    let count := min (out.length / codes) (bytes.length / bytesPerUnit width.bits byteBits)
    unpack width.bits bytes out =
      .ok (overlay ((List.range (count * codes)).map
        (codeAt width.bits (streamOfBytes bytes))) out) := by
  intro codes count
  have hunits : decodeUnits width.bits
      (blocks (bytesPerUnit width.bits byteBits) count bytes) =
        .ok ((List.range (count * codes)).map (codeAt width.bits (streamOfBytes bytes))) := by
    have hunit : ∀ unit ∈ blocks (bytesPerUnit width.bits byteBits) count bytes,
        decodeUnit width.bits unit =
          .ok ((List.range codes).map (codeAt width.bits (streamOfBytes unit))) := by
      intro unit hmem
      have hcount : count * bytesPerUnit width.bits byteBits ≤ bytes.length :=
        (Nat.le_div_iff_mul_le (bytesPerUnit_pos width)).mp (Nat.min_le_right _ _)
      exact decodeUnit_eq_ok width (Nat.le_of_eq (length_of_mem_blocks hcount hmem).symm)
    rw [decodeUnits, mapM_eq_ok hunit, ok_bind, pure_eq_ok, blocks_eq_map, List.map_map,
      ← flatMap_range_mul, List.flatMap_def]
    refine congrArg (fun units => Except.ok (List.flatten units)) ?_
    refine List.map_congr_left fun i _ => List.map_congr_left fun k hk => ?_
    exact codeAt_bytes (codesPerUnit_mul_bits width) bytes i (List.mem_range.mp hk)
  rw [unpack, hunits, ok_bind]
  rfl

end SubByte.Packing
