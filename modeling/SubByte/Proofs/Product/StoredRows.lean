/-
# Stored rows — the weights of an operand by flat position

A packed operand is a run of groups, row after row, and no row begins inside a group.  So
the weights have one numbering: weight `i` has code `i` of the stream and the parameters
of group `i / size`, whatever the row (`Matrices.weightAt`).  The kernels reach it by
row, group and place in the group; `readRow_eq_ok` and `codes_groupAt` say that they
reach the same weight.

`Matrices.Stores` is what the kernels need of an operand's lengths, and no more: nothing
is said of what lies behind the last row.
-/
import SubByte.Product.Row
import SubByte.Proofs.Packing.Units

namespace SubByte

/-! ## Sizes of whole groups -/

namespace Config

theorem size_mul_bits (config : Config) :
    config.group.size * config.width.bits = 8 * config.groupBytes := by
  rcases config with ⟨width, group⟩
  cases width <;> cases group <;> rfl

theorem groupBytes_pos (config : Config) : 0 < config.groupBytes := by
  rcases config with ⟨width, group⟩
  cases width <;> cases group <;> decide

theorem packedBytes_mul (config : Config) (count : Nat) :
    Packing.packedBytes config.width.bits (count * config.group.size) =
      count * config.groupBytes := by
  have hunit : Packing.codesPerUnit config.width.bits Packing.wordBits ∣ config.group.size := by
    rcases config with ⟨width, group⟩
    cases width <;> cases group <;> decide
  rw [groupBytes, Packing.packedBytes, Packing.packedBytes, Nat.mul_div_assoc count hunit,
    Nat.mul_assoc]

theorem four_mul_wordsOf (config : Config) (count : Nat) :
    4 * config.wordsOf (count * config.group.size) = count * config.groupBytes := by
  have hwords : 4 ∣ config.groupBytes := by
    rcases config with ⟨width, group⟩
    cases width <;> cases group <;> decide
  rw [wordsOf, Packing.packedWords, packedBytes_mul]
  exact Nat.mul_div_cancel' (Dvd.dvd.mul_left hwords count)

theorem wordsOf_whole (config : Config) {count : Nat} (h : count % config.group.size = 0) :
    4 * config.wordsOf count = count / config.group.size * config.groupBytes ∧
      count * config.width.bits = 32 * config.wordsOf count := by
  have hcount := Nat.div_mul_cancel (Nat.dvd_of_mod_eq_zero h)
  have hwords := config.four_mul_wordsOf (count / config.group.size)
  rw [hcount] at hwords
  refine ⟨hwords, ?_⟩
  calc count * config.width.bits
      = count / config.group.size * config.group.size * config.width.bits := by rw [hcount]
    _ = count / config.group.size * (8 * config.groupBytes) := by
        rw [Nat.mul_assoc, config.size_mul_bits]
    _ = 8 * (4 * config.wordsOf count) := by rw [hwords, Nat.mul_left_comm]
    _ = 32 * config.wordsOf count := by omega

theorem wordsOf_mul (config : Config) {count : Nat} (h : count % config.group.size = 0)
    (rows : Nat) : config.wordsOf (rows * count) = rows * config.wordsOf count := by
  have hrows : rows * count % config.group.size = 0 :=
    Nat.mod_eq_zero_of_dvd (Dvd.dvd.mul_left (Nat.dvd_of_mod_eq_zero h) rows)
  have hone := (config.wordsOf_whole h).2
  have hall := (config.wordsOf_whole hrows).2
  rw [Nat.mul_assoc, hone, Nat.mul_left_comm] at hall
  exact (Nat.eq_of_mul_eq_mul_left (by decide) hall).symm

theorem wordsOf_le (config : Config) {count : Nat} (h : count % config.group.size = 0) :
    config.wordsOf count ≤ count := by
  have hbits : config.width.bits ≤ 8 := by cases config.width <;> decide
  have hwords := (config.wordsOf_whole h).2
  have hwide := Nat.mul_le_mul_left count hbits
  omega

end Config

namespace Matrices

variable {F : Format}

/-- An element of the activations, as a single. -/
def xAt (operands : Matrices F) (i : Nat) : Single :=
  (operands.x.getD i .nan).widen

/-- The parameters of group `i`. -/
def affineAt (operands : Matrices F) (i : Nat) : Affine :=
  ⟨(operands.scales.getD i .nan).widen, (operands.biases.getD i .nan).widen⟩

/-- Group `i` of the packed operand. -/
def groupAt (operands : Matrices F) (config : Config) (i : Nat) : Group UInt8 :=
  ⟨((Packing.bytesOfWords operands.w).drop (i * config.groupBytes)).take config.groupBytes,
    operands.affineAt i⟩

/-- Weight `i` of the packed operand. -/
def weightAt (operands : Matrices F) (config : Config) (i : Nat) : Single :=
  (operands.affineAt (i / config.group.size)).weight
    (Packing.codeAt config.width.bits (Packing.streamOfWords operands.w) i)

/-- The operand holds `rows` stored rows of `count` groups each, if not more. -/
structure Stores (operands : Matrices F) (config : Config) (rows count : Nat) : Prop where
  packed : rows * (count * config.groupBytes) ≤ 4 * operands.w.length
  scales : rows * count ≤ operands.scales.length
  biases : rows * count ≤ operands.biases.length

end Matrices

/-! ## Rows by position -/

namespace Group

variable {F : Format} {α : Type}

/-- A stored row is cut into its groups, each with its own parameters. -/
theorem readRow_eq_ok {size count rows i : Nat} {packed : List α} (operands : Matrices F)
    (hsize : 0 < size) (hi : i < rows) (hpacked : rows * (count * size) ≤ packed.length)
    (hscales : rows * count ≤ operands.scales.length)
    (hbiases : rows * count ≤ operands.biases.length) :
    readRow size (count * size) count packed operands.scales operands.biases i =
      .ok ((List.range count).map fun q =>
        ⟨(packed.drop ((i * count + q) * size)).take size, operands.affineAt (i * count + q)⟩) := by
  have hrow := row_end_le hi hpacked
  have hrowScales := row_end_le hi hscales
  have hrowBiases := row_end_le hi hbiases
  rw [readRow, slice_eq_ok hrow, ok_bind, slice_eq_ok hrowScales, ok_bind,
    slice_eq_ok hrowBiases, ok_bind, pure_eq_ok, ofRow,
    wholeBlocks_eq_map hsize (length_take_drop hrow),
    take_drop_eq_map .nan hrowScales, take_drop_eq_map .nan hrowBiases, List.zip_map',
    List.zipWith_map, List.zipWith_self]
  refine congrArg Except.ok (List.map_congr_left fun q hq => ?_)
  have hq := row_end_le (List.mem_range.mp hq) (Nat.le_refl (count * size))
  have hpiece : ((packed.drop (i * (count * size))).take (count * size)).drop (q * size) =
      (packed.drop ((i * count + q) * size)).take (count * size - q * size) := by
    rw [List.drop_take, List.drop_drop, Nat.add_mul, Nat.mul_assoc]
  rw [hpiece, List.take_take, Nat.min_eq_left (by omega)]
  rfl

theorem codes_eq_ok (config : Config) {group : Group UInt8}
    (h : group.packed.length = config.groupBytes) :
    group.codes config = .ok ((List.range config.group.size).map
      (Packing.codeAt config.width.bits (Packing.streamOfBytes group.packed))) := by
  have hcount : min (config.group.size / Packing.codesPerUnit config.width.bits Packing.byteBits)
        (config.groupBytes / Packing.bytesPerUnit config.width.bits Packing.byteBits) *
      Packing.codesPerUnit config.width.bits Packing.byteBits = config.group.size := by
    rcases config with ⟨width, group⟩
    cases width <;> cases group <;> rfl
  have hunpack := Packing.unpack_eq_ok config.width group.packed
    (List.replicate config.group.size 0)
  simp only [List.length_replicate, h, hcount] at hunpack
  rw [codes, hunpack]
  refine congrArg Except.ok (overlay_eq_front ?_)
  rw [List.length_replicate, List.length_map, List.length_range]

end Group

namespace Matrices

variable {F : Format}

theorem readRow_groupAt {operands : Matrices F} {config : Config} {rows count i : Nat}
    (hstored : operands.Stores config rows count) (hi : i < rows) :
    Group.readRow config.groupBytes (count * config.groupBytes) count
        (Packing.bytesOfWords operands.w) operands.scales operands.biases i =
      .ok ((List.range count).map fun q => operands.groupAt config (i * count + q)) := by
  refine Group.readRow_eq_ok operands config.groupBytes_pos hi ?_ hstored.scales hstored.biases
  rw [Packing.length_bytesOfWords]
  exact hstored.packed

/-- The codes of group `i` are the codes of the whole stream from where the group begins. -/
theorem codes_groupAt {operands : Matrices F} {config : Config} {rows count i : Nat}
    (hstored : operands.Stores config rows count) (hi : i < rows * count) :
    (operands.groupAt config i).codes config = .ok ((List.range config.group.size).map fun t =>
      Packing.codeAt config.width.bits (Packing.streamOfWords operands.w)
        (i * config.group.size + t)) := by
  have hpacked := hstored.packed
  rw [← Nat.mul_assoc] at hpacked
  have hend := row_end_le hi hpacked
  have hlength : (operands.groupAt config i).packed.length = config.groupBytes := by
    rw [groupAt, List.length_take, List.length_drop, Packing.length_bytesOfWords]
    omega
  rw [Group.codes_eq_ok config hlength]
  refine congrArg Except.ok (List.map_congr_left fun t ht => ?_)
  rw [groupAt, Packing.codeAt_bytes config.size_mul_bits _ i (List.mem_range.mp ht),
    Packing.streamOfBytes_bytesOfWords]

theorem Stores.readCode_eq_ok {operands : Matrices F} {config : Config} {rows count i : Nat}
    (h : operands.Stores config rows count) (hi : i < rows * count * config.group.size) :
    Packing.readCode operands.w config.width.bits i =
      .ok (Packing.codeAt config.width.bits (Packing.streamOfWords operands.w) i) := by
  refine Packing.readCode_eq_ok ?_
  have hbits := Nat.mul_le_mul_right config.width.bits (Nat.succ_le_of_lt hi)
  have hpacked := h.packed
  rw [Nat.mul_assoc, config.size_mul_bits, Nat.mul_left_comm, Nat.succ_eq_add_one] at hbits
  rw [← Nat.mul_assoc] at hpacked
  omega

theorem weight_groupAt (operands : Matrices F) (config : Config) (i : Nat) {t : Nat}
    (ht : t < config.group.size) :
    (operands.groupAt config i).affine.weight
        (Packing.codeAt config.width.bits (Packing.streamOfWords operands.w)
          (i * config.group.size + t)) =
      operands.weightAt config (i * config.group.size + t) := by
  rw [weightAt, run_div ht]
  rfl

end Matrices

end SubByte
