/-
# Lanes — what the kernel by lanes adds up

Lane `l` adds up every eighth term of a stored row, from term `l` on, and the lanes are
added up last (`lanesElement_eq_ok`).  The terms are those of the transposed kernel: a
lane finds its code in a word of its own, but the words of a step make a stretch of the
same stream, and a lane's place in it is decidable for the two widths that have one
(`map_bit_lanePlaces`).
-/
import SubByte.Proofs.Product.Kernels

namespace SubByte

namespace Packing

/-! ## Places -/

/-- The codes of the lanes begin at the multiples of the width. -/
theorem map_bit_lanePlaces {width : CodeWidth} {places : List (Nat × Nat)}
    (h : lanePlaces width.bits = some places) :
    (places.map fun place => 32 * place.1 + place.2) =
      (List.range lanes).map fun l => l * width.bits := by
  cases width <;> cases h <;> decide

theorem shift_lanePlaces {width : CodeWidth} {places : List (Nat × Nat)}
    (h : lanePlaces width.bits = some places) :
    ∀ place ∈ places, place.2 + width.bits ≤ 32 := by
  cases width <;> cases h <;> decide

theorem decodeLanes_eq_ok {width : CodeWidth} (h : hasLaneDecode width.bits = true)
    {words : List UInt32} (hwords : lanes * width.bits ≤ 32 * words.length) :
    decodeLanes width.bits words = .ok ((List.range lanes).map fun l =>
      Binary.ofNat .single (codeAt width.bits (streamOfWords words) l)) := by
  obtain ⟨places, hplaces⟩ := Option.isSome_iff_exists.mp h
  have hcode : ∀ place ∈ places, laneCode width.bits words place =
      .ok (bitsFrom (streamOfWords words) (32 * place.1 + place.2) width.bits) := by
    intro place hplace
    have hshift := shift_lanePlaces hplaces place hplace
    have hbit := List.mem_map_of_mem (f := fun place : Nat × Nat => 32 * place.1 + place.2) hplace
    rw [map_bit_lanePlaces hplaces] at hbit
    obtain ⟨l, hl, hbit⟩ := List.mem_map.mp hbit
    have hend := row_end_le (List.mem_range.mp hl) hwords
    have hpos := width.bits_pos
    have hin : place.1 < words.length := by omega
    rw [laneCode, fetch_eq_ok hin, ok_bind, pure_eq_ok, toNat_word words hin,
      Nat.shiftRight_eq_div_pow, Nat.one_shiftLeft]
    exact congrArg Except.ok (bitsFrom_bitsFrom _ _ hshift)
  have hmap := congrArg (List.map fun pos => Binary.ofNat .single
    (bitsFrom (streamOfWords words) pos width.bits)) (map_bit_lanePlaces hplaces)
  rw [List.map_map, List.map_map] at hmap
  rw [decodeLanes, hplaces]
  simp only
  rw [mapM_eq_ok hcode, Checked.ofFault_ok, ok_bind, pure_eq_ok, List.map_map]
  exact congrArg Except.ok hmap

end Packing

variable {F : Format}

/-- Group `i` of the packed operand, in words. -/
def Matrices.wordGroupAt (operands : Matrices F) (config : Config) (i : Nat) : Group UInt32 :=
  ⟨(operands.w.drop (i * config.wordsOf config.group.size)).take
    (config.wordsOf config.group.size), operands.affineAt i⟩

/-- The sum in lane `l` after `steps` steps, the activations from `x` on and the weights
from `w` on. -/
def Matrices.laneAt (operands : Matrices F) (config : Config) (x w steps l : Nat) : Single :=
  (List.range steps).foldl (fun sum s => sum + operands.xAt (x + (s * Packing.lanes + l)) *
    operands.weightAt config (w + (s * Packing.lanes + l))) 0

namespace Kernel

variable {operands : Matrices F} {config : Config} {rows count : Nat}

/-! ## Steps -/

theorem addLanes_eq_ok (hdecode : Packing.hasLaneDecode config.width.bits = true)
    (affine : Affine) (sums : Nat → Single) (xs : Nat → Binary F) {words : List UInt32}
    (hwords : Packing.lanes * config.width.bits ≤ 32 * words.length) :
    addLanes config affine ((List.range Packing.lanes).map sums)
        ((List.range Packing.lanes).map xs) words =
      .ok ((List.range Packing.lanes).map fun l => sums l + (xs l).widen * affine.weight
        (Packing.codeAt config.width.bits (Packing.streamOfWords words) l)) := by
  have hload : Packing.loadLanes ((List.range Packing.lanes).map xs) =
      .ok ((List.range Packing.lanes).map fun l => (xs l).widen) := by
    rw [Packing.loadLanes, slice_eq_ok (by rw [List.length_map, List.length_range]; rfl), ok_bind,
      pure_eq_ok, take_drop_map_range xs (by rfl), List.map_map]
    simp only [Nat.zero_add]
    rfl
  rw [addLanes, Packing.decodeLanes_eq_ok hdecode hwords, ok_bind, hload, Checked.ofFault_ok,
    ok_bind, pure_eq_ok, List.map_map, List.zipWith_map, List.zipWith_self, List.zipWith_map,
    List.zipWith_self]
  refine congrArg Except.ok (List.map_congr_left fun l _ => ?_)
  rw [Function.comp_apply, Affine.weight, Binary.mul_comm affine.scale]

/-- A group of lane-decoded codes is whole steps, in its weights and in its words. -/
theorem steps_of_group (hdecode : Packing.hasLaneDecode config.width.bits = true) :
    config.group.size = config.group.size / Packing.lanes * Packing.lanes ∧
      config.wordsOf config.group.size =
        config.group.size / Packing.lanes * config.wordsOf Packing.lanes ∧
      Packing.lanes * config.width.bits = 32 * config.wordsOf Packing.lanes ∧
      0 < config.wordsOf Packing.lanes := by
  rcases config with ⟨width, group⟩
  cases width <;> cases group <;> revert hdecode <;> decide

theorem addLaneGroup_eq_ok (hdecode : Packing.hasLaneDecode config.width.bits = true)
    (hpacked : rows * (count * config.wordsOf config.group.size) ≤ operands.w.length)
    {i : Nat} (hi : i < rows * count) (x : Nat) (sums : Nat → Single) :
    addLaneGroup config ((List.range Packing.lanes).map sums)
        ((List.range config.group.size).map fun t => operands.x.getD (x + t) .nan)
        (operands.wordGroupAt config i) =
      .ok ((List.range Packing.lanes).map fun l =>
        (List.range (config.group.size / Packing.lanes)).foldl
          (fun sum s => sum + operands.xAt (x + (s * Packing.lanes + l)) *
            operands.weightAt config (i * config.group.size + (s * Packing.lanes + l)))
          (sums l)) := by
  obtain ⟨hsize, hwords, hstep, hpos⟩ := steps_of_group hdecode
  rw [← Nat.mul_assoc] at hpacked
  have hend := row_end_le hi hpacked
  have hlength : (operands.wordGroupAt config i).packed.length =
      config.group.size / Packing.lanes * config.wordsOf Packing.lanes := by
    rw [Matrices.wordGroupAt, List.length_take, List.length_drop, ← hwords]
    omega
  have hblocks : wholeBlocks Packing.lanes ((List.range config.group.size).map fun t =>
        operands.x.getD (x + t) .nan) =
      (List.range (config.group.size / Packing.lanes)).map fun s =>
        (List.range Packing.lanes).map fun l =>
          operands.x.getD (x + (s * Packing.lanes + l)) .nan := by
    rw [hsize, Nat.mul_div_cancel _ (by decide)]
    exact wholeBlocks_map_range (by decide) _ _
  -- Steps are the rows of a table and lanes its columns; each column is a sum of its own.
  rw [addLaneGroup, hblocks, wholeBlocks_eq_map hpos hlength, List.zip_map',
    foldlM_columns (fun s l sum => sum + operands.xAt (x + (s * Packing.lanes + l)) *
      operands.weightAt config (i * config.group.size + (s * Packing.lanes + l)))]
  intro sums s hs
  have hsteps := row_end_le hs (Nat.le_of_eq hlength.symm)
  rw [addLanes_eq_ok hdecode]
  · refine congrArg Except.ok (List.map_congr_left fun l hl => ?_)
    have hplace : s * Packing.lanes + l < config.group.size := by
      have hlane := row_end_le hs (Nat.le_of_eq hsize.symm)
      have hl := List.mem_range.mp hl
      omega
    have hbits : config.group.size * config.width.bits =
        32 * config.wordsOf config.group.size := by
      rw [hwords, Nat.mul_left_comm, ← hstep, ← Nat.mul_assoc, ← hsize]
    rw [Packing.codeAt_words hstep _ s (List.mem_range.mp hl), Matrices.wordGroupAt,
      Packing.codeAt_words hbits _ i hplace]
    have hgroup := Matrices.weight_groupAt operands config i hplace
    exact congrArg (fun weight => sums l + operands.xAt _ * weight) hgroup
  · rw [List.length_take, List.length_drop, Nat.min_eq_left (by omega), hstep]

/-! ## Elements -/

/-- An element of the output: the lanes along a whole stored row, added up. -/
theorem lanesElement_eq_ok (hdecode : Packing.hasLaneDecode config.width.bits = true)
    (hstored : operands.Stores config rows count) {j : Nat} (hj : j < rows) (x : Nat) :
    lanesElement config (count * config.group.size) operands.w operands.scales operands.biases
        ((List.range (count * config.group.size)).map fun t => operands.x.getD (x + t) .nan) j =
      .ok ((sumLanes ((List.range Packing.lanes).map
        (operands.laneAt config x (j * (count * config.group.size))
          (count * (config.group.size / Packing.lanes))))).narrow F) := by
  obtain ⟨hsize, hwords, -, hpos⟩ := steps_of_group hdecode
  have hgroupWords : 0 < config.wordsOf config.group.size := by
    rw [hwords]
    exact Nat.mul_pos (Nat.pos_of_ne_zero fun h => by
      rw [h, Nat.zero_mul] at hsize
      exact absurd hsize (Nat.ne_of_gt config.group.size_pos)) hpos
  have hpacked : rows * (count * config.wordsOf config.group.size) ≤ operands.w.length := by
    have hbytes := hstored.packed
    rw [← config.four_mul_wordsOf, config.wordsOf_mul (Nat.mod_self _), Nat.mul_left_comm] at hbytes
    exact Nat.le_of_mul_le_mul_left hbytes (by decide)
  have hrow := Group.readRow_eq_ok operands hgroupWords hj hpacked hstored.scales hstored.biases
  have hzero : List.replicate Packing.lanes (0 : Single) =
      (List.range Packing.lanes).map fun _ => 0 := by
    rw [List.map_const', List.length_range]
  rw [lanesElement, config.wordsOf_mul (Nat.mod_self _), Nat.mul_div_cancel _ config.group.size_pos, hrow,
    Checked.ofFault_ok, ok_bind, wholeBlocks_map_range config.group.size_pos, List.zip_map', hzero,
    foldlM_columns (fun q l sum =>
      (List.range (config.group.size / Packing.lanes)).foldl (fun sum s => sum +
        operands.xAt (x + ((q * (config.group.size / Packing.lanes) + s) * Packing.lanes + l)) *
          operands.weightAt config (j * (count * config.group.size) +
            ((q * (config.group.size / Packing.lanes) + s) * Packing.lanes + l))) sum), ok_bind,
    pure_eq_ok]
  · refine congrArg (fun sums => Except.ok ((sumLanes sums).narrow F))
      (List.map_congr_left fun l _ => ?_)
    exact foldl_range_mul (fun sum s => sum + operands.xAt (x + (s * Packing.lanes + l)) *
      operands.weightAt config (j * (count * config.group.size) + (s * Packing.lanes + l)))
      count (config.group.size / Packing.lanes) 0
  · -- Step `s` of group `q` is step `q * steps + s` of the row.
    intro sums q hq
    have hflat := row_end_le hj (Nat.le_refl (rows * count))
    have hgroup := addLaneGroup_eq_ok hdecode hpacked (i := j * count + q) (by omega)
      (x + q * config.group.size) sums
    have hplace : ∀ s l, q * config.group.size + (s * Packing.lanes + l) =
        (q * (config.group.size / Packing.lanes) + s) * Packing.lanes + l := by
      intro s l
      rw [Nat.add_mul, Nat.mul_assoc, ← hsize, Nat.add_assoc]
    simp only [Nat.add_mul (j * count), Nat.mul_assoc j, Nat.add_assoc, hplace] at hgroup
    exact hgroup

end Kernel

end SubByte
