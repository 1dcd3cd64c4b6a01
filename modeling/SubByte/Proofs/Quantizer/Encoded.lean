/-
# Encoded — what quantizing a list of weights stores

Every group is encoded on its own: its codes are digits of the number that its stretch of
bytes makes, its scale and its bias are its own parameters, narrowed.  No other group has
a part in them (`Config.Encodes`), so weights with a group in common store it alike.

The encoder relies on codes within their width, and the quantizer keeps to that for every
input (`code_le`): a quotient past either end is held at it, and one that is no number,
from infinities or from no numbers among the weights, has the code zero.  With lengths
that fit nothing else can fail (`quantizeInto_eq_ok`, `quantize_eq_ok`).
-/
import SubByte.Proofs.Binary.Order
import SubByte.Proofs.Packing.Codes
import SubByte.Proofs.Product.StoredRows
import SubByte.Proofs.Quantizer.Checks

namespace SubByte

variable {F : Format}

/-! ## Codes -/

theorem Config.toWord_bins (config : Config) :
    config.bins ≠ .nan ∧ config.bins.toWord = config.width.maxCode := by
  rcases config with ⟨width, group⟩
  cases width <;> cases group <;> decide

/-- No value has a code past the largest one. -/
theorem Affine.code_le (affine : Affine) (config : Config) (v : Single) :
    affine.code config.bins v ≤ config.width.maxCode := by
  obtain ⟨hnumber, hword⟩ := config.toWord_bins
  rw [← hword]
  exact Binary.toWord_clamp_le _ _ hnumber

namespace Config

theorem maxCode_eq (width : CodeWidth) : width.maxCode = 2 ^ width.bits - 1 := by
  rw [CodeWidth.maxCode, Nat.one_shiftLeft]

theorem maxCode_lt (width : CodeWidth) : width.maxCode < 2 ^ width.bits := by
  rw [maxCode_eq]
  exact Nat.sub_one_lt_of_lt (Nat.two_pow_pos _)

theorem inRange_codesOf (config : Config) (group : List (Binary F)) :
    Packing.InRange config.width.bits (config.codesOf group) := by
  intro code hcode
  obtain ⟨v, -, rfl⟩ := List.mem_map.mp hcode
  exact Nat.lt_of_le_of_lt (Affine.code_le _ config _) (maxCode_lt config.width)

/-! ## Groups -/

/-- The units that a group fills. -/
def groupUnits (config : Config) : Nat :=
  config.group.size / Packing.codesPerUnit config.width.bits Packing.wordBits

theorem groupUnits_mul (config : Config) :
    config.group.size =
        config.groupUnits * Packing.codesPerUnit config.width.bits Packing.wordBits ∧
      config.groupBytes =
        config.groupUnits * Packing.bytesPerUnit config.width.bits Packing.wordBits := by
  rcases config with ⟨width, group⟩
  cases width <;> cases group <;> decide

/-- The bytes of a group. -/
def encodeGroup (config : Config) (group : List (Binary F)) : List UInt8 :=
  Packing.encodeUnits config.width.bits config.groupUnits (config.codesOf group)

theorem length_encodeGroup (config : Config) (group : List (Binary F)) :
    (config.encodeGroup group).length = config.groupBytes := by
  rw [encodeGroup, Packing.length_encodeUnits, ← config.groupUnits_mul.2]

theorem pack_codesOf (config : Config) {group : List (Binary F)} {room : List UInt8}
    (hgroup : group.length = config.group.size) (hroom : room.length = config.groupBytes) :
    Packing.pack config.width.bits (config.codesOf group) room =
      .ok (config.encodeGroup group) := by
  obtain ⟨hsize, hbytes⟩ := config.groupUnits_mul
  refine Packing.pack_whole config.width ?_ (hroom.trans hbytes)
  rw [codesOf, List.length_map, hgroup]
  exact hsize

theorem codeAt_encodeGroup (config : Config) {group : List (Binary F)}
    (hgroup : group.length = config.group.size) {t : Nat} (ht : t < group.length) :
    Packing.codeAt config.width.bits (Packing.streamOfBytes (config.encodeGroup group)) t =
      (config.affineOf group).code config.bins group[t].widen := by
  have hlength : (config.codesOf group).length = group.length := List.length_map _
  have hcount := hlength.trans (hgroup.trans config.groupUnits_mul.1)
  have hcodes := config.inRange_codesOf group
  rw [encodeGroup, Packing.streamOfBytes_pack_whole config.width hcodes hcount,
    Packing.codeAt_streamOfCodes hcodes (hlength ▸ ht)]
  simp only [codesOf, List.getElem_map]

/-- Group `g` of a list of weights. -/
def groupOf (config : Config) (weights : List (Binary F)) (g : Nat) : List (Binary F) :=
  (weights.drop (g * config.group.size)).take config.group.size

/-- What the weights are stored as: group after group, each part on its own. -/
def encoded (config : Config) (weights : List (Binary F)) : Encoded F :=
  let groups := (List.range (weights.length / config.group.size)).map (config.groupOf weights)
  { packed := (groups.map config.encodeGroup).flatten
    scales := groups.map fun group => (config.affineOf group).scale.narrow F
    biases := groups.map fun group => (config.affineOf group).bias.narrow F }

variable {config : Config} {weights : List (Binary F)}

theorem length_groupOf {g : Nat} (hg : g < weights.length / config.group.size) :
    (config.groupOf weights g).length = config.group.size := by
  refine length_take_drop (row_end_le hg ?_)
  exact Nat.div_mul_le_self weights.length config.group.size

theorem wholeBlocks_eq_groupOf (config : Config) (weights : List (Binary F)) :
    wholeBlocks config.group.size weights =
      (List.range (weights.length / config.group.size)).map (config.groupOf weights) := by
  rw [wholeBlocks, blocks_eq_map]
  rfl

theorem length_encoded_packed (config : Config) (weights : List (Binary F)) :
    (config.encoded weights).packed.length =
      weights.length / config.group.size * config.groupBytes := by
  have hlengths : ∀ groups : List (List (Binary F)),
      (groups.map config.encodeGroup).flatten.length = groups.length * config.groupBytes := by
    intro groups
    induction groups with
    | nil => simp
    | cons group groups ih =>
        rw [List.map_cons, List.flatten_cons, List.length_append, ih, length_encodeGroup,
          List.length_cons, Nat.succ_mul, Nat.add_comm]
  rw [encoded, hlengths, List.length_map, List.length_range]

theorem length_encoded_parameters (config : Config) (weights : List (Binary F)) :
    (config.encoded weights).scales.length = weights.length / config.group.size ∧
      (config.encoded weights).biases.length = weights.length / config.group.size := by
  simp only [encoded, List.length_map, List.length_range, and_self]

theorem encodeGroups_eq_ok (config : Config) (weights : List (Binary F)) {rooms : List (List UInt8)}
    (hcount : weights.length / config.group.size ≤ rooms.length)
    (hrooms : ∀ room ∈ rooms, room.length = config.groupBytes) :
    config.encodeGroups (wholeBlocks config.group.size weights) rooms =
      .ok (config.encoded weights) := by
  have hblocks := config.wholeBlocks_eq_groupOf weights
  have hslot : ∀ slot ∈ (wholeBlocks config.group.size weights).zip rooms,
      Packing.pack config.width.bits (config.codesOf slot.1) slot.2 =
        .ok (config.encodeGroup slot.1) := by
    intro slot hslot
    obtain ⟨hgroup, hroom⟩ := List.of_mem_zip hslot
    rw [hblocks] at hgroup
    obtain ⟨g, hg, hgroup⟩ := List.mem_map.mp hgroup
    refine config.pack_codesOf ?_ (hrooms _ hroom)
    rw [← hgroup]
    exact length_groupOf (List.mem_range.mp hg)
  have hfirst : ((wholeBlocks config.group.size weights).zip rooms).map Prod.fst =
      wholeBlocks config.group.size weights := by
    refine List.map_fst_zip ?_
    rwa [hblocks, List.length_map, List.length_range]
  rw [encodeGroups, mapM_eq_ok hslot, ok_bind, pure_eq_ok, encoded]
  have hpacked : (((wholeBlocks config.group.size weights).zip rooms).map fun slot =>
      config.encodeGroup slot.1) = (wholeBlocks config.group.size weights).map config.encodeGroup := by
    rw [← congrArg (List.map config.encodeGroup) hfirst, List.map_map]
    rfl
  rw [hpacked, hblocks]

/-! ## Buffers -/

/-- Whole groups are written over the front of buffers that have room for them. -/
theorem quantizeInto_eq_ok {into : Encoded F} (hgroups : weights.length % config.group.size = 0)
    (hpacked : (config.encoded weights).packed.length ≤ into.packed.length)
    (hscales : weights.length / config.group.size ≤ into.scales.length)
    (hbiases : weights.length / config.group.size ≤ into.biases.length) :
    config.quantizeInto weights into = .ok
      { packed := overlay (config.encoded weights).packed into.packed
        scales := overlay (config.encoded weights).scales into.scales
        biases := overlay (config.encoded weights).biases into.biases } := by
  have hrooms : ∀ room ∈ wholeBlocks config.groupBytes into.packed,
      room.length = config.groupBytes :=
    fun room hroom => length_of_mem_blocks (Nat.div_mul_le_self _ _) hroom
  have hcount : weights.length / config.group.size ≤
      (wholeBlocks config.groupBytes into.packed).length := by
    rw [wholeBlocks, length_blocks]
    rw [length_encoded_packed] at hpacked
    exact (Nat.le_div_iff_mul_le config.groupBytes_pos).mpr hpacked
  have hroom : config.HasRoom weights.length into := by
    rw [length_encoded_packed, ← bytes_of_groups] at hpacked
    exact ⟨hgroups, hpacked, hscales, hbiases⟩
  simp only [quantizeInto]
  rw [requireEncoding_eq_ok_iff.mpr hroom, ok_bind,
    encodeGroups_eq_ok config weights hcount hrooms, Checked.ofFault_ok, ok_bind, pure_eq_ok]

/-- Buffers of its own have room for everything, and nothing else. -/
theorem quantize_eq_ok (hgroups : weights.length % config.group.size = 0) :
    config.quantize weights = .ok
      { packed := Packing.wordsOfBytes (config.encoded weights).packed
        scales := (config.encoded weights).scales
        biases := (config.encoded weights).biases } := by
  have hpacked : (Packing.bytesOfWords (List.replicate (config.wordsOf weights.length) 0)).length =
      (config.encoded weights).packed.length := by
    rw [Packing.length_bytesOfWords, List.length_replicate, length_encoded_packed]
    exact (config.wordsOf_whole hgroups).1
  obtain ⟨hscales, hbiases⟩ := config.length_encoded_parameters weights
  simp only [quantize]
  rw [requireWholeGroups_eq_ok _ hgroups, Checked.ofShape_ok, ok_bind,
    quantizeInto_eq_ok hgroups (Nat.le_of_eq hpacked.symm) (by rw [List.length_replicate])
      (by rw [List.length_replicate]),
    ok_bind, pure_eq_ok]
  simp only [overlay_eq_front (Nat.le_of_eq hpacked),
    overlay_eq_front (Nat.le_of_eq ((List.length_replicate).trans hscales.symm)),
    overlay_eq_front (Nat.le_of_eq ((List.length_replicate).trans hbiases.symm))]

/-! ## What is stored -/

/-- The parameters that group `g` of the weights has of its own. -/
def groupAffine (config : Config) (weights : List (Binary F)) (g : Nat) : Affine :=
  config.affineOf (config.groupOf weights g)

/-- What is stored are the weights, group by group. -/
structure Encodes (config : Config) (weights : List (Binary F)) (stored : Quantized F) : Prop where
  words : stored.packed.length = weights.length * config.width.bits / 32
  scalesLength : stored.scales.length = weights.length / config.group.size
  biasesLength : stored.biases.length = weights.length / config.group.size
  scale : ∀ g < weights.length / config.group.size,
    stored.scales[g]? = some ((config.groupAffine weights g).scale.narrow F)
  bias : ∀ g < weights.length / config.group.size,
    stored.biases[g]? = some ((config.groupAffine weights g).bias.narrow F)
  code : ∀ i v, weights[i]? = some v →
    Packing.readCode stored.packed config.width.bits i =
      .ok ((config.groupAffine weights (i / config.group.size)).code config.bins v.widen)

theorem take_drop_encoded {g : Nat} (hg : g < weights.length / config.group.size) :
    ((config.encoded weights).packed.drop (g * config.groupBytes)).take config.groupBytes =
      config.encodeGroup (config.groupOf weights g) := by
  rw [encoded]
  refine take_drop_flatten ?_ ?_
  · intro piece hpiece
    obtain ⟨group, -, rfl⟩ := List.mem_map.mp hpiece
    exact config.length_encodeGroup group
  · rw [List.getElem?_map, List.getElem?_map, List.getElem?_range hg]
    rfl

theorem codeAt_encoded (hgroups : weights.length % config.group.size = 0) {i : Nat} {v : Binary F}
    (hv : weights[i]? = some v) :
    Packing.codeAt config.width.bits (Packing.streamOfBytes (config.encoded weights).packed) i =
      (config.groupAffine weights (i / config.group.size)).code config.bins v.widen := by
  obtain ⟨hi, rfl⟩ := List.getElem?_eq_some_iff.mp hv
  have hcount := Nat.div_mul_cancel (Nat.dvd_of_mod_eq_zero hgroups)
  have hg : i / config.group.size < weights.length / config.group.size := by
    rw [Nat.div_lt_iff_lt_mul config.group.size_pos, hcount]
    exact hi
  have ht := Nat.mod_lt i config.group.size_pos
  have hplace : i / config.group.size * config.group.size + i % config.group.size = i :=
    Nat.div_add_mod' i _
  have hgroup := length_groupOf hg
  have hcode := Packing.codeAt_bytes config.size_mul_bits (config.encoded weights).packed
    (i / config.group.size) ht
  rw [hplace] at hcode
  rw [← hcode, take_drop_encoded hg, config.codeAt_encodeGroup hgroup (by rw [hgroup]; exact ht)]
  simp only [groupOf, List.getElem_take, List.getElem_drop, hplace, groupAffine]

theorem encodes_encoded (hgroups : weights.length % config.group.size = 0) :
    config.Encodes weights
      { packed := Packing.wordsOfBytes (config.encoded weights).packed
        scales := (config.encoded weights).scales
        biases := (config.encoded weights).biases } := by
  obtain ⟨hbytes, hbits⟩ := config.wordsOf_whole hgroups
  rw [← length_encoded_packed] at hbytes
  obtain ⟨hwords, hstream⟩ := Packing.wordsOfBytes_whole hbytes.symm
  obtain ⟨hscales, hbiases⟩ := config.length_encoded_parameters weights
  refine ⟨?_, hscales, hbiases, ?_, ?_, ?_⟩
  · rw [hwords, hbits, Nat.mul_div_cancel_left _ (by decide)]
  · intro g hg
    simp only [encoded, List.getElem?_map, List.getElem?_range hg, Option.map_some]
    rfl
  · intro g hg
    simp only [encoded, List.getElem?_map, List.getElem?_range hg, Option.map_some]
    rfl
  · intro i v hv
    obtain ⟨hi, -⟩ := List.getElem?_eq_some_iff.mp hv
    rw [Packing.readCode_eq_ok, hstream, codeAt_encoded hgroups hv]
    rw [hwords, ← hbits]
    exact Nat.mul_le_mul_right _ hi

theorem lt_of_groupOf_eq {others : List (Binary F)} {g : Nat}
    (hg : g < weights.length / config.group.size)
    (h : config.groupOf others g = config.groupOf weights g) :
    g < others.length / config.group.size := by
  have hlength := length_groupOf hg
  rw [← h, groupOf, List.length_take, List.length_drop] at hlength
  have hsize := config.group.size_pos
  rw [Nat.lt_iff_add_one_le, Nat.le_div_iff_mul_le hsize, Nat.succ_mul]
  omega

/-- A group is stored alike wherever it stands between the same number of groups before it:
the other groups have no part in it. -/
theorem Encodes.group_eq {others : List (Binary F)} {stored other : Quantized F} {g : Nat}
    (h : config.Encodes weights stored) (hother : config.Encodes others other)
    (hg : g < weights.length / config.group.size)
    (hgroup : config.groupOf others g = config.groupOf weights g) :
    other.scales[g]? = stored.scales[g]? ∧ other.biases[g]? = stored.biases[g]? ∧
      ∀ t < config.group.size,
        Packing.readCode other.packed config.width.bits (g * config.group.size + t) =
          Packing.readCode stored.packed config.width.bits (g * config.group.size + t) := by
  have hg' := lt_of_groupOf_eq hg hgroup
  have haffine : config.groupAffine others g = config.groupAffine weights g := by
    rw [groupAffine, hgroup, groupAffine]
  refine ⟨?_, ?_, ?_⟩
  · rw [h.scale g hg, hother.scale g hg', haffine]
  · rw [h.bias g hg, hother.bias g hg', haffine]
  · intro t ht
    have hat : ∀ xs : List (Binary F), xs[g * config.group.size + t]? = (config.groupOf xs g)[t]? := by
      intro xs
      rw [groupOf, List.getElem?_take_of_lt ht, List.getElem?_drop]
    have hlt : t < (config.groupOf weights g).length := by
      rw [length_groupOf hg]
      exact ht
    have hv : (config.groupOf weights g)[t]? = some (config.groupOf weights g)[t] :=
      List.getElem?_eq_getElem hlt
    have hv' := hat others
    rw [hgroup, hv] at hv'
    rw [h.code _ _ ((hat weights).trans hv), hother.code _ _ hv', run_div ht, haffine]

/-- Whole groups are quantized, whatever the weights are, and what is stored are the codes
and the parameters of every group on its own.  No code passes the width. -/
theorem quantize_encodes (config : Config) (weights : List (Binary F))
    (hgroups : weights.length % config.group.size = 0) :
    (∀ group : List (Binary F), Packing.InRange config.width.bits (config.codesOf group)) ∧
      ∃ stored, config.quantize weights = .ok stored ∧ config.Encodes weights stored ∧
        (∀ i < weights.length, ∃ code ≤ 2 ^ config.width.bits - 1,
          Packing.readCode stored.packed config.width.bits i = .ok code) ∧
        ∀ others other, others.length % config.group.size = 0 →
          config.quantize others = .ok other → ∀ g < weights.length / config.group.size,
            config.groupOf others g = config.groupOf weights g →
              other.scales[g]? = stored.scales[g]? ∧ other.biases[g]? = stored.biases[g]? ∧
                ∀ t < config.group.size,
                  Packing.readCode other.packed config.width.bits (g * config.group.size + t) =
                    Packing.readCode stored.packed config.width.bits
                      (g * config.group.size + t) := by
  have hencodes : config.Encodes weights _ := encodes_encoded hgroups
  refine ⟨config.inRange_codesOf, _, quantize_eq_ok hgroups, hencodes, ?_, ?_⟩
  · intro i hi
    refine ⟨_, ?_, hencodes.code i _ (List.getElem?_eq_getElem hi)⟩
    rw [← maxCode_eq]
    exact Affine.code_le _ config _
  · intro others other hothers hother g hg hgroup
    rw [quantize_eq_ok hothers] at hother
    cases hother
    exact hencodes.group_eq (encodes_encoded hothers) hg hgroup

/-- A group of an infinity and no numbers before one of ordinary weights: the first has a
scale that is no number and only the code zero, the second does not notice. -/
theorem quantize_encodes_spoilt :
    let weights : List (Binary .half) :=
      List.replicate 31 .nan ++ [.infinite false] ++ (List.range 32).map (Binary.ofNat .half)
    weights.length % 32 = 0 ∧ ∃ stored, quantize ⟨.four, .g32⟩ weights = .ok stored ∧
      stored.scales[0]? = some .nan ∧ stored.biases[1]? = some (.ofNat .half 31) ∧
      Packing.readCode stored.packed 4 31 = .ok 0 ∧ Packing.readCode stored.packed 4 32 = .ok 15 ∧
      Packing.readCode stored.packed 4 63 = .ok 0 := by
  intro weights
  have hlength : weights.length % (Config.group ⟨.four, .g32⟩).size = 0 := by decide
  obtain ⟨-, stored, hstored, hencodes, -, -⟩ := quantize_encodes ⟨.four, .g32⟩ weights hlength
  have hgroups : weights.length / (Config.group ⟨.four, .g32⟩).size = 2 := by decide
  refine ⟨hlength, stored, hstored, ?_, ?_, ?_, ?_, ?_⟩
  · rw [hencodes.scale 0 (by rw [hgroups]; exact Nat.zero_lt_two)]
    decide +kernel
  · rw [hencodes.bias 1 (by rw [hgroups]; exact Nat.one_lt_two)]
    decide +kernel
  · refine (hencodes.code 31 (.infinite false) rfl).trans ?_
    decide +kernel
  · refine (hencodes.code 32 (.ofNat .half 0) rfl).trans ?_
    decide +kernel
  · refine (hencodes.code 63 (.ofNat .half 31) rfl).trans ?_
    decide +kernel

end Config

end SubByte
