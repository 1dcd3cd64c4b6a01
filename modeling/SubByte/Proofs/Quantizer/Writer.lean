/-
# Writer — groups as they are written

`Config.quantizeInto` and `Config.expandInto` give what the buffers hold when all is done.
Here are the same calls as they run, with the buffers at every point where they can stop
(`Config.writeQuantized`, `Config.writeExpanded`): first the checks, then group after group, as
long as there is a whole group of weights, a whole stretch of bytes, a scale and a bias.

Such a loop ends without a word at whichever of them is used up first, and a group that does
not fill its bytes would stop it half way.  The checks ask for exactly the sizes at which
neither happens (`Config.HasRoom`, `Config.HoldsParts`).  So the loops write what the calls
say, over the front of the buffers and nothing behind it, or the buffers stay as they were
(`Config.quantizer_framed`).
-/
import SubByte.Proofs.Quantizer.Encoded
import SubByte.Proofs.Quantizer.Expanded
import SubByte.Proofs.Written

namespace SubByte

namespace Config

variable {F : Format} {config : Config} {weights out : List (Binary F)} {into : Encoded F}
  {stored : Quantized F} {count : Nat}

/-! ## Encoding -/

/-- Groups encoded one after another, each over the next stretch of bytes and the next pair of
parameters, for as long as there are all of them. -/
def writeGroups (config : Config) : List (List (Binary F)) → Encoded F → Written (Encoded F)
  | group :: groups, into@⟨packed, _ :: scales, _ :: biases⟩ =>
    if packed.length < config.groupBytes then (.ok (), into)
    else
      match Packing.pack config.width.bits (config.codesOf group)
          (packed.take config.groupBytes) with
      | .error f => (.error (.fault f), into)
      | .ok bytes =>
        let affine := config.affineOf group
        let written := config.writeGroups groups ⟨packed.drop config.groupBytes, scales, biases⟩
        (written.1, {
          packed := bytes ++ written.2.packed
          scales := affine.scale.narrow F :: written.2.scales
          biases := affine.bias.narrow F :: written.2.biases })
  | _, into => (.ok (), into)

/-- The weights encoded over the front of the given buffers, step by step. -/
def writeQuantized (config : Config) (weights : List (Binary F)) (into : Encoded F) :
    Written (Encoded F) :=
  .guarded (config.requireEncoding weights.length into)
    (config.writeGroups (wholeBlocks config.group.size weights) into) into

theorem writeGroups_eq_ok (config : Config) :
    ∀ {groups : List (List (Binary F))} {into : Encoded F},
      (∀ group ∈ groups, group.length = config.group.size) →
      groups.length * config.groupBytes ≤ into.packed.length →
      groups.length ≤ into.scales.length → groups.length ≤ into.biases.length →
      config.writeGroups groups into = (.ok (), {
        packed := overlay (groups.map config.encodeGroup).flatten into.packed
        scales := overlay (groups.map fun group => (config.affineOf group).scale.narrow F)
          into.scales
        biases := overlay (groups.map fun group => (config.affineOf group).bias.narrow F)
          into.biases })
  | [], _, _, _, _, _ => rfl
  | _ :: _, ⟨_, [], _⟩, _, _, hscales, _ => nomatch hscales
  | _ :: _, ⟨_, _ :: _, []⟩, _, _, _, hbiases => nomatch hbiases
  | group :: groups, ⟨packed, _ :: scales, _ :: biases⟩, hsizes, hpacked, hscales, hbiases => by
      have hbytes : groups.length * config.groupBytes + config.groupBytes ≤ packed.length := by
        rwa [List.length_cons, Nat.succ_mul] at hpacked
      have hroom : config.groupBytes ≤ packed.length := by omega
      have hfront : (packed.take config.groupBytes).length = config.groupBytes := by
        rw [List.length_take, Nat.min_eq_left hroom]
      have hbehind :
          groups.length * config.groupBytes ≤ (packed.drop config.groupBytes).length := by
        rw [List.length_drop]
        omega
      have hpack := config.pack_codesOf (hsizes group List.mem_cons_self) hfront
      have hrest : config.writeGroups groups ⟨packed.drop config.groupBytes, scales, biases⟩ = _ :=
        config.writeGroups_eq_ok (fun group hgroup => hsizes group (List.mem_cons_of_mem _ hgroup))
          hbehind (Nat.le_of_succ_le_succ hscales) (Nat.le_of_succ_le_succ hbiases)
      rw [writeGroups, if_neg (Nat.not_lt_of_le hroom), hpack]
      simp only [hrest, overlay, List.map_cons, List.flatten_cons, List.append_assoc,
        List.drop_drop, List.length_append, length_encodeGroup, List.length_cons, List.length_map,
        List.drop_succ_cons, List.cons_append]

/-- What the buffers hold when all groups have been written. -/
def overlaid (config : Config) (weights : List (Binary F)) (into : Encoded F) : Encoded F where
  packed := overlay (config.encoded weights).packed into.packed
  scales := overlay (config.encoded weights).scales into.scales
  biases := overlay (config.encoded weights).biases into.biases

theorem HasRoom.writeGroups_eq_ok (h : config.HasRoom weights.length into) :
    config.writeGroups (wholeBlocks config.group.size weights) into =
      (.ok (), config.overlaid weights into) := by
  obtain ⟨hgroups, hpacked, hscales, hbiases⟩ := h
  rw [bytes_of_groups] at hpacked
  have hcount : (wholeBlocks config.group.size weights).length =
      weights.length / config.group.size := by
    rw [wholeBlocks, length_blocks]
  have hsizes : ∀ group ∈ wholeBlocks config.group.size weights,
      group.length = config.group.size :=
    fun group hgroup => length_of_mem_blocks (Nat.div_mul_le_self _ _) hgroup
  rw [config.writeGroups_eq_ok hsizes (by rwa [hcount]) (by rwa [hcount]) (by rwa [hcount]),
    wholeBlocks_eq_groupOf]
  rfl

theorem writeQuantized_eq (config : Config) (weights : List (Binary F)) (into : Encoded F) :
    config.writeQuantized weights into =
      Written.ofResult (config.quantizeInto weights into) into := by
  rw [writeQuantized, quantizeInto]
  cases hchecks : config.requireEncoding weights.length into with
  | error stop => rfl
  | ok _ =>
      have hroom := requireEncoding_eq_ok_iff.mp hchecks
      have hwhole := quantizeInto_eq_ok hroom.groups
        (by rw [length_encoded_packed, ← bytes_of_groups]; exact hroom.packed) hroom.scales
        hroom.biases
      rw [quantizeInto, hchecks] at hwhole
      rw [hwhole]
      exact hroom.writeGroups_eq_ok

theorem HasRoom.overlaid_replaced (h : config.HasRoom weights.length into) :
    ∃ stored, config.quantize weights = .ok stored ∧
      Replaced (weights.length / config.group.size * config.group.size * config.width.bits / 8)
        (Packing.bytesOfWords stored.packed) into.packed (config.overlaid weights into).packed ∧
      Replaced (weights.length / config.group.size) stored.scales into.scales
        (config.overlaid weights into).scales ∧
      Replaced (weights.length / config.group.size) stored.biases into.biases
        (config.overlaid weights into).biases := by
  obtain ⟨hbytes, -⟩ := config.wordsOf_whole h.groups
  rw [← length_encoded_packed] at hbytes
  obtain ⟨hscales, hbiases⟩ := config.length_encoded_parameters weights
  refine ⟨_, quantize_eq_ok h.groups, ?_, overlay_replaced hscales h.scales,
    overlay_replaced hbiases h.biases⟩
  simp only [Packing.bytesOfWords_wordsOfBytes hbytes.symm]
  refine overlay_replaced ?_ h.packed
  rw [length_encoded_packed, bytes_of_groups]

/-! ## Expanding -/

/-- A group expanded over a block of the output. -/
def writeGroup (config : Config) (slot : List UInt8 × Binary F × Binary F)
    (old : List (Binary F)) : Written (List (Binary F)) :=
  .ofResult (Checked.ofFault do
    let values ← config.expandGroup slot.1 slot.2
    return overlay values old) old

/-- The weights written over `out`, step by step. -/
def writeExpanded (config : Config) (stored : Quantized F) (out : List (Binary F)) :
    Written (List (Binary F)) :=
  let groups := (wholeBlocks config.groupBytes (Packing.bytesOfWords stored.packed)).zip
    (stored.scales.zip stored.biases)
  .guarded (config.requireExpansion out.length stored)
    (writeBlocks config.group.size (groups.map config.writeGroup) out) out

/-- The weights that are stored, in the storage format. -/
def expanded (config : Config) (stored : Quantized F) (count : Nat) : List (Binary F) :=
  (List.range count).map fun i => (stored.operand.weightAt config i).narrow F

@[simp] theorem length_expanded (config : Config) (stored : Quantized F) (count : Nat) :
    (config.expanded stored count).length = count := by
  rw [expanded, List.length_map, List.length_range]

theorem HoldsParts.expand_eq_ok (h : config.HoldsParts count stored) :
    config.expand stored count = .ok (config.expanded stored count) := by
  have hpacked := h.packed
  rw [config.words_of_groups h.groups] at hpacked
  exact Config.expand_eq_ok h.groups hpacked h.scales h.biases

theorem writeGroup_eq_ok {groups g : Nat} (hstored : stored.operand.Stores config 1 groups)
    (hg : g < groups) {old : List (Binary F)} (hold : old.length = config.group.size) :
    config.writeGroup ((stored.operand.groupAt config g).packed,
        (stored.scales.getD g .nan, stored.biases.getD g .nan)) old =
      (.ok (), (List.range config.group.size).map fun t =>
        (stored.operand.weightAt config (g * config.group.size + t)).narrow F) := by
  rw [writeGroup, expandGroup_groupAt hstored hg, ok_bind, pure_eq_ok, Checked.ofFault_ok,
    Written.ofResult, overlay_eq_front]
  rw [hold, List.length_map, List.length_range]

theorem HoldsParts.writes (h : config.HoldsParts out.length stored) :
    writeBlocks config.group.size
        (((wholeBlocks config.groupBytes (Packing.bytesOfWords stored.packed)).zip
          (stored.scales.zip stored.biases)).map config.writeGroup) out =
      (.ok (), config.expanded stored out.length) := by
  obtain ⟨hgroups, hpacked, hscales, hbiases⟩ := h
  rw [config.words_of_groups hgroups] at hpacked
  have hstored := stores_operand hgroups hpacked hscales hbiases
  have hwhole := Nat.div_mul_cancel (Nat.dvd_of_mod_eq_zero hgroups)
  have hcount : out.length / config.group.size ≤
      (Packing.bytesOfWords stored.packed).length / config.groupBytes := by
    rw [Nat.le_div_iff_mul_le config.groupBytes_pos, Packing.length_bytesOfWords,
      ← (config.wordsOf_whole hgroups).1]
    exact Nat.mul_le_mul_left 4 hpacked
  have hparameters : out.length / config.group.size ≤
      (stored.scales.zip stored.biases).length := by
    rw [List.length_zip]
    exact Nat.le_min.mpr ⟨hscales, hbiases⟩
  -- The parts may hold more groups than the output has room for.
  rw [← writeBlocks_take config.group.size_pos, ← List.map_take, wholeBlocks,
    take_zip_blocks _ hcount hparameters, zip_groups hscales hbiases, List.map_map]
  have hjoined := flatMap_range_mul (fun i => (stored.operand.weightAt config i).narrow F)
    config.group.size (out.length / config.group.size)
  rw [hwhole, List.flatMap_def] at hjoined
  have hover : config.expanded stored out.length =
      overlay (config.expanded stored out.length) out := by
    rw [overlay_eq_front (Nat.le_of_eq (length_expanded ..).symm)]
  rw [hover, expanded, ← hjoined]
  refine writeBlocks_eq_ok ?_ fun g hg => ⟨?_, fun old hold => ?_⟩
  · rw [List.length_range, hwhole]
  · rw [List.length_map, List.length_range]
  · exact writeGroup_eq_ok hstored (List.mem_range.mp hg) hold

theorem writeExpanded_eq (config : Config) (stored : Quantized F) (out : List (Binary F)) :
    config.writeExpanded stored out = Written.ofResult (config.expandInto stored out) out := by
  rw [writeExpanded, expandInto]
  cases hchecks : config.requireExpansion out.length stored with
  | error stop =>
      rw [expand, hchecks]
      rfl
  | ok _ =>
      have hparts := requireExpansion_eq_ok_iff.mp hchecks
      rw [hparts.expand_eq_ok, ok_bind, pure_eq_ok,
        overlay_eq_front (Nat.le_of_eq (length_expanded ..).symm)]
      exact hparts.writes

/-! ## Both calls -/

/-- Encoding and expanding write all or nothing, and which of the two depends on sizes alone.
What is encoded stands at the front of each buffer, and the buffers go on as they did; what is
expanded takes the place of the whole output, whatever was there. -/
theorem quantizer_framed (config : Config) :
    (∀ (weights : List (Binary F)) (into : Encoded F),
      let written := config.writeQuantized weights into
      let groups := weights.length / config.group.size
      written = Written.ofResult (config.quantizeInto weights into) into ∧
      Checked.FaultsOnly (fun _ => False) written.1 ∧
      (written.1 = .ok () ↔ config.HasRoom weights.length into) ∧
      (∀ stop, written.1 = .error stop → written.2 = into) ∧
      (written.1 = .ok () → ∃ stored, config.quantize weights = .ok stored ∧
        Replaced (groups * config.group.size * config.width.bits / 8)
          (Packing.bytesOfWords stored.packed) into.packed written.2.packed ∧
        Replaced groups stored.scales into.scales written.2.scales ∧
        Replaced groups stored.biases into.biases written.2.biases)) ∧
    ∀ (stored : Quantized F) (out : List (Binary F)),
      let written := config.writeExpanded stored out
      written = Written.ofResult (config.expandInto stored out) out ∧
      Checked.FaultsOnly (fun _ => False) written.1 ∧
      (written.1 = .ok () ↔ config.HoldsParts out.length stored) ∧
      (∀ stop, written.1 = .error stop → written.2 = out) ∧
      (written.1 = .ok () → written.2.length = out.length ∧
        config.expand stored out.length = .ok written.2 ∧
        ∀ out', out'.length = out.length → config.writeExpanded stored out' = written) := by
  refine ⟨fun weights into => ?_, fun stored out => ?_⟩
  · intro written groups
    have hchecks : Checked.FaultsOnly (fun _ => False)
        (config.requireEncoding weights.length into) := requireParts_faults config "w" _ _ _ _ _
    -- The checks look at lengths alone, and behind them no group can fail.
    obtain ⟨hfaults, hok, hkept, hnew⟩ := Written.guarded_total into hchecks
      fun hpassed => (requireEncoding_eq_ok_iff.mp hpassed).writeGroups_eq_ok
    rw [requireEncoding_eq_ok_iff] at hok
    refine ⟨writeQuantized_eq config weights into, hfaults, hok, hkept, fun hwritten => ?_⟩
    have hbuffers : written.2 = config.overlaid weights into := hnew hwritten
    rw [hbuffers]
    exact (hok.mp hwritten).overlaid_replaced
  · intro written
    have hchecks : Checked.FaultsOnly (fun _ => False)
        (config.requireExpansion out.length stored) := requireParts_faults config "out" _ _ _ _ _
    obtain ⟨hfaults, hok, hkept, hnew⟩ := Written.guarded_total out hchecks
      fun hpassed => (requireExpansion_eq_ok_iff.mp hpassed).writes
    rw [requireExpansion_eq_ok_iff] at hok
    refine ⟨writeExpanded_eq config stored out, hfaults, hok, hkept, fun hwritten => ?_⟩
    have hvalues : written.2 = config.expanded stored out.length := hnew hwritten
    have hparts := hok.mp hwritten
    refine ⟨?_, ?_, fun out' hlength => ?_⟩
    · rw [hvalues, length_expanded]
    · rw [hvalues, hparts.expand_eq_ok]
    · have hexpands : ∀ old : List (Binary F), old.length = out.length →
          config.writeExpanded stored old = (.ok (), config.expanded stored out.length) := by
        intro old hold
        rw [← hold] at hparts ⊢
        rw [writeExpanded, requireExpansion_eq_ok_iff.mpr hparts]
        exact hparts.writes
      exact (hexpands out' hlength).trans (hexpands out rfl).symm

/-- One group of 32 halves in buffers with some elements to spare, and in buffers without a bias;
five words and two pairs of parameters, of which an output of one group takes the first. -/
theorem quantizer_framed_surplus :
    let config : Config := ⟨.four, .g32⟩
    let weights : List (Binary .half) := (List.range 32).map (Binary.ofNat .half)
    let into : Encoded .half := ⟨List.replicate 18 255, [.nan, 0], [.nan, 0, 0]⟩
    let short : Encoded .half := ⟨List.replicate 18 255, [.nan, 0], []⟩
    let stored : Quantized .half := ⟨List.replicate 5 0x76543210, [.ofNat .half 1, .nan], [0, .nan]⟩
    (config.writeQuantized weights into).1 = .ok () ∧
      (config.writeQuantized weights into).2.packed.drop 16 = [255, 255] ∧
      (config.writeQuantized weights into).2.scales.drop 1 = [0] ∧
      (config.writeQuantized weights into).2.biases.drop 1 = [0, 0] ∧
      (config.writeQuantized weights short).1 ≠ .ok () ∧
      (config.writeQuantized weights short).2 = short ∧
      (config.writeExpanded stored weights).1 = .ok () ∧
      config.writeExpanded stored (List.replicate 32 .nan) = config.writeExpanded stored weights ∧
      (config.writeExpanded stored (List.replicate 31 .nan)).2 = List.replicate 31 .nan := by
  intro config weights into short stored
  obtain ⟨hencoding, hexpanding⟩ := quantizer_framed (F := .half) config
  obtain ⟨-, -, hok, -, hwritten⟩ := hencoding weights into
  obtain ⟨-, -, hokShort, hkept, -⟩ := hencoding weights short
  obtain ⟨-, -, hokParts, -, hexpanded⟩ := hexpanding stored weights
  obtain ⟨-, -, hokPart, hkeptPart, -⟩ := hexpanding stored (List.replicate 31 .nan)
  have hroom := hok.mpr ⟨by decide, by decide, by decide, by decide⟩
  have hparts := hokParts.mpr ⟨by decide, by decide, by decide, by decide⟩
  obtain ⟨encoded, -, hpacked, hscales, hbiases⟩ := hwritten hroom
  have hgroups : weights.length / config.group.size = 1 := by decide
  have hbytes : 1 * config.group.size * config.width.bits / 8 = 16 := by decide
  rw [hgroups, hbytes] at hpacked
  rw [hgroups] at hscales hbiases
  have hrejected : (config.writeQuantized weights short).1 ≠ .ok () :=
    fun h => absurd (hokShort.mp h).biases (by decide)
  have hrejectedPart : (config.writeExpanded stored (List.replicate 31 .nan)).1 ≠ .ok () :=
    fun h => absurd (hokPart.mp h).groups (by decide)
  refine ⟨hroom, hpacked.behind, hscales.behind, hbiases.behind, hrejected, ?_, hparts,
    (hexpanded hparts).2.2 _ rfl, ?_⟩
  · cases hstop : (config.writeQuantized weights short).1 with
    | ok _ => exact absurd hstop hrejected
    | error stop => exact hkept stop hstop
  · cases hstop : (config.writeExpanded stored (List.replicate 31 .nan)).1 with
    | ok _ => exact absurd hstop hrejectedPart
    | error stop => exact hkeptPart stop hstop

end Config

end SubByte
