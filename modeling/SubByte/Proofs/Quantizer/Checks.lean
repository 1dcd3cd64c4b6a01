/-
# Checks — what the quantizer asks of its buffers

Encoding and expanding check the same four things in the same order: that the weights make
whole groups, and that packed codes, scales and biases have room for these
(`Config.requireParts`).  They differ in the storage element that packed codes are counted in,
bytes or words.

A check of lengths divides by the size of a group, which is never zero, and looks at no
element, so the checks reject and do nothing else.
-/
import SubByte.Proofs.Product.Whole

namespace SubByte

namespace Config

variable {F : Format} {config : Config} {into : Encoded F} {stored : Quantized F} {count : Nat}

/-- Whole groups, and room for their packed codes and their parameters. -/
def requireParts (config : Config) (name : String) (count required : Nat)
    (packed scales biases : Nat) : Checked QuantError Unit := do
  Checked.ofShape (requireWholeGroups name count config.group.size)
  requireRoom .packed required packed
  requireRoom .scales (count / config.group.size) scales
  requireRoom .biases (count / config.group.size) biases

theorem requireParts_eq_ok_iff {name : String} {required packed scales biases : Nat} :
    config.requireParts name count required packed scales biases = .ok () ↔
      count % config.group.size = 0 ∧ required ≤ packed ∧
        count / config.group.size ≤ scales ∧ count / config.group.size ≤ biases := by
  constructor
  · intro h
    obtain ⟨_, hgroups, h⟩ := bind_eq_ok.mp h
    obtain ⟨_, hpacked, h⟩ := bind_eq_ok.mp h
    obtain ⟨_, hscales, hbiases⟩ := bind_eq_ok.mp h
    exact ⟨requireWholeGroups_eq_ok_iff.mp (Checked.ofShape_eq_ok.mp hgroups),
      requireRoom_eq_ok_iff.mp hpacked, requireRoom_eq_ok_iff.mp hscales,
      requireRoom_eq_ok_iff.mp hbiases⟩
  · rintro ⟨hgroups, hpacked, hscales, hbiases⟩
    simp only [requireParts]
    rw [requireWholeGroups_eq_ok _ hgroups, Checked.ofShape_ok, ok_bind, requireRoom_eq_ok hpacked,
      ok_bind, requireRoom_eq_ok hscales, ok_bind, requireRoom_eq_ok hbiases]

theorem requireParts_faults (config : Config) (name : String) (count required : Nat)
    (packed scales biases : Nat) : Checked.FaultsOnly (fun _ => False)
      (config.requireParts name count required packed scales biases) := by
  refine .bind (.ofShape (requireWholeGroups_faults _ _ _ _)) fun _ _ => ?_
  refine .bind (requireRoom_faults _ _ _ _) fun _ _ => ?_
  exact .bind (requireRoom_faults _ _ _ _) fun _ _ => requireRoom_faults _ _ _ _

/-! ## Encoding -/

/-- What encoding `count` weights asks of its buffers. -/
structure HasRoom (config : Config) (count : Nat) (into : Encoded F) : Prop where
  groups : count % config.group.size = 0
  packed : count / config.group.size * config.group.size * config.width.bits / 8 ≤
    into.packed.length
  scales : count / config.group.size ≤ into.scales.length
  biases : count / config.group.size ≤ into.biases.length

theorem bytes_of_groups (config : Config) (groups : Nat) :
    groups * config.group.size * config.width.bits / 8 = groups * config.groupBytes := by
  rw [Nat.mul_assoc, config.size_mul_bits, Nat.mul_left_comm,
    Nat.mul_div_cancel_left _ (by decide)]

theorem requireEncoding_eq (config : Config) (count : Nat) (into : Encoded F) :
    config.requireEncoding count into = config.requireParts "w" count
      (count / config.group.size * config.groupBytes) into.packed.length into.scales.length
      into.biases.length := rfl

theorem requireEncoding_eq_ok_iff :
    config.requireEncoding count into = .ok () ↔ config.HasRoom count into := by
  rw [requireEncoding_eq, requireParts_eq_ok_iff, ← bytes_of_groups]
  exact ⟨fun ⟨hgroups, hpacked, hscales, hbiases⟩ => ⟨hgroups, hpacked, hscales, hbiases⟩,
    fun h => ⟨h.groups, h.packed, h.scales, h.biases⟩⟩

/-! ## Expanding -/

/-- What expanding to `count` weights asks of the stored parts. -/
structure HoldsParts (config : Config) (count : Nat) (stored : Quantized F) : Prop where
  groups : count % config.group.size = 0
  packed : count * config.width.bits / 32 ≤ stored.packed.length
  scales : count / config.group.size ≤ stored.scales.length
  biases : count / config.group.size ≤ stored.biases.length

theorem words_of_groups (config : Config) {count : Nat} (hgroups : count % config.group.size = 0) :
    count * config.width.bits / 32 = config.wordsOf count := by
  rw [(config.wordsOf_whole hgroups).2, Nat.mul_div_cancel_left _ (by decide)]

theorem requireExpansion_eq (config : Config) (count : Nat) (stored : Quantized F) :
    config.requireExpansion count stored = config.requireParts "out" count (config.wordsOf count)
      stored.packed.length stored.scales.length stored.biases.length := rfl

theorem requireExpansion_eq_ok_iff :
    config.requireExpansion count stored = .ok () ↔ config.HoldsParts count stored := by
  rw [requireExpansion_eq, requireParts_eq_ok_iff]
  constructor
  · rintro ⟨hgroups, hpacked, hscales, hbiases⟩
    exact ⟨hgroups, by rwa [config.words_of_groups hgroups], hscales, hbiases⟩
  · rintro ⟨hgroups, hpacked, hscales, hbiases⟩
    rw [config.words_of_groups hgroups] at hpacked
    exact ⟨hgroups, hpacked, hscales, hbiases⟩

end Config

end SubByte
