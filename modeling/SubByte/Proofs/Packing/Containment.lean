/-
# Containment — how far a code reaches that is too large

The encoder puts the codes of a unit side by side without cutting them to their width.  What a code
has above its width lies over the codes behind it, and `codeAt_joinCodes_succ` says where: the
place `k` behind the code receives the bits of the code that are `k` widths up.  Nothing of a
code lies in front of it, and a unit ends where its bytes end, however large its codes are.

Hence the damage is contained (`pack_contains`).  As far as the codes of a unit are within their
width, from the first one on, they are found again behind their bytes, and the first one that is not
is found cut to its width.  Whatever a code is changed to, the codes in front of it and those of
all other units are found as before.
-/
import SubByte.Proofs.Packing.Codes

namespace SubByte.Packing

/-! ## Codes side by side -/

section Places

variable (bits : Nat)

theorem codeAt_or (x y k : Nat) :
    codeAt bits (x ||| y) k = codeAt bits x k ||| codeAt bits y k := by
  apply Nat.eq_of_testBit_eq
  intro b
  simp only [codeAt, testBit_bitsFrom, Nat.testBit_or, Bool.and_or_distrib_left]

theorem codeAt_shiftLeft_zero (x : Nat) : codeAt bits (x <<< bits) 0 = 0 := by
  rw [codeAt, bitsFrom, Nat.zero_mul, Nat.pow_zero, Nat.div_one, Nat.shiftLeft_eq,
    Nat.mul_mod_left]

theorem codeAt_shiftLeft_succ (x k : Nat) :
    codeAt bits (x <<< bits) (k + 1) = codeAt bits x k := by
  rw [codeAt, codeAt, bitsFrom, bitsFrom, Nat.shiftLeft_eq, Nat.succ_mul, Nat.pow_add,
    Nat.mul_div_mul_right _ _ (Nat.two_pow_pos bits)]

theorem codeAt_zero (x : Nat) : codeAt bits x 0 = x % 2 ^ bits := by
  rw [codeAt, bitsFrom, Nat.zero_mul, Nat.pow_zero, Nat.div_one]

theorem codeAt_joinCodes_zero (code : Nat) (rest : List Nat) :
    codeAt bits (joinCodes bits (code :: rest)) 0 = code % 2 ^ bits := by
  rw [joinCodes, codeAt_or, codeAt_shiftLeft_zero, Nat.or_zero, codeAt_zero]

/-- A later place holds what the codes behind the first one put there, and over it what of the
first code reaches that far. -/
theorem codeAt_joinCodes_succ (code : Nat) (rest : List Nat) (k : Nat) :
    codeAt bits (joinCodes bits (code :: rest)) (k + 1) =
      codeAt bits code (k + 1) ||| codeAt bits (joinCodes bits rest) k := by
  rw [joinCodes, codeAt_or, codeAt_shiftLeft_succ]

variable {bits}

theorem codeAt_eq_zero {code : Nat} (h : code < 2 ^ bits) (k : Nat) :
    codeAt bits code (k + 1) = 0 := by
  have hwidth : 2 ^ bits ≤ 2 ^ ((k + 1) * bits) :=
    Nat.pow_le_pow_right (by decide) (Nat.le_mul_of_pos_left bits k.succ_pos)
  rw [codeAt, bitsFrom, Nat.div_eq_of_lt (Nat.lt_of_lt_of_le h hwidth), Nat.zero_mod]

/-- What is at a place comes from the codes up to that place. -/
theorem codeAt_joinCodes_take (codes : List Nat) :
    ∀ k, codeAt bits (joinCodes bits (codes.take (k + 1))) k =
      codeAt bits (joinCodes bits codes) k := by
  induction codes with
  | nil =>
      intro k
      rw [List.take_nil]
  | cons code rest ih =>
      intro k
      cases k with
      | zero => rw [List.take_succ_cons, codeAt_joinCodes_zero, codeAt_joinCodes_zero]
      | succ k => rw [List.take_succ_cons, codeAt_joinCodes_succ, codeAt_joinCodes_succ, ih]

/-- Behind codes within their width a code is at its place, cut to its width. -/
theorem codeAt_joinCodes_of_front {codes : List Nat} :
    ∀ {k code : Nat}, InRange bits (codes.take k) → codes[k]? = some code →
      codeAt bits (joinCodes bits codes) k = code % 2 ^ bits := by
  induction codes with
  | nil =>
      intro k code _ hcode
      cases hcode
  | cons first rest ih =>
      intro k code hfront hcode
      cases k with
      | zero =>
          cases hcode
          exact codeAt_joinCodes_zero bits first rest
      | succ k =>
          rw [List.take_succ_cons] at hfront
          have hfirst := hfront first List.mem_cons_self
          have hrest : InRange bits (rest.take k) := fun c hc =>
            hfront c (List.mem_cons_of_mem first hc)
          rw [codeAt_joinCodes_succ, codeAt_eq_zero hfirst, Nat.zero_or]
          exact ih hrest hcode

end Places

/-! ## Units -/

section Units

variable (width : CodeWidth)

/-- The bytes of a unit hold every place of it, whatever lies above the last one. -/
theorem codeAt_encodeUnit (codes : List Nat) {k : Nat}
    (hk : k < codesPerUnit width.bits wordBits) :
    codeAt width.bits (streamOfBytes (encodeUnit width.bits codes)) k =
      codeAt width.bits (joinCodes width.bits codes) k := by
  have hin := codeAt_bitsFrom (codesPerUnit_mul_bits_word width) (joinCodes width.bits codes) 0 hk
  rw [Nat.zero_mul, Nat.zero_mul, Nat.zero_add] at hin
  rw [encodeUnit, streamOfBytes_littleEndian, ← hin, bitsFrom, Nat.pow_zero, Nat.div_one]

theorem take_drop_encodeUnits (codes : List Nat) {count u : Nat} (hu : u < count) :
    ((encodeUnits width.bits count codes).drop (u * bytesPerUnit width.bits wordBits)).take
        (bytesPerUnit width.bits wordBits) =
      encodeUnit width.bits ((codes.drop (u * codesPerUnit width.bits wordBits)).take
        (codesPerUnit width.bits wordBits)) := by
  rw [encodeUnits, List.flatMap_def]
  apply take_drop_flatten
  · intro unit hunit
    obtain ⟨chunk, -, rfl⟩ := List.mem_map.mp hunit
    exact length_littleEndian _ _
  · rw [blocks_eq_map, List.getElem?_map, List.getElem?_map, List.getElem?_range hu]
    rfl

/-- The whole units that codes and bytes both have. -/
def unitCount (codes : List Nat) (out : List UInt8) : Nat :=
  min (codes.length / codesPerUnit width.bits wordBits)
    (out.length / bytesPerUnit width.bits wordBits)

theorem unitCount_codes (codes : List Nat) (out : List UInt8) :
    unitCount width codes out * codesPerUnit width.bits wordBits ≤ codes.length :=
  Nat.le_trans (Nat.mul_le_mul_right _ (Nat.min_le_left _ _)) (Nat.div_mul_le_self _ _)

theorem unitCount_bytes (codes : List Nat) (out : List UInt8) :
    unitCount width codes out * bytesPerUnit width.bits wordBits ≤ out.length :=
  Nat.le_trans (Nat.mul_le_mul_right _ (Nat.min_le_right _ _)) (Nat.div_mul_le_self _ _)

theorem pack_replaces (codes : List Nat) (out : List UInt8) :
    ∃ new, pack width.bits codes out = .ok new ∧
      Replaced (unitCount width codes out * bytesPerUnit width.bits wordBits)
        (encodeUnits width.bits (unitCount width codes out) codes) out new :=
  ⟨_, pack_eq_ok width codes out,
    overlay_replaced (length_encodeUnits _ _ _) (unitCount_bytes width codes out)⟩

theorem unit_of_replaced {codes : List Nat} {out new : List UInt8} {count u : Nat}
    (h : Replaced (count * bytesPerUnit width.bits wordBits)
      (encodeUnits width.bits count codes) out new) (hu : u < count) :
    (new.drop (u * bytesPerUnit width.bits wordBits)).take (bytesPerUnit width.bits wordBits) =
      encodeUnit width.bits ((codes.drop (u * codesPerUnit width.bits wordBits)).take
        (codesPerUnit width.bits wordBits)) := by
  have hend := row_end_le hu (Nat.le_refl (count * bytesPerUnit width.bits wordBits))
  rw [← take_drop_encodeUnits width codes hu, ← h.front, List.drop_take, List.take_take,
    Nat.min_eq_left (by omega)]

end Units

/-! ## There and back -/

/-- Codes packed over the front of `out`, and unpacked from there over the front of `unpacked`. -/
def recode (bits : Nat) (codes : List Nat) (out : List UInt8) (unpacked : List Nat) :
    Except Fault (List Nat) := do
  let bytes ← pack bits codes out
  unpack bits bytes unpacked

theorem recode_eq_ok (width : CodeWidth) (codes : List Nat) (out : List UInt8)
    {unpacked : List Nat}
    (hunpacked : unitCount width codes out * codesPerUnit width.bits wordBits ≤ unpacked.length) :
    ∃ decoded, recode width.bits codes out unpacked = .ok decoded ∧
      ∀ u < unitCount width codes out, ∀ k < codesPerUnit width.bits wordBits,
        decoded[u * codesPerUnit width.bits wordBits + k]? =
          some (codeAt width.bits (joinCodes width.bits
            ((codes.drop (u * codesPerUnit width.bits wordBits)).take (k + 1))) k) := by
  obtain ⟨new, hnew, hreplaced⟩ := pack_replaces width codes out
  have hbytes := unitCount_bytes width codes out
  rw [← hreplaced.length] at hbytes
  obtain ⟨decoded, hdecoded, -, hcodes⟩ := unpack_front width hbytes hunpacked
  refine ⟨decoded, by rw [recode, hnew, ok_bind, hdecoded], ?_⟩
  intro u hu k hk
  have hplace : u * codesPerUnit width.bits wordBits + k <
      unitCount width codes out * codesPerUnit width.bits wordBits := by
    have hend := row_end_le hu
      (Nat.le_refl (unitCount width codes out * codesPerUnit width.bits wordBits))
    omega
  rw [hcodes _ hplace, ← codeAt_bytes (codesPerUnit_mul_bits_word width) new u hk,
    unit_of_replaced width hreplaced hu, codeAt_encodeUnit width _ hk,
    ← codeAt_joinCodes_take, List.take_take, Nat.min_eq_left (Nat.succ_le_of_lt hk)]

/-- Packing contains the damage that codes do which are too large.  As many whole units are
written as both sides have, each from its own codes alone, and the rest of the output is the old
one.  What is unpacked from there has at each place, unless a code in front of it in its unit
is too large, the code of the place cut to its width.  And if one of the codes is changed to
anything at all, what is unpacked has the same codes in front of it and in all other units. -/
theorem pack_contains (width : CodeWidth) (codes : List Nat) (out : List UInt8) :
    let size := codesPerUnit width.bits wordBits
    let bytes := bytesPerUnit width.bits wordBits
    let count := min (codes.length / size) (out.length / bytes)
    (∃ new, pack width.bits codes out = .ok new ∧ new.length = out.length ∧
      new.drop (count * bytes) = out.drop (count * bytes) ∧
      ∀ u < count, (new.drop (u * bytes)).take bytes =
        encodeUnit width.bits ((codes.drop (u * size)).take size)) ∧
    ∀ unpacked : List Nat, count * size ≤ unpacked.length →
      ∃ decoded, recode width.bits codes out unpacked = .ok decoded ∧
        (∀ u < count, ∀ k < size, InRange width.bits ((codes.drop (u * size)).take k) →
          ∃ code, codes[u * size + k]? = some code ∧
            decoded[u * size + k]? = some (code % 2 ^ width.bits)) ∧
        ∀ i code, ∃ changed,
          recode width.bits (codes.set i code) out unpacked = .ok changed ∧
            ∀ j < count * size, j < i ∨ j / size ≠ i / size → changed[j]? = decoded[j]? := by
  intro size bytes count
  have hsize : 0 < size := codesPerUnit_pos width
  constructor
  · obtain ⟨new, hnew, hreplaced⟩ := pack_replaces width codes out
    refine ⟨new, hnew, hreplaced.length, hreplaced.behind, ?_⟩
    intro u hu
    exact unit_of_replaced width hreplaced hu
  · intro unpacked hunpacked
    obtain ⟨decoded, hdecoded, hplaces⟩ := recode_eq_ok width codes out hunpacked
    refine ⟨decoded, hdecoded, ?_, ?_⟩
    · intro u hu k hk hfront
      have hlast : u * size + k < codes.length := by
        have hend : u * size + size ≤ codes.length :=
          row_end_le hu (unitCount_codes width codes out)
        omega
      have hcode : (codes.drop (u * size))[k]? = some codes[u * size + k] := by
        rw [List.getElem?_drop, List.getElem?_eq_getElem hlast]
      refine ⟨_, List.getElem?_eq_getElem hlast, ?_⟩
      rw [hplaces u hu k hk, codeAt_joinCodes_take, codeAt_joinCodes_of_front hfront hcode]
    · intro i code
      have hcount : unitCount width (codes.set i code) out = count := by
        rw [unitCount, List.length_set]
      obtain ⟨changed, hchanged, hothers⟩ :=
        recode_eq_ok width (codes.set i code) out (by rwa [hcount])
      refine ⟨changed, hchanged, ?_⟩
      intro j hj hapart
      have hu : j / size < count := (Nat.div_lt_iff_lt_mul hsize).mpr hj
      have hk : j % size < size := Nat.mod_lt j hsize
      -- so the codes of the unit of `j` up to `j` itself are the same as before
      have hsame := hothers (j / size) (hcount ▸ hu) (j % size) hk
      rw [take_drop_set (run_apart hsize hapart), ← hplaces (j / size) hu (j % size) hk] at hsame
      rwa [Nat.div_add_mod'] at hsame

/-- A code of six bits that has eight, and behind it a whole unit and a byte that belongs to none. -/
theorem pack_contains_spilled :
    (∃ new, pack 6 [5, 200, 4, 9, 60, 1, 2, 3] (List.replicate 7 7) = .ok new ∧
      new.length = 7 ∧ new.drop 6 = [7]) ∧
    ∃ decoded changed,
      recode 6 [5, 200, 4, 9, 60, 1, 2, 3] (List.replicate 7 7) (List.replicate 8 0) =
        .ok decoded ∧
      recode 6 [5, 63, 4, 9, 60, 1, 2, 3] (List.replicate 7 7) (List.replicate 8 0) =
        .ok changed ∧
      decoded[0]? = some 5 ∧ decoded[1]? = some 8 ∧ decoded[4]? = some 60 ∧
      changed[0]? = decoded[0]? ∧ changed[7]? = decoded[7]? := by
  obtain ⟨⟨new, hnew, hlength, hbehind, -⟩, hunpack⟩ :=
    pack_contains .six [5, 200, 4, 9, 60, 1, 2, 3] (List.replicate 7 7)
  obtain ⟨decoded, hdecoded, hplaces, hchange⟩ := hunpack (List.replicate 8 0) (by decide)
  obtain ⟨changed, hchanged, hsame⟩ := hchange 1 63
  obtain ⟨first, hfirst, hdecoded0⟩ :=
    hplaces 0 (by decide) 0 (by decide) (by unfold InRange; decide)
  obtain ⟨large, hlarge, hdecoded1⟩ :=
    hplaces 0 (by decide) 1 (by decide) (by unfold InRange; decide)
  obtain ⟨next, hnext, hdecoded4⟩ :=
    hplaces 1 (by decide) 0 (by decide) (by unfold InRange; decide)
  cases hfirst
  cases hlarge
  cases hnext
  exact ⟨⟨new, hnew, hlength, hbehind⟩, decoded, changed, hdecoded, hchanged, hdecoded0, hdecoded1,
    hdecoded4, hsame 0 (by decide) (.inl (by decide)), hsame 7 (by decide) (.inr (by decide))⟩

/-- The code behind the large one is the one that is lost. -/
example : recode 6 [5, 200, 4, 9] [0, 0, 0] [0, 0, 0, 0] = .ok [5, 8, 7, 9] := by rfl

end SubByte.Packing
