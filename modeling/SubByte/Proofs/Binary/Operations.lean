/-
# Operations — every result is one rounding away

Each operation on finite values rounds the exact result once (`add_rounds` and its like), so
the laws of `Rounds` hold for all of them.  The operations that choose among their
operands are exact, and so is bringing a value into a format that has all magnitudes of
its own (`convert_finite`): a storage format is within the format of the singles
(`FloatType.within`), so weights are widened without loss, and a widened weight is
narrowed to itself.

A single brought to the nearest whole number is exactly that number (`roundEven_finite`):
from `2 ^ 23` on singles are whole themselves, and all whole numbers up to there are
singles.
-/
import SubByte.DType
import SubByte.Proofs.Binary.Value

namespace SubByte

namespace Binary

variable {F G : Format} {a b : Binary F}

/-! ## Results -/

theorem zero_eq_ofUnits (s : Bool) : (zero s : Binary F) = ofUnits F s 0 1 := by
  have hindex := F.nearestIndex_zero Nat.one_pos
  rw [ofUnits, dif_pos (by rw [hindex]; exact F.magnitudes_pos)]
  exact congrArg (finite s) (Fin.ext hindex.symm)

theorem add_rounds (ha : a.isFinite) (hb : b.isFinite) : Rounds (a.toRat + b.toRat) (a + b) := by
  obtain ⟨s, i, rfl⟩ := exists_finite ha
  obtain ⟨t, j, rfl⟩ := exists_finite hb
  let sum := signed s (F.unitsOf i) + signed t (F.unitsOf j)
  have hx : (finite s i : Binary F).toRat + (finite t j : Binary F).toRat =
      (sum : ℚ) / F.unitsPerOne := by
    rw [toRat_finite, toRat_finite, ← add_div, ← Int.cast_add]
  have hresult : (finite s i + finite t j : Binary F) =
      if sum = 0 then zero (s && t) else ofUnits F (decide (sum < 0)) sum.natAbs 1 := rfl
  rw [hx, hresult]
  split
  · next hzero =>
      refine ⟨s && t, 0, 1, Nat.one_pos, zero_eq_ofUnits _, ?_⟩
      rw [hzero]
      cases s && t <;> simp [signed]
  · refine ⟨_, _, 1, Nat.one_pos, rfl, ?_⟩
    rw [signed_natAbs, Nat.cast_one, one_mul]

theorem sub_rounds (ha : a.isFinite) (hb : b.isFinite) : Rounds (a.toRat - b.toRat) (a - b) := by
  have hneg := add_rounds ha (b := -b) (by rwa [isFinite_neg])
  rwa [toRat_neg, ← sub_eq_add_neg] at hneg

theorem sub_zero_finite (ha : a.isFinite) : (a - 0).isFinite ∧ (a - 0).toRat = a.toRat := by
  have hrounds := sub_rounds ha (isFinite_zero (F := F))
  rw [toRat_zero, sub_zero] at hrounds
  exact hrounds.exact ha

theorem mul_rounds (ha : a.isFinite) (hb : b.isFinite) : Rounds (a.toRat * b.toRat) (a * b) := by
  obtain ⟨s, i, rfl⟩ := exists_finite ha
  obtain ⟨t, j, rfl⟩ := exists_finite hb
  refine ⟨s != t, F.unitsOf i * F.unitsOf j, F.unitsPerOne, F.unitsPerOne_pos, rfl, ?_⟩
  rw [toRat_finite, toRat_finite, div_mul_div_comm, ← Int.cast_mul, signed_mul]

theorem div_rounds (ha : a.isFinite) (hb : b.isFinite) (hzero : b.toRat ≠ 0) :
    Rounds (a.toRat / b.toRat) (a / b) := by
  have hindex : b.isZero = false := by
    rw [Bool.eq_false_iff]
    exact fun h => hzero ((isZero_iff hb).mp h)
  obtain ⟨s, i, rfl⟩ := exists_finite ha
  obtain ⟨t, j, rfl⟩ := exists_finite hb
  have hj : j.val ≠ 0 := of_decide_eq_false hindex
  have hpos : 0 < F.unitsOf j := by
    have hlt := F.unitsOf_lt (Nat.pos_of_ne_zero hj)
    rwa [F.unitsOf_zero] at hlt
  refine ⟨s != t, F.unitsOf i * F.unitsPerOne, F.unitsOf j, hpos, if_neg hj, ?_⟩
  have hone := F.unitsPerOne_cast_pos
  have hj : (F.unitsOf j : ℚ) ≠ 0 := Nat.cast_ne_zero.mpr (Nat.ne_of_gt hpos)
  rw [toRat_finite, toRat_finite]
  cases s <;> cases t <;> simp [signed] <;> field_simp

theorem div_infinite (ha : a.isFinite) (s : Bool) :
    (a / .infinite s).isFinite ∧ (a / .infinite s).toRat = 0 := by
  obtain ⟨t, i, rfl⟩ := exists_finite ha
  exact ⟨rfl, toRat_signedZero (t != s)⟩

theorem convert_rounds (G : Format) (ha : a.isFinite) : Rounds a.toRat (a.convert G) := by
  obtain ⟨s, i, rfl⟩ := exists_finite ha
  refine ⟨s, F.unitsOf i * G.unitsPerOne, F.unitsPerOne, F.unitsPerOne_pos, rfl, ?_⟩
  have hF := F.unitsPerOne_cast_pos
  have hG := G.unitsPerOne_cast_pos
  rw [toRat_finite, ← signed_mul_natCast, Int.cast_mul, Int.cast_natCast]
  field_simp

/-! ## What is lost stays lost -/

theorem isFinite_of_add (h : (a + b).isFinite) : a.isFinite ∧ b.isFinite := by
  cases a with
  | nan => cases h
  | infinite s =>
      cases b with
      | nan => cases h
      | infinite t =>
          change (if s = t then infinite s else nan : Binary F).isFinite = true at h
          split at h
          · cases h
          · cases h
      | finite t j => cases h
  | finite s i =>
      cases b with
      | nan => cases h
      | infinite t => cases h
      | finite t j => exact ⟨rfl, rfl⟩

theorem mul_infinite (a : Binary F) (s : Bool) : (a * infinite s).isFinite = false := by
  cases a with
  | nan => rfl
  | infinite t => rfl
  | finite t i =>
      change (if i.val = 0 then nan else infinite (t != s) : Binary F).isFinite = false
      split
      · rfl
      · rfl

theorem div_of_isZero (a : Binary F) (hb : b.isZero) : (a / b).isFinite = false := by
  cases b with
  | nan => cases hb
  | infinite t => cases hb
  | finite t j =>
      have hj : j.val = 0 := of_decide_eq_true hb
      cases a with
      | nan => rfl
      | infinite s => rfl
      | finite s i =>
          change (if j.val = 0 then if i.val = 0 then nan else infinite (s != t) else _ :
            Binary F).isFinite = false
          rw [if_pos hj]
          split
          · rfl
          · rfl

theorem isFinite_of_convert (h : (a.convert G).isFinite) : a.isFinite := by
  cases a with
  | nan => cases h
  | infinite s => cases h
  | finite s i => rfl

theorem isFinite_of_roundEven (h : a.roundEven.isFinite) : a.isFinite := by
  cases a with
  | nan => cases h
  | infinite s => cases h
  | finite s i => rfl

/-! ## Choices -/

theorem min_eq (ha : a ≠ .nan) (b : Binary F) : a.min b = if b.lt a then b else a := by
  cases a with
  | nan => exact absurd rfl ha
  | infinite s => cases b <;> rfl
  | finite s i => cases b <;> rfl

theorem max_eq (ha : a ≠ .nan) (b : Binary F) : a.max b = if a.lt b then b else a := by
  cases a with
  | nan => exact absurd rfl ha
  | infinite s => cases b <;> rfl
  | finite s i => cases b <;> rfl

theorem min_finite (ha : a.isFinite) (hb : b.isFinite) :
    (a.min b).isFinite ∧ (a.min b).toRat = a.toRat ⊓ b.toRat := by
  rw [min_eq (ne_nan ha)]
  split
  · next h => exact ⟨hb, (inf_eq_right.mpr (le_of_lt ((lt_iff hb ha).mp h))).symm⟩
  · next h =>
      exact ⟨ha, (inf_eq_left.mpr ((lt_eq_false_iff hb ha).mp (Bool.eq_false_iff.mpr h))).symm⟩

theorem max_finite (ha : a.isFinite) (hb : b.isFinite) :
    (a.max b).isFinite ∧ (a.max b).toRat = a.toRat ⊔ b.toRat := by
  rw [max_eq (ne_nan ha)]
  split
  · next h => exact ⟨hb, (sup_eq_right.mpr (le_of_lt ((lt_iff ha hb).mp h))).symm⟩
  · next h =>
      exact ⟨ha, (sup_eq_left.mpr ((lt_eq_false_iff ha hb).mp (Bool.eq_false_iff.mpr h))).symm⟩

theorem clamp_finite {low high : Binary F} (ha : a.isFinite) (hlow : low.isFinite)
    (hhigh : high.isFinite) :
    (a.clamp low high).isFinite ∧
      (a.clamp low high).toRat = (a.toRat ⊔ low.toRat) ⊓ high.toRat := by
  have hraised : (if a.lt low then low else a).isFinite ∧
      (if a.lt low then low else a).toRat = a.toRat ⊔ low.toRat := by
    split
    · next h => exact ⟨hlow, (sup_eq_right.mpr (le_of_lt ((lt_iff ha hlow).mp h))).symm⟩
    · next h =>
        exact ⟨ha, (sup_eq_left.mpr
          ((lt_eq_false_iff ha hlow).mp (Bool.eq_false_iff.mpr h))).symm⟩
  obtain ⟨hfinite, hvalue⟩ := hraised
  rw [clamp]
  generalize (if a.lt low then low else a) = raised at hfinite hvalue
  rw [← hvalue]
  split
  · next h => exact ⟨hhigh, (inf_eq_right.mpr (le_of_lt ((lt_iff hhigh hfinite).mp h))).symm⟩
  · next h =>
      exact ⟨hfinite, (inf_eq_left.mpr
        ((lt_eq_false_iff hhigh hfinite).mp (Bool.eq_false_iff.mpr h))).symm⟩

/-! ## Magnitudes -/

/-- The largest finite value. -/
def largest (F : Format) : Binary F :=
  .finite false ⟨F.magnitudes - 1, Nat.sub_one_lt (Nat.ne_of_gt F.magnitudes_pos)⟩

theorem isFinite_largest : (largest F).isFinite = true := rfl

theorem abs_toRat_le (ha : a.isFinite) : |a.toRat| ≤ (largest F).toRat := by
  obtain ⟨s, i, rfl⟩ := exists_finite ha
  have hi := F.unitsOf_le (Nat.le_sub_one_of_lt i.isLt)
  rw [toRat_finite, largest, toRat_finite, abs_div, abs_of_pos F.unitsPerOne_cast_pos,
    ← Int.cast_abs, abs_signed]
  exact div_le_div_of_nonneg_right (Int.cast_le.mpr (Int.ofNat_le.mpr hi))
    (le_of_lt F.unitsPerOne_cast_pos)

/-- Every short coefficient times a power of two that is not past the largest magnitude is the
magnitude of a value. -/
theorem exists_toRat_eq (s : Bool) {coefficient spacing : Nat}
    (hle : coefficient ≤ 2 * 2 ^ F.fractionBits)
    (htop : coefficient * 2 ^ spacing ≤ F.unitsOf (F.magnitudes - 1)) :
    ∃ a : Binary F, a.isFinite ∧
      a.toRat = (signed s (coefficient * 2 ^ spacing) : ℚ) / F.unitsPerOne := by
  obtain ⟨index, hindex⟩ := F.exists_unitsOf_eq hle spacing
  rw [← hindex] at htop
  have hlt : index < F.magnitudes :=
    Nat.lt_of_le_of_lt (F.strictMono_unitsOf.le_iff_le.mp htop)
      (Nat.sub_one_lt (Nat.ne_of_gt F.magnitudes_pos))
  refine ⟨.finite s ⟨index, hlt⟩, rfl, ?_⟩
  rw [toRat_finite, ← hindex]

/-! ## Formats within formats -/

end Binary

theorem Format.exists_coefficient (F : Format) (i : Nat) :
    ∃ coefficient spacing, coefficient ≤ 2 * 2 ^ F.fractionBits ∧
      (spacing = 0 ∨ 2 ^ F.fractionBits ≤ coefficient) ∧
      F.unitsOf i = coefficient * 2 ^ spacing := by
  have hden : 0 < 1 := Nat.one_pos
  refine ⟨F.coefficientOf (F.unitsOf i) 1, F.spacingOf (F.unitsOf i) 1, F.coefficientOf_le hden,
    ?_, ?_⟩
  · by_cases hspacing : F.spacingOf (F.unitsOf i) 1 = 0
    · exact .inl hspacing
    · exact .inr (F.le_coefficientOf hden hspacing)
  · rw [← F.unitsOf_nearestIndex hden, F.nearestIndex_unitsOf]

/-- Twice a value is a value, unless it is past the largest, and no smaller number is rounded
past it. -/
theorem Binary.Rounds.le_double {F : Format} {x : ℚ} {a m : Binary F} (ha : Binary.Rounds x a)
    (hfinite : a.isFinite) (hm : m.isFinite) (hpos : 0 ≤ m.toRat) (h : x ≤ 2 * m.toRat) :
    a.toRat ≤ 2 * m.toRat := by
  by_cases hfits : 2 * m.toRat ≤ (Binary.largest F).toRat
  · have hfound : ∃ b : Binary F, b.isFinite ∧ b.toRat = 2 * m.toRat := by
      have hone := F.unitsPerOne_cast_pos
      obtain ⟨s, i, rfl⟩ := Binary.exists_finite hm
      obtain ⟨coefficient, spacing, hle, -, hunits⟩ := F.exists_coefficient i
      have hvalue : (Binary.finite s i : Binary F).toRat =
          ((coefficient * 2 ^ spacing : Nat) : ℚ) / F.unitsPerOne := by
        rw [← abs_of_nonneg hpos, ← Binary.toRat_abs, ← hunits]
        rfl
      have htop : coefficient * 2 ^ (spacing + 1) ≤ F.unitsOf (F.magnitudes - 1) := by
        have hlargest : (Binary.largest F).toRat =
            (F.unitsOf (F.magnitudes - 1) : ℚ) / F.unitsPerOne := rfl
        rw [hvalue, hlargest, ← mul_div_assoc, div_le_div_iff_of_pos_right hone] at hfits
        rw [Nat.pow_succ', Nat.mul_left_comm]
        exact_mod_cast hfits
      obtain ⟨b, hb, hdouble⟩ := Binary.exists_toRat_eq false hle htop
      refine ⟨b, hb, ?_⟩
      rw [hdouble, hvalue, Nat.pow_succ', Nat.mul_left_comm]
      simp only [Binary.signed, Bool.false_eq_true, if_false]
      push_cast
      ring
    obtain ⟨b, hb, hvalue⟩ := hfound
    rw [← hvalue] at h ⊢
    exact ha.toRat_le (Binary.Rounds.self hb) hfinite hb h
  · have hlargest := Binary.abs_toRat_le hfinite
    linarith [le_abs_self a.toRat]

/-- All magnitudes of one format are found in another, whose unit is that many times smaller. -/
structure Format.Within (F G : Format) (spacing : Nat) : Prop where
  fractionBits : F.fractionBits ≤ G.fractionBits
  unitsPerOne : G.unitsPerOne = F.unitsPerOne * 2 ^ spacing
  largest : F.unitsOf (F.magnitudes - 1) * 2 ^ spacing ≤ G.unitsOf (G.magnitudes - 1)

namespace Binary

variable {F G : Format} {a b : Binary F}

/-- A value is brought into a format that has its magnitude without loss. -/
theorem convert_finite {spacing : Nat} (h : F.Within G spacing) (ha : a.isFinite) :
    (a.convert G).isFinite ∧ (a.convert G).toRat = a.toRat := by
  have hfound : ∃ b : Binary G, b.isFinite ∧ b.toRat = a.toRat := by
    obtain ⟨s, i, rfl⟩ := exists_finite ha
    obtain ⟨coefficient, doublings, hle, -, hunits⟩ := F.exists_coefficient i
    have htop : coefficient * 2 ^ (doublings + spacing) ≤ G.unitsOf (G.magnitudes - 1) := by
      rw [Nat.pow_add, ← Nat.mul_assoc, ← hunits]
      exact Nat.le_trans (Nat.mul_le_mul_right _ (F.unitsOf_le (Nat.le_sub_one_of_lt i.isLt)))
        h.largest
    have hshort : coefficient ≤ 2 * 2 ^ G.fractionBits :=
      Nat.le_trans hle (Nat.mul_le_mul_left 2 (Nat.pow_le_pow_right (by decide) h.fractionBits))
    obtain ⟨b, hb, hvalue⟩ := exists_toRat_eq s hshort htop
    refine ⟨b, hb, ?_⟩
    have hF := F.unitsPerOne_cast_pos
    rw [hvalue, toRat_finite, h.unitsPerOne, hunits, Nat.pow_add, ← Nat.mul_assoc,
      ← signed_mul_natCast]
    push_cast
    field_simp
  obtain ⟨b, hb, hvalue⟩ := hfound
  rw [← hvalue]
  refine Rounds.exact ?_ hb
  rw [hvalue]
  exact convert_rounds G ha

end Binary

/-- A single has all magnitudes of a storage format. -/
theorem FloatType.within (type : FloatType) : ∃ spacing, type.format.Within .single spacing := by
  cases type with
  | f32 => exact ⟨0, by decide, by decide, by decide⟩
  | f16 => exact ⟨125, by decide, by decide, by decide⟩
  | bf16 => exact ⟨16, by decide, by decide, by decide⟩

namespace Binary

variable {type : FloatType}

theorem widen_finite {v : Binary type.format} (hv : v.isFinite) :
    v.widen.isFinite ∧ v.widen.toRat = v.toRat := by
  obtain ⟨spacing, hwithin⟩ := type.within
  exact convert_finite hwithin hv

theorem narrow_of_toRat_eq {a : Single} (ha : a.isFinite) {v : Binary type.format} (hv : v.isFinite)
    (h : a.toRat = v.toRat) :
    (a.narrow type.format).isFinite ∧ (a.narrow type.format).toRat = v.toRat := by
  have hrounds := convert_rounds type.format ha
  rw [h] at hrounds
  exact hrounds.exact hv

/-! ## Whole numbers -/

theorem exists_single_eq (s : Bool) {n : Nat} (hn : n ≤ 2 * 2 ^ 23) :
    ∃ a : Single, a.isFinite ∧ a.toRat = (signed s n : ℚ) := by
  have hone : Format.single.unitsPerOne = 2 ^ 149 := by decide
  have htop : n * 2 ^ 149 ≤ Format.single.unitsOf (Format.single.magnitudes - 1) :=
    Nat.le_trans (Nat.mul_le_mul_right _ hn) (by decide)
  obtain ⟨a, ha, hvalue⟩ := exists_toRat_eq (F := .single) s hn htop
  refine ⟨a, ha, ?_⟩
  rw [hvalue, hone, ← signed_mul_natCast]
  push_cast
  field_simp

theorem ofRatio_rounds (num : Nat) {den : Nat} (hden : 0 < den) :
    Rounds ((num : ℚ) / den) (ofRatio F num den) := by
  refine ⟨false, num * F.unitsPerOne, den, hden, rfl, ?_⟩
  have hone := F.unitsPerOne_cast_pos
  rw [← signed_mul_natCast]
  simp only [signed, Bool.false_eq_true, if_false]
  push_cast
  field_simp

theorem ofNat_finite {n : Nat} (hn : n ≤ 2 * 2 ^ 23) :
    (ofNat .single n).isFinite ∧ (ofNat .single n).toRat = n := by
  obtain ⟨a, ha, hvalue⟩ := exists_single_eq false hn
  have hvalue : a.toRat = n := hvalue
  have hrounds : Rounds (n : ℚ) (ofNat .single n) := by
    have hratio := ofRatio_rounds (F := .single) n Nat.one_pos
    rwa [Nat.cast_one, div_one] at hratio
  rw [← hvalue] at hrounds ⊢
  exact hrounds.exact ha

theorem toRat_one_half : (ofRatio .single 1 2).toRat = 1 / 2 := by
  have hunits : (ofRatio .single 1 2).units = 2 ^ 148 := by decide
  have hone : Format.single.unitsPerOne = 2 ^ 149 := by decide
  rw [toRat, hunits, hone]
  norm_num

/-- The whole number nearest to a finite value. -/
def nearestInt : Binary F → Int
  | .finite s i => signed s (nearestEven (F.unitsOf i) F.unitsPerOne)
  | _ => 0

theorem abs_nearestInt_sub_le {a : Binary F} (ha : a.isFinite) :
    |(a.nearestInt : ℚ) - a.toRat| ≤ 1 / 2 := by
  obtain ⟨s, i, rfl⟩ := exists_finite ha
  have hone := F.unitsPerOne_cast_pos
  have hup := two_mul_nearestEven_le (F.unitsOf i) F.unitsPerOne
  have hdown := two_mul_le_nearestEven (F.unitsOf i) F.unitsPerOne_pos
  rw [nearestInt, toRat_finite]
  generalize nearestEven (F.unitsOf i) F.unitsPerOne = n at hup hdown
  generalize F.unitsOf i = units at hup hdown
  have hup : (2 * (n * F.unitsPerOne) : ℚ) ≤ 2 * units + F.unitsPerOne := by exact_mod_cast hup
  have hdown : (2 * units : ℚ) ≤ 2 * (n * F.unitsPerOne) + F.unitsPerOne := by exact_mod_cast hdown
  have hquotient : (n : ℚ) - 1 / 2 ≤ units / F.unitsPerOne ∧
      units / F.unitsPerOne ≤ (n : ℚ) + 1 / 2 := by
    rw [le_div_iff₀ hone, div_le_iff₀ hone]
    constructor <;> linarith
  rw [abs_le]
  cases s with
  | false =>
      simp only [signed, Bool.false_eq_true, if_false, Int.cast_natCast]
      constructor <;> linarith [hquotient.1, hquotient.2]
  | true =>
      simp only [signed, if_true, Int.cast_neg, Int.cast_natCast, neg_div]
      constructor <;> linarith [hquotient.1, hquotient.2]

theorem nearestInt_le {a b : Binary F} (ha : a.isFinite) (hb : b.isFinite)
    (h : a.toRat ≤ b.toRat) : a.nearestInt ≤ b.nearestInt := by
  obtain ⟨s, i, rfl⟩ := exists_finite ha
  obtain ⟨t, j, rfl⟩ := exists_finite hb
  rw [toRat_finite, toRat_finite, div_le_div_iff_of_pos_right F.unitsPerOne_cast_pos,
    Int.cast_le] at h
  have hmono : Monotone fun units => nearestEven units F.unitsPerOne :=
    fun _ _ hle => nearestEven_le F.unitsPerOne_pos hle
  exact signed_le hmono ((nearestEven_eq_zero_iff F.unitsPerOne_pos).mpr (Nat.zero_le _)) h

theorem nearestInt_abs (a : Binary F) : a.abs.nearestInt = |a.nearestInt| := by
  cases a with
  | nan => rfl
  | infinite s => rfl
  | finite s i => exact (abs_signed s _).symm

theorem nearestInt_eq_zero_iff {a : Binary F} (ha : a.isFinite) :
    a.nearestInt = 0 ↔ |a.toRat| ≤ 1 / 2 := by
  obtain ⟨s, i, rfl⟩ := exists_finite ha
  have hzero : signed s (nearestEven (F.unitsOf i) F.unitsPerOne) = 0 ↔
      nearestEven (F.unitsOf i) F.unitsPerOne = 0 := by
    rw [← abs_eq_zero, abs_signed, Int.natCast_eq_zero]
  rw [nearestInt, hzero, nearestEven_eq_zero_iff F.unitsPerOne_pos, toRat_finite, abs_div,
    abs_of_pos F.unitsPerOne_cast_pos, ← Int.cast_abs, abs_signed, Int.cast_natCast,
    div_le_div_iff₀ F.unitsPerOne_cast_pos (by decide), Rat.mul_comm _ 2, one_mul]
  exact_mod_cast Iff.rfl

/-- A single is brought to the nearest whole number exactly. -/
theorem roundEven_finite {a : Single} (ha : a.isFinite) :
    a.roundEven.isFinite ∧ a.roundEven.toRat = a.nearestInt := by
  have hrounds : Rounds (a.nearestInt : ℚ) a.roundEven := by
    obtain ⟨s, i, rfl⟩ := exists_finite ha
    refine ⟨s, _, 1, Nat.one_pos, rfl, ?_⟩
    have hone := Format.single.unitsPerOne_cast_pos
    rw [nearestInt, ← signed_mul_natCast]
    push_cast
    field_simp
  have hfound : ∃ b : Single, b.isFinite ∧ b.toRat = a.nearestInt := by
    obtain ⟨s, i, rfl⟩ := exists_finite ha
    have hone : Format.single.unitsPerOne = 2 ^ 149 := by decide
    have hbits : Format.single.fractionBits = 23 := rfl
    obtain ⟨coefficient, spacing, hle, -, hunits⟩ := Format.single.exists_coefficient i
    rw [hbits] at hle
    rw [nearestInt, hunits, hone]
    by_cases hlarge : 149 ≤ spacing
    · -- The value is whole itself.
      have hwhole : coefficient * 2 ^ spacing = coefficient * 2 ^ (spacing - 149) * 2 ^ 149 := by
        rw [Nat.mul_assoc, ← Nat.pow_add, Nat.sub_add_cancel hlarge]
      refine ⟨_, ha, ?_⟩
      rw [toRat_finite, hunits, hone, hwhole, nearestEven_mul _ (Nat.two_pow_pos _),
        ← signed_mul_natCast]
      push_cast
      field_simp
    · -- The whole number is short enough to be a single.
      have hsmall : coefficient * 2 ^ spacing ≤ 2 ^ 23 * 2 ^ 149 := by
        have hpow : 2 ^ spacing ≤ 2 ^ 148 := Nat.pow_le_pow_right (by decide) (by omega)
        exact Nat.le_trans (Nat.mul_le_mul hle hpow) (by decide)
      have hn := nearestEven_le_of_le (Nat.two_pow_pos 149) hsmall
      exact exists_single_eq s (Nat.le_trans hn (by decide))
  obtain ⟨b, hb, hvalue⟩ := hfound
  rw [← hvalue] at hrounds ⊢
  exact hrounds.exact hb

theorem isZero_roundEven_iff {a : Single} (ha : a.isFinite) :
    a.roundEven.isZero = true ↔ |a.toRat| ≤ 1 / 2 := by
  obtain ⟨hfinite, hvalue⟩ := roundEven_finite ha
  rw [isZero_iff hfinite, hvalue, Int.cast_eq_zero, nearestInt_eq_zero_iff ha]

end Binary

end SubByte
