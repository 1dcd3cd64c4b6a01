/-
# Value — the numbers that finite values stand for

A finite value stands for a rational number (`Binary.toRat`), and values compare as these
numbers do (`lt_iff`).  A number is rounded to a value (`Rounds`) when the value is the
result of the one rounding step that every operation ends in.  Two laws say all that is
used of it: numbers in order are rounded to values in order (`Rounds.mono`), and a finite
result is the nearest whole number of gaps, those that values have around the number
(`Rounds.exists_gap`).  So it is off by one part in `2 ^ (fractionBits + 1)` of the number or
by half a unit (`Rounds.dist_le`).  A value is what its own number is rounded to
(`Rounds.self`), so a number between two values is never rounded past either
(`Rounds.within`).

The sign of a zero is left open throughout: both zeros stand for one number.
-/
import Mathlib.Algebra.Order.Field.Rat
import Mathlib.Tactic.FieldSimp
import Mathlib.Tactic.Linarith
import Mathlib.Tactic.Positivity
import Mathlib.Tactic.Ring
import SubByte.Proofs.Binary.Nearest

namespace SubByte

namespace Format

theorem unitsPerOne_cast_pos (F : Format) : (0 : ℚ) < F.unitsPerOne :=
  Nat.cast_pos.mpr F.unitsPerOne_pos

theorem strictMono_unitsOf (F : Format) : StrictMono F.unitsOf :=
  fun _ _ h => F.unitsOf_lt h

/-- The distance of neighbouring values whose magnitudes are `2 ^ k` units apart. -/
def gap (F : Format) (k : Nat) : ℚ :=
  2 ^ k / F.unitsPerOne

theorem gap_pos (F : Format) (k : Nat) : 0 < F.gap k :=
  div_pos (by positivity) F.unitsPerOne_cast_pos

end Format

namespace Binary

variable {F G : Format}

/-! ## Signs -/

theorem signed_neg (s : Bool) (v : Nat) : signed (!s) v = -signed s v := by
  cases s with
  | false => rfl
  | true => exact (neg_neg (v : Int)).symm

theorem abs_signed (s : Bool) (v : Nat) : |signed s v| = (v : Int) := by
  cases s with
  | false => exact abs_of_nonneg (Int.natCast_nonneg v)
  | true => exact (abs_neg (v : Int)).trans (abs_of_nonneg (Int.natCast_nonneg v))

theorem signed_injective {s t : Bool} {v w : Nat} (h : signed s v = signed t w) :
    v = w ∧ (s = t ∨ v = 0) := by
  have hsize : v = w := by
    have habs : |signed s v| = |signed t w| := congrArg _ h
    rw [abs_signed, abs_signed] at habs
    exact Int.natCast_inj.mp habs
  subst hsize
  refine ⟨rfl, ?_⟩
  cases s <;> cases t <;> simp [signed] at h ⊢ <;> omega

theorem signed_mul (s t : Bool) (v w : Nat) :
    signed s v * signed t w = signed (s != t) (v * w) := by
  cases s <;> cases t <;> simp [signed]

theorem signed_mul_natCast (s : Bool) (v w : Nat) : signed s v * (w : Int) = signed s (v * w) := by
  cases s <;> simp [signed]

theorem signed_natAbs (z : Int) : signed (decide (z < 0)) z.natAbs = z := by
  rw [signed]
  split
  · next h => exact (Int.eq_neg_natAbs_of_nonpos (Int.le_of_lt (of_decide_eq_true h))).symm
  · next h => exact Int.natAbs_of_nonneg (Int.not_lt.mp (of_decide_eq_false (Bool.eq_false_iff.mpr h)))

/-- Signed magnitudes stay in order when a function keeps the order of magnitudes, and
zero in its place. -/
theorem signed_le {f : Nat → Nat} (hf : Monotone f) (hzero : f 0 = 0) {s t : Bool} {i j : Nat}
    (h : signed s i ≤ signed t j) : signed s (f i) ≤ signed t (f j) := by
  have hij : i ≤ j → f i ≤ f j := fun hle => hf hle
  have hji : j ≤ i → f j ≤ f i := fun hle => hf hle
  have hi : i = 0 → f i = 0 := by
    rintro rfl
    exact hzero
  have hj : j = 0 → f j = 0 := by
    rintro rfl
    exact hzero
  cases s <;> cases t <;> simp only [signed, if_true, Bool.false_eq_true, if_false] at h ⊢ <;> omega

theorem signed_lt_iff {f : Nat → Nat} (hf : StrictMono f) (hzero : f 0 = 0) (s t : Bool)
    (i j : Nat) : signed s (f i) < signed t (f j) ↔ signed s i < signed t j := by
  have hij : f i < f j ↔ i < j := hf.lt_iff_lt
  have hji : f j < f i ↔ j < i := hf.lt_iff_lt
  have hi : f i = 0 ↔ i = 0 := by rw [← hf.injective.eq_iff (a := i), hzero]
  have hj : f j = 0 ↔ j = 0 := by rw [← hf.injective.eq_iff (a := j), hzero]
  cases s <;> cases t <;> simp only [signed, if_true, Bool.false_eq_true, if_false] <;> omega

/-! ## Values -/

/-- The number that a finite value stands for. -/
def toRat (a : Binary F) : ℚ :=
  a.units / F.unitsPerOne

theorem exists_finite {a : Binary F} (ha : a.isFinite) : ∃ s i, a = .finite s i := by
  cases a with
  | nan => cases ha
  | infinite s => cases ha
  | finite s i => exact ⟨s, i, rfl⟩

theorem ne_nan {a : Binary F} (ha : a.isFinite) : a ≠ .nan := by
  rintro rfl
  cases ha

theorem toRat_finite (s : Bool) (i : Fin F.magnitudes) :
    (finite s i : Binary F).toRat = (signed s (F.unitsOf i) : ℚ) / F.unitsPerOne := rfl

@[simp] theorem isFinite_zero : (0 : Binary F).isFinite = true := rfl

@[simp] theorem toRat_signedZero (s : Bool) : (zero s : Binary F).toRat = 0 := by
  show ((signed s (F.unitsOf 0) : Int) : ℚ) / F.unitsPerOne = 0
  rw [Format.unitsOf_zero]
  cases s <;> exact zero_div _

@[simp] theorem toRat_zero : (0 : Binary F).toRat = 0 :=
  toRat_signedZero false

@[simp] theorem isFinite_neg (a : Binary F) : (-a).isFinite = a.isFinite := by
  cases a <;> rfl

@[simp] theorem toRat_neg (a : Binary F) : (-a).toRat = -a.toRat := by
  have hunits : (-a).units = -a.units := by
    cases a with
    | nan => rfl
    | infinite s => rfl
    | finite s i => exact signed_neg s _
  rw [toRat, hunits, Int.cast_neg, neg_div]
  rfl

@[simp] theorem isFinite_abs (a : Binary F) : a.abs.isFinite = a.isFinite := by
  cases a <;> rfl

@[simp] theorem toRat_abs (a : Binary F) : a.abs.toRat = |a.toRat| := by
  have hunits : a.abs.units = |a.units| := by
    cases a with
    | nan => rfl
    | infinite s => rfl
    | finite s i => exact (abs_signed s _).symm
  rw [toRat, hunits, Int.cast_abs, toRat, abs_div, abs_of_pos F.unitsPerOne_cast_pos]

/-- Values compare as the numbers they stand for. -/
theorem lt_iff {a b : Binary F} (ha : a.isFinite) (hb : b.isFinite) :
    a.lt b = true ↔ a.toRat < b.toRat := by
  obtain ⟨s, i, rfl⟩ := exists_finite ha
  obtain ⟨t, j, rfl⟩ := exists_finite hb
  rw [toRat_finite, toRat_finite, div_lt_div_iff_of_pos_right F.unitsPerOne_cast_pos, Int.cast_lt,
    signed_lt_iff F.strictMono_unitsOf F.unitsOf_zero]
  exact decide_eq_true_iff

theorem lt_eq_false_iff {a b : Binary F} (ha : a.isFinite) (hb : b.isFinite) :
    a.lt b = false ↔ b.toRat ≤ a.toRat := by
  rw [← not_lt, ← lt_iff ha hb, Bool.not_eq_true]

theorem next_le {i : Nat} (hi : i + 1 < F.magnitudes) {a : Binary F} (ha : a.isFinite)
    (h : (finite false ⟨i, Nat.lt_of_succ_lt hi⟩ : Binary F).toRat < a.toRat) :
    (finite false ⟨i + 1, hi⟩ : Binary F).toRat ≤ a.toRat := by
  have hlt := (lt_iff rfl ha).mpr h
  refine (lt_eq_false_iff ha rfl).mp ?_
  obtain ⟨t, j, rfl⟩ := exists_finite ha
  have hrank : (i : Int) < signed t j := of_decide_eq_true hlt
  exact decide_eq_false (Int.not_lt.mpr hrank)

theorem lt_infinite {a : Binary F} (ha : a.isFinite) :
    a.lt (.infinite false) = true ∧ (infinite true).lt a = true := by
  obtain ⟨s, i, rfl⟩ := exists_finite ha
  have hi := i.isLt
  have hbelow : signed s i < (F.magnitudes : Int) := by
    rw [signed]
    split <;> omega
  have habove : -(F.magnitudes : Int) < signed s i := by
    rw [signed]
    split <;> omega
  exact ⟨decide_eq_true hbelow, decide_eq_true habove⟩

theorem isZero_iff {a : Binary F} (ha : a.isFinite) : a.isZero = true ↔ a.toRat = 0 := by
  obtain ⟨s, i, rfl⟩ := exists_finite ha
  have hindex : i.val = 0 ↔ F.unitsOf i = 0 := by
    rw [← F.strictMono_unitsOf.injective.eq_iff (a := i.val), F.unitsOf_zero]
  rw [isZero, decide_eq_true_iff, hindex, toRat_finite, div_eq_zero_iff,
    or_iff_left (ne_of_gt F.unitsPerOne_cast_pos), Int.cast_eq_zero]
  cases s with
  | false => exact Int.natCast_eq_zero.symm
  | true => exact (neg_eq_zero.trans Int.natCast_eq_zero).symm

/-! ## Rounding -/

/-- A value that a number is rounded to. -/
def Rounds (x : ℚ) (r : Binary F) : Prop :=
  ∃ (s : Bool) (num den : Nat), 0 < den ∧ r = ofUnits F s num den ∧
    x = (signed s num : ℚ) / (den * F.unitsPerOne)

theorem rank?_ofUnits (s : Bool) (num den : Nat) :
    (ofUnits F s num den).rank? =
      some (signed s (Nat.min (F.nearestIndex num den) F.magnitudes)) := by
  rw [ofUnits]
  split
  · next h => exact congrArg (fun i => some (signed s i)) (Nat.min_eq_left (Nat.le_of_lt h)).symm
  · next h => exact congrArg (fun i => some (signed s i)) (Nat.min_eq_right (Nat.not_lt.mp h)).symm

theorem abs_signed_sub (s : Bool) (units num : Nat) {den : Nat} (hden : 0 < den) :
    |(signed s units : ℚ) / F.unitsPerOne - (signed s num : ℚ) / (den * F.unitsPerOne)| =
      |(units * den - num : ℚ)| / (den * F.unitsPerOne) := by
  have hone := F.unitsPerOne_cast_pos
  have hdenPos : (0 : ℚ) < den := Nat.cast_pos.mpr hden
  have hfraction : ∀ v w : ℚ, v / F.unitsPerOne - w / (den * F.unitsPerOne) =
      (v * den - w) / (den * F.unitsPerOne) := by
    intro v w
    field_simp
  rw [hfraction, abs_div, abs_of_pos (mul_pos hdenPos hone)]
  congr 1
  cases s with
  | false => rfl
  | true =>
      simp only [signed, if_true, Int.cast_neg, Int.cast_natCast]
      rw [neg_mul, ← neg_sub', abs_neg]

namespace Rounds

variable {x y : ℚ} {r a b m : Binary F}

/-- Numbers in order are rounded to values in order. -/
theorem mono (ha : Rounds x a) (hb : Rounds y b) (h : x ≤ y) : b.lt a = false := by
  obtain ⟨s, num, den, hden, rfl, rfl⟩ := ha
  obtain ⟨t, num', den', hden', rfl, rfl⟩ := hb
  have hone := F.unitsPerOne_cast_pos
  have hscaled : signed s (num * den') ≤ signed t (num' * den) := by
    rw [div_le_div_iff₀ (by positivity) (by positivity)] at h
    rw [← signed_mul_natCast, ← signed_mul_natCast, ← Int.cast_le (R := ℚ), Int.cast_mul,
      Int.cast_mul, Int.cast_natCast, Int.cast_natCast]
    refine le_of_mul_le_mul_right ?_ hone
    linarith
  -- One function takes both numerators over the common denominator to their places.
  let place : Nat → Nat := fun n => Nat.min (F.nearestIndex n (den * den')) F.magnitudes
  have hmono : Monotone place := fun n n' hle => by
    have hindex := F.nearestIndex_le_of_num_le (Nat.mul_pos hden hden') hle
    exact Nat.le_min.mpr ⟨Nat.le_trans (Nat.min_le_left _ _) hindex, Nat.min_le_right _ _⟩
  have hzero : place 0 = 0 := by
    simp only [place, F.nearestIndex_zero (Nat.mul_pos hden hden')]
    exact Nat.zero_min _
  have hplaces := signed_le hmono hzero hscaled
  have hx : F.nearestIndex (num * den') (den * den') = F.nearestIndex num den :=
    F.nearestIndex_mul_right num den hden'
  have hy : F.nearestIndex (num' * den) (den * den') = F.nearestIndex num' den' := by
    rw [Nat.mul_comm den]
    exact F.nearestIndex_mul_right num' den' hden
  simp only [place, hx, hy] at hplaces
  rw [lt, rank?_ofUnits, rank?_ofUnits]
  exact decide_eq_false (Int.not_lt.mpr hplaces)

/-- A value is what its own number is rounded to. -/
theorem self (ha : a.isFinite) : Rounds a.toRat a := by
  obtain ⟨s, i, rfl⟩ := exists_finite ha
  refine ⟨s, F.unitsOf i, 1, Nat.one_pos, (ofUnits_unitsOf s i).symm, ?_⟩
  rw [toRat_finite, Nat.cast_one, one_mul]

theorem isFinite_of_between {low high : Binary F} (ha : Rounds x a) (hlow : low.isFinite)
    (hhigh : high.isFinite) (hle : low.toRat ≤ x) (hge : x ≤ high.toRat) : a.isFinite := by
  have hbelow := (self hlow).mono ha hle
  have habove := ha.mono (self hhigh) hge
  obtain ⟨s, i, rfl⟩ := exists_finite hlow
  obtain ⟨t, j, rfl⟩ := exists_finite hhigh
  obtain ⟨u, num, den, -, rfl, -⟩ := ha
  have hi := i.isLt
  have hj := j.isLt
  rw [ofUnits] at hbelow habove ⊢
  split
  · rfl
  · next h =>
      rw [dif_neg h] at hbelow habove
      cases u with
      | false =>
          have hrank : (F.magnitudes : Int) ≤ signed t j := rank_le habove rfl rfl
          rw [signed] at hrank
          split at hrank <;> omega
      | true =>
          have hrank : signed s i ≤ -(F.magnitudes : Int) := rank_le hbelow rfl rfl
          rw [signed] at hrank
          split at hrank <;> omega

theorem toRat_le (ha : Rounds x a) (hb : Rounds y b) (hfa : a.isFinite) (hfb : b.isFinite)
    (h : x ≤ y) : a.toRat ≤ b.toRat :=
  (lt_eq_false_iff hfb hfa).mp (ha.mono hb h)

theorem abs (ha : Rounds x a) : Rounds |x| a.abs := by
  obtain ⟨s, num, den, hden, rfl, rfl⟩ := ha
  refine ⟨false, num, den, hden, ?_, ?_⟩
  · rw [ofUnits, ofUnits]
    split <;> rfl
  · have hscale : (0 : ℚ) < den * F.unitsPerOne :=
      mul_pos (Nat.cast_pos.mpr hden) F.unitsPerOne_cast_pos
    rw [abs_div, abs_of_pos hscale, ← Int.cast_abs, abs_signed]
    rfl

theorem ne_nan (ha : Rounds x a) : a ≠ .nan := by
  obtain ⟨s, num, den, -, rfl, -⟩ := ha
  rw [ofUnits]
  split
  · exact Binary.ne_nan rfl
  · intro hnan
    cases hnan

theorem between {low high : Binary F} (ha : Rounds x a) (hlow : low.isFinite)
    (hhigh : high.isFinite) (hle : low.toRat ≤ x) (hge : x ≤ high.toRat) :
    a.isFinite ∧ low.toRat ≤ a.toRat ∧ a.toRat ≤ high.toRat := by
  have hfinite := ha.isFinite_of_between hlow hhigh hle hge
  exact ⟨hfinite, (self hlow).toRat_le ha hlow hfinite hle,
    ha.toRat_le (self hhigh) hfinite hhigh hge⟩

/-- No number is rounded past a value that it is not past. -/
theorem within (ha : Rounds x a) (hm : m.isFinite) (h : |x| ≤ m.toRat) :
    a.isFinite ∧ |a.toRat| ≤ m.toRat := by
  have hneg : (-m).isFinite := by rwa [isFinite_neg]
  have hx := abs_le.mp h
  obtain ⟨hfinite, hlow, hhigh⟩ := ha.between hneg hm (by rw [toRat_neg]; exact hx.1) hx.2
  rw [toRat_neg] at hlow
  exact ⟨hfinite, abs_le.mpr ⟨hlow, hhigh⟩⟩

theorem exact (ha : Rounds m.toRat a) (hm : m.isFinite) : a.isFinite ∧ a.toRat = m.toRat := by
  obtain ⟨hfinite, hlow, hhigh⟩ := ha.between hm hm le_rfl le_rfl
  exact ⟨hfinite, le_antisymm hhigh hlow⟩

theorem nonneg (ha : Rounds x a) (hfinite : a.isFinite) (h : 0 ≤ x) : 0 ≤ a.toRat := by
  have hle := (self (F := F) isFinite_zero).toRat_le ha isFinite_zero hfinite (by rwa [toRat_zero])
  rwa [toRat_zero] at hle

theorem nonpos (ha : Rounds x a) (hfinite : a.isFinite) (h : x ≤ 0) : a.toRat ≤ 0 := by
  have hle := ha.toRat_le (self (F := F) isFinite_zero) hfinite isFinite_zero (by rwa [toRat_zero])
  rwa [toRat_zero] at hle

theorem eq_infinite (ha : Rounds x a) (hfinite : a.isFinite = false) (h : 0 ≤ x) :
    a = .infinite false := by
  have horder := (self (F := F) isFinite_zero).mono ha (by rwa [toRat_zero])
  have hnumber := ha.ne_nan
  cases a with
  | nan => exact absurd rfl hnumber
  | finite s i => cases hfinite
  | infinite s =>
      cases s with
      | false => rfl
      | true =>
          rw [(lt_infinite (F := F) isFinite_zero).2] at horder
          cases horder

theorem mul_nonpos (ha : Rounds x a) (hfinite : a.isFinite) (h : x * y ≤ 0) :
    a.toRat * y ≤ 0 := by
  rcases lt_trichotomy x 0 with hneg | hzero | hpos
  · exact mul_nonpos_of_nonpos_of_nonneg (ha.nonpos hfinite (le_of_lt hneg))
      (nonneg_of_mul_nonpos_right h hneg)
  · have hvalue := le_antisymm (ha.nonpos hfinite (le_of_eq hzero))
      (ha.nonneg hfinite (le_of_eq hzero.symm))
    rw [hvalue, zero_mul]
  · exact mul_nonpos_of_nonneg_of_nonpos (ha.nonneg hfinite (le_of_lt hpos))
      (nonpos_of_mul_nonpos_right h hpos)

/-- A finite result is a whole number of gaps, and none is nearer to the exact result.  The
gaps are those of the magnitudes around it. -/
theorem exists_gap (ha : Rounds x a) (hfinite : a.isFinite) :
    ∃ k, (∃ m : ℤ, a.toRat = m * F.gap k) ∧ |a.toRat - x| ≤ F.gap k / 2 ∧
      |x| ≤ 2 * 2 ^ F.fractionBits * F.gap k ∧
      (k = 0 ∨ 2 ^ F.fractionBits * F.gap k ≤ |x|) := by
  obtain ⟨s, num, den, hden, rfl, rfl⟩ := ha
  have hone := F.unitsPerOne_cast_pos
  have hdenPos : (0 : ℚ) < den := Nat.cast_pos.mpr hden
  have hscale : (0 : ℚ) < den * F.unitsPerOne := mul_pos hdenPos hone
  have hunits : F.unitsOf (F.nearestIndex num den) = F.coefficientOf num den * _ :=
    F.unitsOf_nearestIndex hden
  have hvalue : (ofUnits F s num den).toRat =
      (signed s (F.unitsOf (F.nearestIndex num den)) : ℚ) / F.unitsPerOne := by
    rw [ofUnits] at hfinite ⊢
    split
    · rfl
    · next h =>
        rw [dif_neg h] at hfinite
        cases hfinite
  have habs : |(signed s num : ℚ) / (den * F.unitsPerOne)| = num / (den * F.unitsPerOne) := by
    rw [abs_div, abs_of_pos hscale, ← Int.cast_abs, abs_signed, Int.cast_natCast]
  obtain ⟨hup, hdown⟩ := F.two_mul_units_le num hden
  have hbelow : num < _ := F.quotient_lt hden
  have habove := F.spacing_le num hden
  -- The bounds and the gap are about the same power of two, whichever it is.
  generalize F.spacingOf num den = k at hunits hup hdown hbelow habove
  have hgap : ∀ n : ℚ, n * F.gap k = n * (den * 2 ^ k) / (den * F.unitsPerOne) := by
    intro n
    rw [Format.gap]
    field_simp
  refine ⟨k, ⟨signed s (F.coefficientOf num den), ?_⟩, ?_, ?_, habove.imp_right fun hle => ?_⟩
  · rw [hvalue, hunits, ← signed_mul_natCast, Format.gap]
    push_cast
    ring
  · -- The sign is that of both, and the distance that of the magnitudes.
    rw [hvalue]
    generalize F.unitsOf (F.nearestIndex num den) = U at hup hdown
    have hclose : |(U * den - num : ℚ)| ≤ den * 2 ^ k / 2 := by
      have hup : (2 * (U * den) : ℚ) ≤ 2 * num + den * 2 ^ k := by exact_mod_cast hup
      have hdown : (2 * num : ℚ) ≤ 2 * (U * den) + den * 2 ^ k := by exact_mod_cast hdown
      rw [abs_le]
      constructor <;> linarith
    calc |(signed s U : ℚ) / F.unitsPerOne - (signed s num : ℚ) / (den * F.unitsPerOne)|
        = |(U * den - num : ℚ)| / (den * F.unitsPerOne) := abs_signed_sub s U num hden
      _ ≤ den * 2 ^ k / 2 / (den * F.unitsPerOne) :=
          div_le_div_of_nonneg_right hclose (le_of_lt hscale)
      _ = F.gap k / 2 := by
        rw [← one_mul (F.gap k), hgap, one_mul]
        ring
  · rw [habs, hgap]
    refine div_le_div_of_nonneg_right ?_ (le_of_lt hscale)
    exact_mod_cast le_of_lt hbelow
  · rw [habs, hgap]
    refine div_le_div_of_nonneg_right ?_ (le_of_lt hscale)
    exact_mod_cast hle

/-- A finite result is off by little: by one part in twice the fractions, or by half a
unit. -/
theorem dist_le (ha : Rounds x a) (hfinite : a.isFinite) :
    |a.toRat - x| ≤ |x| / (2 * 2 ^ F.fractionBits) ∨ |a.toRat - x| ≤ 1 / (2 * F.unitsPerOne) := by
  obtain ⟨k, -, hclose, -, rfl | hsmall⟩ := ha.exists_gap hfinite
  · right
    rwa [Format.gap, pow_zero, div_div, Rat.mul_comm] at hclose
  · left
    rw [← le_div_iff₀' (by positivity)] at hsmall
    calc |a.toRat - x| ≤ F.gap k / 2 := hclose
      _ ≤ |x| / 2 ^ F.fractionBits / 2 := by gcongr
      _ = |x| / (2 * 2 ^ F.fractionBits) := by
        rw [div_div, Rat.mul_comm]

theorem dist_le_add (ha : Rounds x a) (hfinite : a.isFinite) :
    |a.toRat - x| ≤ |x| / (2 * 2 ^ F.fractionBits) + 1 / (2 * F.unitsPerOne) := by
  have hone := F.unitsPerOne_cast_pos
  have hrelative : 0 ≤ |x| / (2 * 2 ^ F.fractionBits) := by positivity
  have habsolute : 0 ≤ 1 / (2 * F.unitsPerOne : ℚ) := by positivity
  rcases ha.dist_le hfinite with hle | hle
  · linarith
  · linarith

theorem isFinite_of_le (ha : Rounds x a) (hb : Rounds y b) (hfinite : b.isFinite) (hpos : 0 ≤ x)
    (hle : x ≤ y) : a.isFinite := by
  have horder := ha.mono hb hle
  cases hinfinite : a.isFinite with
  | true => rfl
  | false =>
      rw [ha.eq_infinite hinfinite hpos, (lt_infinite hfinite).1] at horder
      cases horder

end Rounds

end Binary

end SubByte
