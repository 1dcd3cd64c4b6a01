/-
# Decoding — the error of one code, as numbers

A code is chosen with one scale and decoded with another, the first one as it is stored.  What
is known of the numbers in between is collected in `Decoding`: the code is half a step from the
exact quotient at most; its value is next to the exact value with the stored scale; and this
value is rounded to the grid of the result, which has a gap of its own.

Where steps are larger than gaps no rounding adds more to half a step than another half.  Where
they are smaller the last rounding is larger than a step, but it goes to the nearest multiple of
the gap, and the weight is one itself.  The hard case is a step that is hardly smaller than the
gap.  A weight that is whole gaps away from the bias is then as many steps away, so its code
is this number of gaps (`Decoding.chosen_le`), and the value is too close to the weight to be
rounded to the next multiple (`Decoding.result_sub_weight_le`).
-/
import Mathlib.Algebra.Order.Field.Rat
import Mathlib.Algebra.Order.Ring.Abs
import Mathlib.Tactic.Linarith
import Mathlib.Tactic.NormNum
import Mathlib.Tactic.Ring

namespace SubByte

/-- A weight, its code, the scale that the code is chosen with and the stored scale that it is
decoded with; the value of the code, and the result on a grid that it is rounded to. -/
structure Decoding (code : Nat) (scale stored bias weight value result gap : ℚ) : Prop where
  code_le : code ≤ 255
  chosen : |code * scale - (weight - bias)| ≤ (1 / 2 + 1 / 30000) * |scale|
  decoded : |value - (code * stored + bias)| ≤
    (|scale| + |scale - stored|) / 55000 + gap / 7000
  gap_pos : 0 < gap
  multiple : ∃ m : ℤ, result = m * gap
  rounded : |result - value| ≤ gap / 2
  grid : ((∃ i : ℤ, weight = i * gap) ∧ ∃ j : ℤ, bias = j * gap) ∨
    gap / 2 + |result - value| ≤ |value - weight|

namespace Decoding

variable {code : Nat} {scale stored bias weight value result gap : ℚ}
  (h : Decoding code scale stored bias weight value result gap)
include h

/-- The value of the code is as far from the weight as the code from the quotient, but for the
difference of the scales and for roundings. -/
theorem value_sub_le : |value - weight| ≤ |code * scale - (weight - bias)| +
    code * |scale - stored| + (|scale| + |scale - stored|) / 55000 + gap / 7000 := by
  have hsplit : value - weight = (value - (code * stored + bias)) +
      (code * scale - (weight - bias)) + code * (stored - scale) := by ring
  have htriangle := abs_add_three (value - (code * stored + bias))
    (code * scale - (weight - bias)) (code * (stored - scale))
  rw [← hsplit, abs_mul, Nat.abs_cast, abs_sub_comm stored] at htriangle
  linarith [h.decoded]

theorem result_sub_le : |result - weight| ≤ gap / 2 + |value - weight| :=
  le_trans (abs_sub_le result value weight) (add_le_add_left h.rounded _)

/-- A result that is further away than the bound is close to half a gap from its value, and the
value to half as far from the weight as the result. -/
theorem value_sub_le_half
    (hfar : |scale| + 3 * (code * |scale - stored|) + 2 * |scale - stored| < |result - weight|) :
    |value - weight| ≤ gap / 7000 + (1 / 2 + 1 / 15000) * |result - weight| ∧
      |result - weight| ≤ 10005 / 10000 * gap := by
  have hvalue := h.value_sub_le
  have hresult := h.result_sub_le
  have hchosen := h.chosen
  have hgap := h.gap_pos
  have hscale := abs_nonneg scale
  have hdifference := abs_nonneg (scale - stored)
  have hproduct : 0 ≤ code * |scale - stored| := mul_nonneg (Nat.cast_nonneg code) hdifference
  have hhalf : |value - weight| ≤ gap / 7000 + (1 / 2 + 1 / 15000) * |result - weight| := by
    linarith
  exact ⟨hhalf, by linarith⟩

theorem one_gap
    (hfar : |scale| + 3 * (code * |scale - stored|) + 2 * |scale - stored| < |result - weight|) :
    |result - weight| = gap ∧ ∃ n : ℤ, weight - bias = n * gap := by
  obtain ⟨hhalf, hnear⟩ := h.value_sub_le_half hfar
  have hgap := h.gap_pos
  have hrounded := abs_nonneg (result - value)
  have hscale := abs_nonneg scale
  have hdifference := abs_nonneg (scale - stored)
  have hproduct : 0 ≤ code * |scale - stored| := mul_nonneg (Nat.cast_nonneg code) hdifference
  rcases h.grid with ⟨⟨i, hi⟩, ⟨j, hj⟩⟩ | hfiner
  · obtain ⟨m, hm⟩ := h.multiple
    refine ⟨?_, i - j, by rw [hi, hj, Int.cast_sub, sub_mul]⟩
    have hwhole : |result - weight| = |m - i| * gap := by
      rw [hm, hi, ← sub_mul, abs_mul, abs_of_pos hgap, ← Int.cast_sub, ← Int.cast_abs]
    have hpos : 0 < |m - i| := by
      refine lt_of_le_of_ne (abs_nonneg _) fun hzero => ?_
      rw [← hzero, Int.cast_zero, zero_mul] at hwhole
      linarith
    have hlt : |m - i| < 2 := by
      by_contra hmany
      have hmany : (2 : ℚ) ≤ (|m - i| : ℤ) := by exact_mod_cast not_lt.mp hmany
      have hdouble := mul_le_mul_of_nonneg_right hmany (le_of_lt hgap)
      linarith
    rw [hwhole, show |m - i| = 1 by omega, Int.cast_one, one_mul]
  · -- Below the grid the result is nearer to the value than the weight is.
    have htriangle := abs_sub_le result value weight
    linarith

/-- A code that is half a step from a whole number of gaps is this number, when a step is hardly
smaller than a gap. -/
theorem chosen_le (hsmall : |scale| ≤ gap) (hlarge : 799 / 800 * gap ≤ |scale|)
    (hwhole : ∃ n : ℤ, weight - bias = n * gap) :
    |code * scale - (weight - bias)| ≤ 255 / 800 * gap := by
  have hgap := h.gap_pos
  have hcode : (code : ℚ) ≤ 255 := by exact_mod_cast h.code_le
  have hchosen := h.chosen
  have hsigned : ∃ n : ℤ, |code * scale - (weight - bias)| = |code * |scale| - n * gap| := by
    obtain ⟨n, hn⟩ := hwhole
    rcases le_total 0 scale with hpos | hneg
    · exact ⟨n, by rw [hn, abs_of_nonneg hpos]⟩
    · refine ⟨-n, ?_⟩
      rw [hn, abs_of_nonpos hneg, abs_sub_comm, Int.cast_neg]
      congr 1
      ring
  obtain ⟨n, hn⟩ := hsigned
  rw [hn] at hchosen ⊢
  obtain ⟨hlower, hupper⟩ := abs_le.mp hchosen
  have hcodeLe : (code : ℚ) * |scale| ≤ code * gap :=
    mul_le_mul_of_nonneg_left hsmall (Nat.cast_nonneg code)
  have hcodeGe : (code : ℚ) * gap - 255 / 800 * gap ≤ code * |scale| := by
    have hpos : (0 : ℚ) ≤ code := Nat.cast_nonneg code
    have hmost := mul_le_mul_of_nonneg_left hlarge hpos
    have hloss := mul_le_mul_of_nonneg_right hcode (le_of_lt hgap)
    linarith
  -- The whole number of gaps is less than one away from the code on either side.
  have hequal : n = code := by
    have hbelow : (n : ℚ) < code + 1 := by
      by_contra hge
      have hmore := mul_le_mul_of_nonneg_right (not_lt.mp hge) (le_of_lt hgap)
      linarith
    have habove : (code : ℚ) < n + 1 := by
      by_contra hge
      have hless := mul_le_mul_of_nonneg_right (not_lt.mp hge) (le_of_lt hgap)
      linarith
    have hbelow : n < code + 1 := by exact_mod_cast hbelow
    have habove : (code : ℤ) < n + 1 := by exact_mod_cast habove
    omega
  rw [hequal, Int.cast_natCast, abs_le]
  constructor <;> linarith

/-- The result is at most one stored step away from the weight, but for the difference of the
scales, which counts as often as the code. -/
theorem result_sub_weight_le :
    |result - weight| ≤ |stored| + 3 * (code + 1) * |scale - stored| := by
  have hgap := h.gap_pos
  have hscale := abs_nonneg scale
  have hdifference := abs_nonneg (scale - stored)
  have hproduct : 0 ≤ code * |scale - stored| := mul_nonneg (Nat.cast_nonneg code) hdifference
  have hstored : |scale| - |scale - stored| ≤ |stored| := by
    linarith [abs_sub_abs_le_abs_sub scale stored]
  by_contra hle
  have hfar : |scale| + 3 * (code * |scale - stored|) + 2 * |scale - stored| <
      |result - weight| := by
    linarith [not_le.mp hle]
  obtain ⟨hone, hwhole⟩ := h.one_gap hfar
  rw [hone] at hfar
  -- One gap is more than a step, so the value is half a gap away from the weight or more.
  have hresult := h.result_sub_le
  have hvalue := h.value_sub_le
  have hchosen := h.chosen
  have hlarge : 799 / 800 * gap ≤ |scale| := by linarith
  have hexact := h.chosen_le (by linarith) hlarge hwhole
  linarith

end Decoding

end SubByte
