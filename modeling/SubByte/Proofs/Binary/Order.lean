/-
# Order — magnitudes grow with their index

The order of values is that of their signed indices, and is the order of the numbers they
stand for because a magnitude grows with its index (`unitsOf_lt`): within one exponent
field by whole steps, and from the last fraction of a field to the first of the next by
one step more.

From this the whole part of a value follows the order (`toWord_le`), and a value held
between two bounds has no larger whole part than the upper one, whatever the value is:
what is no number has none.
-/
import Mathlib.Algebra.Group.Nat.Defs
import Mathlib.Order.Monotone.Basic
import SubByte.Binary.Arithmetic

namespace SubByte

namespace Format

variable (F : Format)

theorem unitsOf_fields (field : Nat) {fraction : Nat} (h : fraction < 2 ^ F.fractionBits) :
    F.unitsOf (2 ^ F.fractionBits * field + fraction) =
      if field = 0 then fraction else (2 ^ F.fractionBits + fraction) * 2 ^ (field - 1) := by
  have hpos := Nat.two_pow_pos F.fractionBits
  simp only [unitsOf, Nat.shiftRight_eq_div_pow, Nat.shiftLeft_eq, Nat.one_mul,
    Nat.mul_add_div hpos, Nat.div_eq_of_lt h, Nat.mul_add_mod, Nat.mod_eq_of_lt h, Nat.add_zero]

theorem unitsOf_lt_succ (i : Nat) : F.unitsOf i < F.unitsOf (i + 1) := by
  have hfraction := Nat.mod_lt i (Nat.two_pow_pos F.fractionBits)
  have hsplit := Nat.div_add_mod i (2 ^ F.fractionBits)
  generalize i / 2 ^ F.fractionBits = field at hsplit
  generalize i % 2 ^ F.fractionBits = fraction at hsplit hfraction
  subst hsplit
  by_cases hlast : fraction + 1 < 2 ^ F.fractionBits
  · -- The next fraction of the same field.
    rw [Nat.add_assoc, unitsOf_fields F field hfraction, unitsOf_fields F field hlast]
    split
    · exact Nat.lt_succ_self fraction
    · exact Nat.mul_lt_mul_of_pos_right (by omega) (Nat.two_pow_pos _)
  · -- The first fraction of the next field.
    have hnext : 2 ^ F.fractionBits * field + fraction + 1 =
        2 ^ F.fractionBits * (field + 1) + 0 := by
      rw [Nat.mul_succ]
      omega
    rw [hnext, unitsOf_fields F field hfraction, unitsOf_fields F _ (Nat.two_pow_pos _),
      if_neg (Nat.succ_ne_zero field), Nat.add_sub_cancel, Nat.add_zero]
    cases field with
    | zero => simpa using hfraction
    | succ field =>
        rw [if_neg (Nat.succ_ne_zero field), Nat.add_sub_cancel, Nat.pow_succ 2 field,
          Nat.mul_comm (2 ^ field), ← Nat.mul_assoc]
        exact Nat.mul_lt_mul_of_pos_right (by omega) (Nat.two_pow_pos field)

theorem unitsOf_lt {i j : Nat} (h : i < j) : F.unitsOf i < F.unitsOf j :=
  strictMono_nat_of_lt_succ F.unitsOf_lt_succ h

theorem unitsOf_le {i j : Nat} (h : i ≤ j) : F.unitsOf i ≤ F.unitsOf j :=
  (strictMono_nat_of_lt_succ F.unitsOf_lt_succ).monotone h

@[simp] theorem unitsOf_zero : F.unitsOf 0 = 0 := by
  have hzero := F.unitsOf_fields 0 (Nat.two_pow_pos F.fractionBits)
  simpa using hzero

end Format

namespace Binary

variable {F : Format}

theorem lt_irrefl (a : Binary F) : a.lt a = false := by
  rw [lt]
  cases a.rank? with
  | none => rfl
  | some x => exact decide_eq_false (Int.lt_irrefl x)

theorem lt_clamp (a low high : Binary F) : high.lt (a.clamp low high) = false := by
  rw [clamp]
  generalize (if a.lt low then low else a) = raised
  by_cases h : high.lt raised = true
  · simp only [h, if_true]
    exact lt_irrefl high
  · simp only [h]
    exact Bool.eq_false_iff.mpr h

theorem toWord_le_limit (a : Binary F) : a.toWord ≤ 4294967295 := by
  cases a with
  | nan => exact Nat.zero_le _
  | infinite s =>
      rw [toWord]
      split <;> decide
  | finite s i =>
      rw [toWord]
      split
      · exact Nat.zero_le _
      · exact Nat.min_le_right _ _

theorem rank_le {a b : Binary F} {x y : Int} (h : b.lt a = false) (ha : a.rank? = some x)
    (hb : b.rank? = some y) : x ≤ y := by
  rw [lt, hb, ha] at h
  exact Int.not_lt.mp (of_decide_eq_false h)

/-- The whole part follows the order of the values; that of a negative value is zero, as is
that of what is no number. -/
theorem toWord_le {a b : Binary F} (hb : b ≠ .nan) (h : b.lt a = false) : a.toWord ≤ b.toWord := by
  -- Negative values and what is no number have the whole part zero; the rest are two magnitudes.
  cases a with
  | nan => exact Nat.zero_le _
  | infinite s =>
      cases s with
      | true => exact Nat.zero_le _
      | false =>
          have hpos := F.magnitudes_pos
          cases b with
          | nan => exact absurd rfl hb
          | infinite t =>
              cases t with
              | true =>
                  have hle : (F.magnitudes : Int) ≤ -(F.magnitudes : Int) := rank_le h rfl rfl
                  omega
              | false => exact Nat.le_refl _
          | finite t j =>
              have hj := j.isLt
              have hle : (F.magnitudes : Int) ≤ signed t j := rank_le h rfl rfl
              rw [signed] at hle
              split at hle <;> omega
  | finite s i =>
      cases s with
      | true => exact Nat.zero_le _
      | false =>
          have hi := i.isLt
          cases b with
          | nan => exact absurd rfl hb
          | infinite t =>
              cases t with
              | true =>
                  have hle : (i : Int) ≤ -(F.magnitudes : Int) := rank_le h rfl rfl
                  omega
              | false => exact toWord_le_limit _
          | finite t j =>
              cases t with
              | true =>
                  have hle : (i : Int) ≤ -(j : Int) := rank_le h rfl rfl
                  have hzero : i.val = 0 := by omega
                  simp [toWord, hzero]
              | false =>
                  have hle : (i : Int) ≤ (j : Int) := rank_le h rfl rfl
                  have hunits := Nat.div_le_div_right (c := F.unitsPerOne)
                    (F.unitsOf_le (Int.ofNat_le.mp hle))
                  exact Nat.le_min.mpr
                    ⟨Nat.le_trans (Nat.min_le_left _ _) hunits, Nat.min_le_right _ _⟩

theorem toWord_clamp_le (a low : Binary F) {high : Binary F} (h : high ≠ .nan) :
    (a.clamp low high).toWord ≤ high.toWord :=
  toWord_le h (lt_clamp a low high)

end Binary

end SubByte
