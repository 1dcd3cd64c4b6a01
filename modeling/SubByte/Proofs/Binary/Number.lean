/-
# Number — values as numbers, the infinities among them

Every value but `nan` stands for a number, when the infinities are counted as numbers on
either side of the others (`number?`).  The order of the values is that of their numbers
(`le_iff_number`), the choices between two values are the lesser and the greater number
(`number?_min`, `number?_max`), and a number has one value, but for zero, which has two
(`eq_or_zeros`).

Which of the two zeros an operand is shows in the result of a rounded operation only as the
sign of a zero again (`number?_sub_congr`, `number?_div_congr`), for a number is rounded
to one number only (`Rounds.number?_eq`).
-/
import Mathlib.Order.WithBotTop
import SubByte.Proofs.Binary.Monotone

namespace SubByte

/-- The rational numbers between two infinities. -/
abbrev Extended : Type := WithBot (WithTop ℚ)

namespace Binary

variable {F : Format} {a b c d : Binary F} {x y : Extended}

/-- The number that a value stands for. -/
def number? (a : Binary F) : Option Extended :=
  match a with
  | .nan => none
  | .infinite s => some (if s then ⊥ else ⊤)
  | .finite .. => some ((a.toRat : WithTop ℚ) : Extended)

@[simp] theorem number?_nan : (.nan : Binary F).number? = none := rfl

theorem number?_of_finite (ha : a.isFinite) :
    a.number? = some ((a.toRat : WithTop ℚ) : Extended) := by
  obtain ⟨s, i, rfl⟩ := exists_finite ha
  rfl

@[simp] theorem number?_zero (s : Bool) :
    (zero s : Binary F).number? = some (((0 : ℚ) : WithTop ℚ) : Extended) := by
  rw [number?_of_finite rfl, toRat_signedZero]

theorem exists_number (ha : a ≠ .nan) : ∃ x, a.number? = some x := by
  cases a with
  | nan => exact absurd rfl ha
  | infinite s => exact ⟨_, rfl⟩
  | finite s i => exact ⟨_, rfl⟩

theorem ne_nan_of_number (ha : a.number? = some x) : a ≠ .nan := by
  rintro rfl
  cases ha

/-! ## The order -/

/-- Values are in the order of the numbers they stand for. -/
theorem le_iff_number (ha : a.number? = some x) (hb : b.number? = some y) :
    a.le b = true ↔ x ≤ y := by
  constructor
  · intro h
    rcases le_cases h with rfl | rfl | ⟨hfa, hfb, hle⟩
    · cases ha
      exact bot_le
    · cases hb
      exact le_top
    · rw [number?_of_finite hfa] at ha
      rw [number?_of_finite hfb] at hb
      cases ha
      cases hb
      exact WithBot.coe_le_coe.mpr (WithTop.coe_le_coe.mpr hle)
  · intro h
    cases a with
    | nan => cases ha
    | infinite s =>
        cases s with
        | true => exact infinite_le (ne_nan_of_number hb)
        | false =>
            cases ha
            -- Only the infinity itself is as large as the infinity.
            have htop : y = ⊤ := top_le_iff.mp h
            cases b with
            | nan => cases hb
            | infinite t =>
                cases t with
                | true =>
                    cases hb
                    cases htop
                | false => exact le_infinite (by intro hnan; cases hnan)
            | finite t j =>
                cases hb
                cases htop
    | finite s i =>
        cases ha
        cases b with
        | nan => cases hb
        | infinite t =>
            cases t with
            | true =>
                cases hb
                exact absurd h (WithBot.not_coe_le_bot _)
            | false => exact le_infinite (by intro hnan; cases hnan)
        | finite t j =>
            cases hb
            exact (le_iff rfl rfl).mpr (WithTop.coe_le_coe.mp (WithBot.coe_le_coe.mp h))

theorem lt_iff_number (ha : a.number? = some x) (hb : b.number? = some y) :
    a.lt b = true ↔ x < y := by
  rw [← not_le, ← le_iff_number hb ha, le_iff_lt (ne_nan_of_number hb) (ne_nan_of_number ha),
    Bool.not_eq_false]

theorem number?_eq_of_le (hab : a.le b = true) (hba : b.le a = true) : a.number? = b.number? := by
  obtain ⟨hna, hnb⟩ := ne_nan_of_le hab
  obtain ⟨x, hx⟩ := exists_number hna
  obtain ⟨y, hy⟩ := exists_number hnb
  rw [hx, hy, le_antisymm ((le_iff_number hx hy).mp hab) ((le_iff_number hy hx).mp hba)]

theorem eq_or_zeros_of_rank (hna : a ≠ .nan) (h : a.rank? = b.rank?) :
    a = b ∨ ∃ s t, a = zero s ∧ b = zero t := by
  have hpos := F.magnitudes_pos
  cases a with
  | nan => exact absurd rfl hna
  | infinite s =>
      cases b with
      | nan => cases h
      | infinite t =>
          obtain ⟨-, rfl | hnone⟩ := signed_injective (Option.some.inj h)
          · exact .inl rfl
          · omega
      | finite t j =>
          obtain ⟨hsize, -⟩ := signed_injective (Option.some.inj h)
          omega
  | finite s i =>
      cases b with
      | nan => cases h
      | infinite t =>
          obtain ⟨hsize, -⟩ := signed_injective (Option.some.inj h)
          omega
      | finite t j =>
          obtain ⟨hsize, rfl | hnone⟩ := signed_injective (Option.some.inj h)
          · rw [Fin.ext hsize]
            exact .inl rfl
          · right
            refine ⟨s, t, ?_, ?_⟩
            · exact congrArg _ (Fin.ext hnone)
            · exact congrArg _ (Fin.ext (hsize.symm.trans hnone))

/-- Values of one number are equal, or both are zeros. -/
theorem eq_or_zeros (h : a.number? = b.number?) : a = b ∨ ∃ s t, a = zero s ∧ b = zero t := by
  by_cases hna : a = .nan
  · subst hna
    cases b with
    | nan => exact .inl rfl
    | infinite t => cases h
    | finite t j => cases h
  · obtain ⟨x, hx⟩ := exists_number hna
    have hy := h.symm.trans hx
    obtain ⟨p, hp⟩ := exists_rank hna
    obtain ⟨q, hq⟩ := exists_rank (ne_nan_of_number hy)
    have hrank : p = q := le_antisymm
      ((le_iff_rank hp hq).mp ((le_iff_number hx hy).mpr le_rfl))
      ((le_iff_rank hq hp).mp ((le_iff_number hy hx).mpr le_rfl))
    exact eq_or_zeros_of_rank hna (by rw [hp, hq, hrank])

/-! ## Choices -/

theorem min_nan (a : Binary F) : a.min .nan = a := by
  cases a <;> rfl

theorem max_nan (a : Binary F) : a.max .nan = a := by
  cases a <;> rfl

theorem number?_min (ha : a.number? = some x) (hb : b.number? = some y) :
    (a.min b).number? = some (x ⊓ y) := by
  rw [min_eq (ne_nan_of_number ha)]
  split
  · next h => rw [hb, inf_eq_right.mpr (le_of_lt ((lt_iff_number hb ha).mp h))]
  · next h => rw [ha, inf_eq_left.mpr (not_lt.mp fun hlt => h ((lt_iff_number hb ha).mpr hlt))]

theorem number?_max (ha : a.number? = some x) (hb : b.number? = some y) :
    (a.max b).number? = some (x ⊔ y) := by
  rw [max_eq (ne_nan_of_number ha)]
  split
  · next h => rw [hb, sup_eq_right.mpr (le_of_lt ((lt_iff_number ha hb).mp h))]
  · next h => rw [ha, sup_eq_left.mpr (not_lt.mp fun hlt => h ((lt_iff_number ha hb).mpr hlt))]

/-! ## Either zero -/

theorem abs_congr (h : a.number? = b.number?) : a.abs = b.abs := by
  obtain rfl | ⟨s, t, rfl, rfl⟩ := eq_or_zeros h
  · rfl
  · rfl

theorem neg_ne_nan (ha : a ≠ .nan) : -a ≠ .nan := by
  cases a with
  | nan => exact absurd rfl ha
  | infinite s =>
      intro h
      cases h
  | finite s i =>
      intro h
      cases h

theorem isZero_neg (a : Binary F) : (-a).isZero = a.isZero := by
  cases a <;> rfl

/-- A number is rounded to one number. -/
theorem Rounds.number?_eq {q : ℚ} (ha : Rounds q a) (hb : Rounds q b) : a.number? = b.number? :=
  number?_eq_of_le (ha.le hb le_rfl) (hb.le ha le_rfl)

theorem number?_add_zeros (a : Binary F) (s t : Bool) :
    (a + zero s).number? = (a + zero t).number? := by
  cases a with
  | nan => rfl
  | infinite u => rfl
  | finite u i =>
      have hs := add_rounds (a := finite u i) (b := zero s) rfl rfl
      have ht := add_rounds (a := finite u i) (b := zero t) rfl rfl
      rw [toRat_signedZero] at hs ht
      exact hs.number?_eq ht

theorem number?_zeros_sub (b : Binary F) (s t : Bool) :
    (zero s - b).number? = (zero t - b).number? := by
  cases b with
  | nan => rfl
  | infinite u => rfl
  | finite u i =>
      have hs := sub_rounds (a := zero s) (b := finite u i) rfl rfl
      have ht := sub_rounds (a := zero t) (b := finite u i) rfl rfl
      rw [toRat_signedZero] at hs ht
      exact hs.number?_eq ht

/-- The number of a difference is that of the numbers of its operands. -/
theorem number?_sub_congr (hac : a.number? = c.number?) (hbd : b.number? = d.number?) :
    (a - b).number? = (c - d).number? := by
  have hleft : (a - b).number? = (c - b).number? := by
    obtain rfl | ⟨s, t, rfl, rfl⟩ := eq_or_zeros hac
    · rfl
    · exact number?_zeros_sub b s t
  have hright : (c - b).number? = (c - d).number? := by
    obtain rfl | ⟨s, t, rfl, rfl⟩ := eq_or_zeros hbd
    · rfl
    · exact number?_add_zeros c (!s) (!t)
  exact hleft.trans hright

theorem zero_div_finite (s : Bool) (hb : b ≠ .nan) (hzero : b.isZero = false) :
    (zero s / b).isFinite ∧ (zero s / b).toRat = 0 := by
  cases b with
  | nan => exact absurd rfl hb
  | infinite t => exact div_infinite rfl t
  | finite t j =>
      have hne : (finite t j : Binary F).toRat ≠ 0 := by
        intro h
        rw [(isZero_iff rfl).mpr h] at hzero
        cases hzero
      have hrounds := div_rounds (a := zero s) rfl rfl hne
      rw [toRat_signedZero, zero_div, ← toRat_zero (F := F)] at hrounds
      have hexact := hrounds.exact isFinite_zero
      rwa [toRat_zero] at hexact

/-- The number of a quotient is that of the number that is divided. -/
theorem number?_div_congr (h : a.number? = c.number?) (b : Binary F) :
    (a / b).number? = (c / b).number? := by
  obtain rfl | ⟨s, t, rfl, rfl⟩ := eq_or_zeros h
  · rfl
  by_cases hnan : b = .nan
  · subst hnan
    rfl
  cases hzero : b.isZero with
  | true =>
      cases b with
      | nan => cases hzero
      | infinite u => cases hzero
      | finite u j =>
          have hj : j.val = 0 := of_decide_eq_true hzero
          have hquotient : ∀ s, (zero s / finite u j : Binary F) = .nan := fun s => by
            show (if j.val = 0 then _ else _ : Binary F) = .nan
            rw [if_pos hj]
            rfl
          rw [hquotient, hquotient]
  | false =>
      obtain ⟨hs, hvalueS⟩ := zero_div_finite s hnan hzero
      obtain ⟨ht, hvalueT⟩ := zero_div_finite t hnan hzero
      rw [number?_of_finite hs, number?_of_finite ht, hvalueS, hvalueT]

theorem number?_widen {type : FloatType} (v : Binary type.format) :
    v.widen.number? = v.number? := by
  cases v with
  | nan => rfl
  | infinite s => rfl
  | finite s i =>
      obtain ⟨hfinite, hvalue⟩ := widen_finite (v := finite s i) rfl
      rw [number?_of_finite hfinite, hvalue]
      rfl

end Binary

end SubByte
