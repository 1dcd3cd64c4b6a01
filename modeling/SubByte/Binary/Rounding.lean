/-
# Rounding — from an exact magnitude to the nearest value

The exact magnitude is a quotient of two natural numbers, counted in units.  Its leading
bit fixes the spacing of the format's magnitudes around it, the quotient by that spacing
is rounded to a whole number with ties to the even one, and the result with the spacing
in front is the index of the magnitude sought: a coefficient that rounds up past the last
fraction carries into the next exponent field by itself.  An index past the last finite
one is an infinity.

Every operation of `SubByte.Binary.Arithmetic` forms its exact result first and calls
`ofUnits` once.  The laws here are those of the two rounding steps: the whole number is
within half a unit and exact when it can be, and a magnitude of the format is its own
nearest one, however the quotient is written.
-/
import SubByte.Binary.Basic

namespace SubByte

/-- The whole number nearest to `num / den`; of two equally near the even one. -/
def nearestEven (num den : Nat) : Nat :=
  let floor := num / den
  let rest := num % den
  if 2 * rest < den ∨ (2 * rest = den ∧ floor % 2 = 0) then floor else floor + 1

/-- The index of the magnitude nearest to `num / den` units, were there no last exponent. -/
def Format.nearestIndex (F : Format) (num den : Nat) : Nat :=
  let spacing := (num / den).log2 - F.fractionBits
  spacing <<< F.fractionBits + nearestEven num (den <<< spacing)

namespace Binary

/-- The value nearest to `num / den` units, of the given sign. -/
def ofUnits (F : Format) (negative : Bool) (num den : Nat) : Binary F :=
  if h : F.nearestIndex num den < F.magnitudes then .finite negative ⟨_, h⟩
  else .infinite negative

/-- The value nearest to a quotient of natural numbers. -/
def ofRatio (F : Format) (num den : Nat) : Binary F :=
  ofUnits F false (num * F.unitsPerOne) den

/-- The value nearest to a natural number. -/
def ofNat (F : Format) (n : Nat) : Binary F :=
  ofRatio F n 1

/-- The nearest value of another format. -/
def convert {F : Format} (G : Format) : Binary F → Binary G
  | .nan => .nan
  | .infinite s => .infinite s
  | .finite s i => ofUnits G s (F.unitsOf i * G.unitsPerOne) F.unitsPerOne

/-- The value as a single; exact, since no format here has more magnitudes. -/
abbrev widen {F : Format} (a : Binary F) : Single :=
  a.convert .single

/-- A single brought into a storage format, the nearest value there. -/
abbrev narrow (F : Format) (a : Single) : Binary F :=
  a.convert F

end Binary

/-! ## The whole number -/

theorem two_mul_nearestEven_le (num den : Nat) :
    2 * (nearestEven num den * den) ≤ 2 * num + den := by
  have hsplit := Nat.div_add_mod num den
  have hcomm := Nat.mul_comm den (num / den)
  simp only [nearestEven]
  split
  · omega
  · rw [Nat.add_one_mul (num / den)]
    omega

theorem two_mul_le_nearestEven (num : Nat) {den : Nat} (hden : 0 < den) :
    2 * num ≤ 2 * (nearestEven num den * den) + den := by
  have hsplit := Nat.div_add_mod num den
  have hcomm := Nat.mul_comm den (num / den)
  have hrest := Nat.mod_lt num hden
  simp only [nearestEven]
  split
  · omega
  · rw [Nat.add_one_mul (num / den)]
    omega

theorem nearestEven_mul (n : Nat) {den : Nat} (hden : 0 < den) :
    nearestEven (n * den) den = n := by
  simp only [nearestEven, Nat.mul_mod_left, Nat.mul_div_cancel n hden]
  rw [if_pos (Or.inl (by omega))]

theorem nearestEven_mul_right (num den : Nat) {c : Nat} (hc : 0 < c) :
    nearestEven (num * c) (den * c) = nearestEven num den := by
  have hlt : 2 * (num % den * c) < den * c ↔ 2 * (num % den) < den := by
    rw [← Nat.mul_assoc]
    exact Nat.mul_lt_mul_right hc
  have heq : 2 * (num % den * c) = den * c ↔ 2 * (num % den) = den := by
    rw [← Nat.mul_assoc]
    exact Nat.mul_left_inj (Nat.ne_of_gt hc)
  simp only [nearestEven, Nat.mul_div_mul_right num den hc, Nat.mul_mod_mul_right, hlt, heq]

/-! ## The magnitude -/

namespace Format

theorem nearestIndex_mul_right (F : Format) (num den : Nat) {c : Nat} (hc : 0 < c) :
    F.nearestIndex (num * c) (den * c) = F.nearestIndex num den := by
  have hcomm : ∀ s, (den * c) <<< s = den <<< s * c := fun s => by
    rw [Nat.shiftLeft_eq, Nat.shiftLeft_eq, Nat.mul_right_comm]
  simp only [nearestIndex, Nat.mul_div_mul_right num den hc, hcomm,
    nearestEven_mul_right num _ hc]

/-- Below the hidden bit of the first full field a magnitude is its own index. -/
theorem nearestIndex_of_lt (F : Format) {n : Nat} (h : n < 1 <<< F.fractionBits) :
    F.nearestIndex n 1 = n := by
  have hlog : n.log2 ≤ F.fractionBits := by
    rcases Nat.eq_zero_or_pos n with rfl | hn
    · exact Nat.zero_le _
    · rw [Nat.one_shiftLeft] at h
      exact Nat.le_of_lt ((Nat.log2_lt (Nat.ne_of_gt hn)).2 h)
  have hexact : nearestEven (n * 1) 1 = n := nearestEven_mul n Nat.one_pos
  rw [Nat.mul_one] at hexact
  simp only [nearestIndex, Nat.div_one, Nat.sub_eq_zero_of_le hlog, Nat.zero_shiftLeft,
    Nat.shiftLeft_zero, hexact, Nat.zero_add]

/-- A coefficient with its hidden bit, doubled `s` times, has index `s` fields above it. -/
theorem nearestIndex_shiftLeft (F : Format) {n : Nat} (s : Nat)
    (hlow : 1 <<< F.fractionBits ≤ n) (hhigh : n < 2 * 1 <<< F.fractionBits) :
    F.nearestIndex (n <<< s) 1 = s <<< F.fractionBits + n := by
  have hlog : (n <<< s).log2 = F.fractionBits + s := by
    have hpow := Nat.two_pow_pos s
    have hone := Nat.two_pow_pos F.fractionBits
    rw [Nat.one_shiftLeft] at hlow hhigh
    rw [Nat.shiftLeft_eq]
    refine (Nat.log2_eq_iff (Nat.mul_ne_zero (by omega) (by omega))).2 ⟨?_, ?_⟩
    · rw [Nat.pow_add]
      exact Nat.mul_le_mul_right _ hlow
    · rw [Nat.add_right_comm, Nat.pow_add, Nat.pow_succ, Nat.mul_comm _ 2]
      exact Nat.mul_lt_mul_of_pos_right hhigh hpow
  have hexact : nearestEven (n <<< s) (1 <<< s) = n := by
    rw [Nat.shiftLeft_eq, Nat.one_shiftLeft]
    exact nearestEven_mul n (Nat.two_pow_pos s)
  simp only [nearestIndex, Nat.div_one, hlog, Nat.add_sub_cancel_left, hexact]

theorem nearestIndex_unitsOf (F : Format) (i : Nat) : F.nearestIndex (F.unitsOf i) 1 = i := by
  have hone := one_shiftLeft_pos F.fractionBits
  have hfield : i >>> F.fractionBits = i / 1 <<< F.fractionBits := by
    rw [Nat.shiftRight_eq_div_pow, Nat.one_shiftLeft]
  have hspacing : ∀ s, s <<< F.fractionBits = s * 1 <<< F.fractionBits := fun s => by
    rw [Nat.shiftLeft_eq, Nat.one_shiftLeft]
  have hsplit := Nat.div_add_mod' i (1 <<< F.fractionBits)
  have hrest := Nat.mod_lt i hone
  simp only [unitsOf, hfield]
  split
  · next h =>
    have hlt := (Nat.div_eq_zero_iff_lt hone).1 h
    rw [Nat.mod_eq_of_lt hlt]
    exact F.nearestIndex_of_lt hlt
  · next h =>
    have hhigh : 1 <<< F.fractionBits + i % 1 <<< F.fractionBits < 2 * 1 <<< F.fractionBits := by
      rw [Nat.two_mul]
      exact Nat.add_lt_add_left hrest _
    have hpred := Nat.sub_add_cancel (Nat.pos_of_ne_zero h)
    rw [F.nearestIndex_shiftLeft _ (Nat.le_add_right _ _) hhigh, hspacing]
    rw [← hpred, Nat.add_one_mul (_ - 1)] at hsplit
    omega

end Format

/-! ## The value -/

namespace Binary

theorem ofUnits_unitsOf {F : Format} (s : Bool) (i : Fin F.magnitudes) :
    ofUnits F s (F.unitsOf i) 1 = .finite s i := by
  have h := F.nearestIndex_unitsOf i
  rw [ofUnits, dif_pos (by rw [h]; exact i.isLt)]
  exact congrArg _ (Fin.ext h)

@[simp] theorem convert_self {F : Format} (a : Binary F) : a.convert F = a := by
  cases a with
  | nan => rfl
  | infinite s => rfl
  | finite s i =>
    have h := F.nearestIndex_mul_right (F.unitsOf i) 1 F.unitsPerOne_pos
    rw [Nat.one_mul] at h
    have hscale : convert F (.finite s i) = ofUnits F s (F.unitsOf i) 1 := by
      simp only [convert, ofUnits, h]
    exact hscale.trans (ofUnits_unitsOf s i)

end Binary

end SubByte
