/-
# Format — binary interchange formats

A format is the number of exponent bits and of fraction bits.  Every finite magnitude of
a format is a whole number of its least subnormal, the *unit*, and the magnitudes in
ascending order are numbered by their exponent and fraction fields read as one number,
the *index*.  So a format is described here in natural numbers alone: how many finite
magnitudes there are, how many units make one, and how many units the magnitude of an
index has.
-/

namespace SubByte

/-- Widths of the two fields below the sign bit. -/
structure Format where
  /-- bits of the biased exponent -/
  exponentBits : Nat
  /-- bits of the fraction, the hidden leading bit not counted -/
  fractionBits : Nat
  exponentBits_ge : 2 ≤ exponentBits := by decide
  fractionBits_ge : 1 ≤ fractionBits := by decide
deriving DecidableEq

namespace Format

/-- 32 bits: the format of all arithmetic. -/
def single : Format := ⟨8, 23, by decide, by decide⟩

/-- 16 bits, with five for the exponent. -/
def half : Format := ⟨5, 10, by decide, by decide⟩

/-- 16 bits, with the exponent of a single. -/
def brain : Format := ⟨8, 7, by decide, by decide⟩

/-- The bytes of one value. -/
def bytes (F : Format) : Nat :=
  (1 + F.exponentBits + F.fractionBits) / 8

/-- How many finite magnitudes there are: every fraction below every exponent field but
the last. -/
def magnitudes (F : Format) : Nat :=
  (1 <<< F.exponentBits - 1) <<< F.fractionBits

/-- How many units make one. -/
def unitsPerOne (F : Format) : Nat :=
  1 <<< (1 <<< (F.exponentBits - 1) - 2 + F.fractionBits)

/-- The units of a magnitude: below the first full exponent field the fraction itself,
above it the fraction with its hidden bit, doubled once for every further field. -/
def unitsOf (F : Format) (index : Nat) : Nat :=
  let field := index >>> F.fractionBits
  let fraction := index % (1 <<< F.fractionBits)
  if field = 0 then fraction else (1 <<< F.fractionBits + fraction) <<< (field - 1)

/-! ## Sizes -/

theorem one_shiftLeft_pos (n : Nat) : 0 < 1 <<< n := by
  rw [Nat.one_shiftLeft]
  exact Nat.two_pow_pos n

/-- The magnitudes and the fractions of the last exponent field fill all patterns below
the sign bit. -/
theorem magnitudes_add (F : Format) :
    F.magnitudes + 1 <<< F.fractionBits = 1 <<< (F.exponentBits + F.fractionBits) := by
  have h : 1 ≤ 1 <<< F.exponentBits := one_shiftLeft_pos F.exponentBits
  rw [magnitudes, Nat.shiftLeft_eq, Nat.shiftLeft_eq 1 F.fractionBits, ← Nat.add_mul,
    Nat.sub_add_cancel h, ← Nat.shiftLeft_eq, ← Nat.shiftLeft_add]

theorem magnitudes_pos (F : Format) : 0 < F.magnitudes := by
  have h : 1 < 1 <<< F.exponentBits := by
    rw [Nat.one_shiftLeft]
    exact Nat.one_lt_two_pow (by have := F.exponentBits_ge; omega)
  rw [magnitudes, Nat.shiftLeft_eq]
  exact Nat.mul_pos (by omega) (Nat.two_pow_pos _)

theorem unitsPerOne_pos (F : Format) : 0 < F.unitsPerOne :=
  one_shiftLeft_pos _

end Format

end SubByte
