/-
# Binary — floating-point values of a format

One value for all that is not a number, two infinities, and the finite values: a sign
and the index of a magnitude.  Both zeros are there, and apart from them and the one
`nan` equality of values is equality of numbers.  The order is that of the signed indices,
since indices ascend with the magnitudes they stand for.

`ofBits` and `toBits` are the interchange form: sign, exponent and fraction fields as
one number.  Every pattern that is no number is read as `nan`, and `nan` is written
quiet, positive and without payload.
-/
import SubByte.Binary.Format

namespace SubByte

/-- A value of the format `F`. -/
inductive Binary (F : Format) where
  | nan
  | infinite (negative : Bool)
  /-- the sign, and the exponent and fraction fields as one number -/
  | finite (negative : Bool) (index : Fin F.magnitudes)
deriving DecidableEq

/-- The values that all arithmetic is carried out in. -/
abbrev Single : Type := Binary .single

namespace Binary

variable {F : Format}

/-- Zero of the given sign. -/
def zero (negative : Bool) : Binary F :=
  .finite negative ⟨0, F.magnitudes_pos⟩

instance : Zero (Binary F) := ⟨zero false⟩

instance : Inhabited (Binary F) := ⟨.nan⟩

/-- `v` or its negative. -/
def signed (negative : Bool) (v : Nat) : Int :=
  if negative then -(v : Int) else v

/-- The finite value in units; there is nothing to count in the others. -/
def units : Binary F → Int
  | .finite s i => signed s (F.unitsOf i)
  | _ => 0

/-- The place of a value in the order of the numbers, both zeros in one place. -/
def rank? : Binary F → Option Int
  | .nan => none
  | .infinite s => some (signed s F.magnitudes)
  | .finite s i => some (signed s i)

/-- The value with the other sign. -/
def neg : Binary F → Binary F
  | .nan => .nan
  | .infinite s => .infinite (!s)
  | .finite s i => .finite (!s) i

instance : Neg (Binary F) := ⟨neg⟩

/-- The value without its sign. -/
def abs : Binary F → Binary F
  | .nan => .nan
  | .infinite _ => .infinite false
  | .finite _ i => .finite false i

/-- Strictly below as numbers; `nan` is below nothing and above nothing. -/
def lt (a b : Binary F) : Bool :=
  match a.rank?, b.rank? with
  | some x, some y => x < y
  | _, _ => false

/-- The smaller of two values, or the one that is a number. -/
def min : Binary F → Binary F → Binary F
  | .nan, b => b
  | a, .nan => a
  | a, b => if b.lt a then b else a

/-- The larger of two values, or the one that is a number. -/
def max : Binary F → Binary F → Binary F
  | .nan, b => b
  | a, .nan => a
  | a, b => if a.lt b then b else a

/-- The value held between two bounds; `nan` stays. -/
def clamp (a low high : Binary F) : Binary F :=
  let raised := if a.lt low then low else a
  if high.lt raised then high else raised

/-- Whether the value is one of the two zeros. -/
def isZero : Binary F → Bool
  | .finite _ i => i.val = 0
  | _ => false

/-- Whether the value is a number short of the infinities. -/
def isFinite : Binary F → Bool
  | .finite .. => true
  | _ => false

/-! ## Interchange form -/

/-- The sign bit alone. -/
def signBit (F : Format) (negative : Bool) : Nat :=
  if negative then 1 <<< (F.exponentBits + F.fractionBits) else 0

/-- The fields of a value as one number. -/
def toBits : Binary F → Nat
  | .nan => F.magnitudes + 1 <<< (F.fractionBits - 1)
  | .infinite s => signBit F s + F.magnitudes
  | .finite s i => signBit F s + i

/-- The value of a bit pattern; bits above the sign bit are not looked at. -/
def ofBits (F : Format) (bits : Nat) : Binary F :=
  let negative := bits.testBit (F.exponentBits + F.fractionBits)
  let index := bits % (1 <<< (F.exponentBits + F.fractionBits))
  if h : index < F.magnitudes then .finite negative ⟨index, h⟩
  else if index = F.magnitudes then .infinite negative
  else .nan

theorem testBit_signBit_add (s : Bool) {rest : Nat}
    (h : rest < 1 <<< (F.exponentBits + F.fractionBits)) :
    (signBit F s + rest).testBit (F.exponentBits + F.fractionBits) = s := by
  rw [Nat.one_shiftLeft] at h
  cases s with
  | false => simpa [signBit] using Nat.testBit_lt_two_pow h
  | true =>
    rw [signBit, if_pos rfl, Nat.one_shiftLeft, Nat.testBit_two_pow_add_eq,
      Nat.testBit_lt_two_pow h]
    rfl

theorem signBit_add_mod (s : Bool) {rest : Nat}
    (h : rest < 1 <<< (F.exponentBits + F.fractionBits)) :
    (signBit F s + rest) % (1 <<< (F.exponentBits + F.fractionBits)) = rest := by
  cases s with
  | false => simp [signBit, Nat.mod_eq_of_lt h]
  | true => rw [signBit, if_pos rfl, Nat.add_mod_left, Nat.mod_eq_of_lt h]

theorem ofBits_toBits (a : Binary F) : ofBits F a.toBits = a := by
  have hsum := F.magnitudes_add
  have hone : 0 < 1 <<< F.fractionBits := Format.one_shiftLeft_pos _
  cases a with
  | nan =>
    have hpos : 0 < 1 <<< (F.fractionBits - 1) := Format.one_shiftLeft_pos _
    have hlt : 1 <<< (F.fractionBits - 1) < 1 <<< F.fractionBits := by
      rw [Nat.one_shiftLeft, Nat.one_shiftLeft]
      exact Nat.pow_lt_pow_right (by decide) (by have := F.fractionBits_ge; omega)
    have hmod := Nat.mod_eq_of_lt
      (show F.magnitudes + 1 <<< (F.fractionBits - 1) <
        1 <<< (F.exponentBits + F.fractionBits) by omega)
    simp only [toBits, ofBits, hmod]
    rw [dif_neg (by omega), if_neg (by omega)]
  | infinite s =>
    have hlt : F.magnitudes < 1 <<< (F.exponentBits + F.fractionBits) := by omega
    simp only [toBits, ofBits, testBit_signBit_add s hlt, signBit_add_mod s hlt]
    rw [dif_neg (Nat.lt_irrefl _), if_pos trivial]
  | finite s i =>
    have hlt : i.val < 1 <<< (F.exponentBits + F.fractionBits) := by omega
    simp only [toBits, ofBits, testBit_signBit_add s hlt, signBit_add_mod s hlt]
    rw [dif_pos i.isLt]

end Binary

end SubByte
