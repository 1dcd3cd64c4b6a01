/-
# Arithmetic — correctly rounded operations

Each operation settles the cases with `nan` and the infinities, forms the exact result
of two finite operands in units, and rounds it once.  A sum that is exactly zero is
positive unless both terms are negative zeros; a product or quotient takes the sign of
its operands also when it is zero.
-/
import SubByte.Binary.Rounding

namespace SubByte

namespace Binary

variable {F : Format}

/-- The rounded sum. -/
def add (a b : Binary F) : Binary F :=
  match a, b with
  | .nan, _ => .nan
  | _, .nan => .nan
  | .infinite s, .infinite t => if s = t then .infinite s else .nan
  | .infinite s, .finite .. => .infinite s
  | .finite .., .infinite t => .infinite t
  | .finite s i, .finite t j =>
    let sum := signed s (F.unitsOf i) + signed t (F.unitsOf j)
    if sum = 0 then zero (s && t) else ofUnits F (decide (sum < 0)) sum.natAbs 1

/-- The rounded difference. -/
def sub (a b : Binary F) : Binary F :=
  a.add b.neg

/-- The rounded product. -/
def mul (a b : Binary F) : Binary F :=
  match a, b with
  | .nan, _ => .nan
  | _, .nan => .nan
  | .infinite s, .infinite t => .infinite (s != t)
  | .infinite s, .finite t j => if j.val = 0 then .nan else .infinite (s != t)
  | .finite s i, .infinite t => if i.val = 0 then .nan else .infinite (s != t)
  | .finite s i, .finite t j => ofUnits F (s != t) (F.unitsOf i * F.unitsOf j) F.unitsPerOne

/-- The rounded quotient. -/
def div (a b : Binary F) : Binary F :=
  match a, b with
  | .nan, _ => .nan
  | _, .nan => .nan
  | .infinite _, .infinite _ => .nan
  | .infinite s, .finite t _ => .infinite (s != t)
  | .finite s _, .infinite t => zero (s != t)
  | .finite s i, .finite t j =>
    if j.val = 0 then
      if i.val = 0 then .nan else .infinite (s != t)
    else ofUnits F (s != t) (F.unitsOf i * F.unitsPerOne) (F.unitsOf j)

instance : Add (Binary F) := ⟨add⟩

instance : Sub (Binary F) := ⟨sub⟩

instance : Mul (Binary F) := ⟨mul⟩

instance : Div (Binary F) := ⟨div⟩

/-- The nearest whole number, ties to the even one; the sign stays, also on a zero. -/
def roundEven : Binary F → Binary F
  | .finite s i => ofUnits F s (nearestEven (F.unitsOf i) F.unitsPerOne * F.unitsPerOne) 1
  | a => a

/-- The whole part as a 32-bit number: held between the least and the largest, zero for `nan`. -/
def toWord : Binary F → Nat
  | .nan => 0
  | .infinite s => if s then 0 else 4294967295
  | .finite s i => if s then 0 else Nat.min (F.unitsOf i / F.unitsPerOne) 4294967295

theorem mul_comm (a b : Binary F) : a * b = b * a := by
  show mul a b = mul b a
  cases a <;> cases b <;> simp only [mul, Nat.mul_comm, bne_comm]

end Binary

end SubByte
