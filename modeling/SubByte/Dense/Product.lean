/-
# Dense products — matrices of singles, element by element

The plainest products: each output element is a sum over the shared dimension from zero,
in ascending order.  They share nothing with the kernels but the arithmetic.  Everything
is read and written by position, cell after cell in row-major order, so that operands
that are too short show as faults.
-/
import SubByte.Fault
import SubByte.Binary.Arithmetic

namespace SubByte.Dense

/-- An element replaced, which must be there. -/
def store {α : Type} (xs : List α) (i : Nat) (a : α) : Except Fault (List α) :=
  if i < xs.length then .ok (xs.set i a) else .error .outOfBounds

/-- The values of `count` cells from cell `c` on stored one after another, each at its place. -/
def storeFrom {α : Type} (place : Nat → Nat) (value : Nat → Except Fault α) :
    Nat → Nat → List α → Except Fault (List α)
  | _, 0, out => .ok out
  | c, count + 1, out => do
    let v ← value c
    let written ← store out (place c) v
    storeFrom place value (c + 1) count written

/-- The sum after `count` further terms, from term `t` on. -/
def sumFrom (term : Nat → Except Fault Single) : Nat → Nat → Single → Except Fault Single
  | _, 0, sum => .ok sum
  | t, count + 1, sum => do
    let next ← term t
    sumFrom term (t + 1) count (sum + next)

/-- The products of the elements at `left t` of `a` and at `right t` of `b`, added up
for `t` below `k`. -/
def dot (a b : List Single) (left right : Nat → Nat) (k : Nat) : Except Fault Single :=
  sumFrom (fun t => do
    let x ← fetch a (left t)
    let y ← fetch b (right t)
    return x * y) 0 k 0

/-- `c` with the product of `a`, `m` by `k`, and `b`, `k` by `n`, in front. -/
def multiply (a b c : List Single) (m n k : Nat) : Except Fault (List Single) :=
  storeFrom (fun cell => cell)
    (fun cell => dot a b (fun t => cell / n * k + t) (fun t => t * n + cell % n) k) 0 (m * n) c

/-- `c` with the product of `a`, `m` by `k`, and the transpose of `b`, `n` by `k`, in front. -/
def multiplyTransposed (a b c : List Single) (m n k : Nat) : Except Fault (List Single) :=
  storeFrom (fun cell => cell)
    (fun cell => dot a b (fun t => cell / n * k + t) (fun t => cell % n * k + t) k) 0 (m * n) c

/-- `dst` with the transpose of `src`, `rows` by `cols`, in front. -/
def transpose {α : Type} (src dst : List α) (rows cols : Nat) : Except Fault (List α) :=
  storeFrom (fun cell => cell % cols * rows + cell / cols) (fetch src) 0 (rows * cols) dst

end SubByte.Dense
