/-
# Dense affine products — packed weights expanded first

The reference for the kernels: every code is read bit by bit at its flat position, every
weight is expanded before the product begins, and the product is the dense one.
-/
import SubByte.Dense.Product
import SubByte.Packing.Bitstream
import SubByte.Tabulate

namespace SubByte.Dense

/-- Weight `i` of a stream whose groups have `group` codes. -/
def affineWeight (packed : List UInt32) (scales biases : List Single) (bits group i : Nat) :
    Except Fault Single := do
  let code ← Packing.readCode packed bits i
  let g ← quotient i group
  let scale ← fetch scales g
  let bias ← fetch biases g
  return .ofNat .single code * scale + bias

/-- The first `count` weights of a stream. -/
def dequantize (packed : List UInt32) (scales biases : List Single) (bits group count : Nat) :
    Except Fault (List Single) :=
  tabulate (affineWeight packed scales biases bits group) 0 count

/-- The first `count` weights of a stream as a matrix of its own, which must fit one
allocation. -/
def expand (packed : List UInt32) (scales biases : List Single) (bits group count : Nat) :
    Except Fault (List Single) := do
  requireStorage count Format.single.bytes
  dequantize packed scales biases bits group count

/-- `out` with the product of `x` and packed weights, `k` by `n`, in front. -/
def multiplyAffine (x : List Single) (packed : List UInt32) (scales biases out : List Single)
    (m n k bits group : Nat) : Except Fault (List Single) := do
  let weights ← expand packed scales biases bits group (k * n)
  multiply x weights out m n k

/-- `out` with the product of `x` and the transpose of packed weights, `n` by `k`, in front. -/
def multiplyAffineTransposed (x : List Single) (packed : List UInt32)
    (scales biases out : List Single) (m n k bits group : Nat) : Except Fault (List Single) := do
  let weights ← expand packed scales biases bits group (n * k)
  multiplyTransposed x weights out m n k

end SubByte.Dense
