/-
# Plan — a product that has passed its checks

A plan says where the matrices of each batch begin, and leaves nothing to be decided but
the kernel. Carrying it out writes block after block of the output.  The run returns
what it has written together with its verdict, so that it can be seen what a failure
half way would leave behind.
-/
import SubByte.Product.Block
import SubByte.Product.Operands

namespace SubByte

/-- Where the matrices of one batch begin. -/
structure Offsets where
  x : Nat
  w : Nat
  scales : Nat
  biases : Nat
deriving DecidableEq, Repr

/-- The bytes of one entry of a plan, four addresses. -/
def Offsets.bytes : Nat := 32

/-- The element type, the extents of one batch, and where the batches begin. -/
structure Plan where
  type : FloatType
  dims : Dims
  config : Config
  transposed : Bool
  batches : List Offsets
deriving DecidableEq, Repr

/-- What an operation on a buffer returns: its verdict, and the buffer after it. -/
abbrev Written (α : Type) : Type := Checked QuantError Unit × α

namespace Plan

variable {F : Format}

/-- The matrices of one batch. -/
def matricesAt (plan : Plan) (data : Matrices F) (batch : Offsets) : Except Fault (Matrices F) := do
  let rows := plan.dims.rows plan.transposed
  let inner := plan.dims.inner plan.transposed
  let groups := rows * (inner / plan.config.group.size)
  let x ← slice data.x batch.x (plan.dims.m * plan.dims.k)
  let w ← slice data.w batch.w (rows * plan.config.wordsOf inner)
  let scales ← slice data.scales batch.scales groups
  let biases ← slice data.biases batch.biases groups
  return ⟨x, w, scales, biases⟩

/-- The product of one batch written over its block. -/
def blockAt (plan : Plan) (variant : Variant) (data : Matrices F) (batch : Offsets)
    (block : List (Binary F)) : Checked QuantError (List (Binary F)) := do
  let matrices ← Checked.ofFault (plan.matricesAt data batch)
  plan.config.multiplyInto variant plan.dims matrices block

/-- The products of consecutive batches, written to consecutive blocks of `out` for as
long as there are complete ones. -/
def runBatches (plan : Plan) (variant : Variant) (data : Matrices F) :
    List Offsets → List (Binary F) → Written (List (Binary F))
  | [], out => (.ok (), out)
  | batch :: rest, out =>
    let size := plan.dims.m * plan.dims.n
    if out.length < size then (.ok (), out)
    else
      match plan.blockAt variant data batch (out.take size) with
      | .error stop => (.error stop, out)
      | .ok block =>
        let written := plan.runBatches variant data rest (out.drop size)
        (written.1, block ++ written.2)

/-- The operands at the element type of the product. -/
def requireTyped (plan : Plan) (operands : Operands) :
    Checked QuantError (Matrices plan.type.format) := do
  let x ← requireElements .x (.float plan.type) operands.x
  let w ← requireElements .w .u32 operands.w
  let scales ← requireElements .scales (.float plan.type) operands.scales
  let biases ← requireElements .biases (.float plan.type) operands.biases
  return ⟨x, w, scales, biases⟩

/-- All batches, over an output of the product's element type. -/
def run (plan : Plan) (simd : Bool) (operands : Operands) (out : List (Binary plan.type.format)) :
    Written (List (Binary plan.type.format)) :=
  match plan.requireTyped operands with
  | .error stop => (.error stop, out)
  | .ok data =>
    plan.runBatches (Variant.select plan.config.width plan.transposed simd) data plan.batches out

/-- Zeros in every block. -/
def fillZero (plan : Plan) (out : List (Binary plan.type.format)) :
    Written (List (Binary plan.type.format)) :=
  let count := plan.batches.length * plan.dims.m * plan.dims.n
  if count ≤ out.length then (.ok (), overlay (List.replicate count 0) out)
  else (.error (.fault .outOfBounds), out)

/-- The product carried out.  Blocks without elements and empty sums are settled without
looking at the operands, whose batches may then begin behind their ends. -/
def execute (plan : Plan) (simd : Bool) (operands : Operands) (out : Buffer) : Written Buffer :=
  if plan.dims.m = 0 ∨ plan.dims.n = 0 ∨ plan.batches = [] then (.ok (), out)
  else
    match out.as? (.float plan.type) with
    | none => (Checked.reject (.dtypeMismatch .out (.float plan.type) out.dtype), out)
    | some data =>
      let written :=
        if plan.dims.k = 0 then plan.fillZero data else plan.run simd operands data
      (written.1, ⟨.float plan.type, written.2⟩)

/-- A call planned first and carried out when the plan stands; without one the output stays. -/
def perform (plan : Checked QuantError Plan) (simd : Bool) (operands : Operands) (out : Buffer) :
    Written Buffer :=
  match plan with
  | .ok plan => plan.execute simd operands out
  | .error stop => (.error stop, out)

end Plan

end SubByte
