/-
# Kernels — one product with weights that stay packed

A kernel decodes one group at a time and forgets it again.  All sums are of singles, and
each output element is narrowed once, at its end.

* `plainRow` adds, for each activation element in turn, a multiple of a whole stored row
  to a row of sums.
* `transposedElement` is the running sum over one stored row.
* `lanesElement` keeps eight running sums over one stored row, element `t` in sum `t %
  8`, and adds them up in the end.
-/
import SubByte.Packing.Lanes
import SubByte.Product.Dims
import SubByte.Product.Row
import SubByte.Product.Variant

namespace SubByte

namespace Kernel

variable {F : Format}

/-! ## Weights as they are -/

/-- `x` times the weights of a group, added to their sums. -/
def addGroup (config : Config) (x : Single) (sums : List Single) (group : Group UInt8) :
    Except Fault (List Single) := do
  let codes ← group.codes config
  return List.zipWith (fun sum code => sum + x * group.affine.weight code) sums codes

/-- `x` times the weights of a stored row, each group added to its own stretch of sums. -/
def addRow (config : Config) (x : Single) (sums : List Single) (groups : List (Group UInt8)) :
    Except Fault (List Single) := do
  let stretches := wholeBlocks config.group.size sums
  let added ← (stretches.zip groups).mapM fun slot => addGroup config x slot.1 slot.2
  return overlay added.flatten sums

/-- One row of the output: activation element `i` meets stored row `i`. -/
def plainRow (config : Config) (n : Nat) (packed : List UInt8)
    (scales biases xs : List (Binary F)) : Except Fault (List (Binary F)) := do
  let rowBytes := Packing.packedBytes config.width.bits n
  let count := n / config.group.size
  let sums ← xs.zipIdx.foldlM (fun sums element => do
    let groups ← Group.readRow config.groupBytes rowBytes count packed scales biases element.2
    addRow config element.1.widen sums groups) (List.replicate n 0)
  return sums.map fun sum => sum.narrow F

/-! ## Transposed weights -/

/-- The running sum after one group. -/
def dotGroup (config : Config) (sum : Single) (xs : List (Binary F)) (group : Group UInt8) :
    Except Fault Single := do
  let codes ← group.codes config
  return (xs.zip codes).foldl
    (fun sum term => sum + term.1.widen * group.affine.weight term.2) sum

/-- Element `j` of a row of the output. -/
def transposedElement (config : Config) (k : Nat) (packed : List UInt8)
    (scales biases xs : List (Binary F)) (j : Nat) : Except Fault (Binary F) := do
  let rowBytes := Packing.packedBytes config.width.bits k
  let count := k / config.group.size
  let groups ← Group.readRow config.groupBytes rowBytes count packed scales biases j
  let sum ← ((wholeBlocks config.group.size xs).zip groups).foldlM
    (fun sum slot => dotGroup config sum slot.1 slot.2) 0
  return sum.narrow F

/-! ## Transposed weights by lanes -/

/-- The lanes after one step. -/
def addLanes (config : Config) (affine : Affine) (sums : List Single) (xs : List (Binary F))
    (words : List UInt32) : Checked QuantError (List Single) := do
  let codes ← Packing.decodeLanes config.width.bits words
  let weights := codes.map fun code => code * affine.scale + affine.bias
  let elements ← Checked.ofFault (Packing.loadLanes xs)
  let terms := List.zipWith (fun x weight => x * weight) elements weights
  return List.zipWith (fun sum term => sum + term) sums terms

/-- The lanes after one group. -/
def addLaneGroup (config : Config) (sums : List Single) (xs : List (Binary F))
    (group : Group UInt32) : Checked QuantError (List Single) :=
  let steps := (wholeBlocks Packing.lanes xs).zip
    (wholeBlocks (config.wordsOf Packing.lanes) group.packed)
  steps.foldlM (fun sums step => addLanes config group.affine sums step.1 step.2) sums

/-- The lanes added up, the first lane first. -/
def sumLanes : List Single → Single
  | [] => 0
  | first :: rest => rest.foldl (fun sum lane => sum + lane) first

/-- Element `j` of a row of the output. -/
def lanesElement (config : Config) (k : Nat) (words : List UInt32)
    (scales biases xs : List (Binary F)) (j : Nat) : Checked QuantError (Binary F) := do
  let groupWords := config.wordsOf config.group.size
  let count := k / config.group.size
  let groups ← Checked.ofFault
    (Group.readRow groupWords (config.wordsOf k) count words scales biases j)
  let sums ← ((wholeBlocks config.group.size xs).zip groups).foldlM
    (fun sums slot => addLaneGroup config sums slot.1 slot.2) (List.replicate Packing.lanes 0)
  return (sumLanes sums).narrow F

/-! ## All rows -/

/-- The product, row after row. -/
def product (config : Config) (variant : Variant) (dims : Dims) (operands : Matrices F) :
    Checked QuantError (List (Binary F)) :=
  let rows := blocks dims.k dims.m operands.x
  let columns := List.range dims.n
  match variant with
  | .plain => do
    let packed := Packing.bytesOfWords operands.w
    let out ← Checked.ofFault
      (rows.mapM (plainRow config dims.n packed operands.scales operands.biases))
    return out.flatten
  | .transposed => do
    let packed := Packing.bytesOfWords operands.w
    let out ← Checked.ofFault (rows.mapM fun xs =>
      columns.mapM (transposedElement config dims.k packed operands.scales operands.biases xs))
    return out.flatten
  | .lanes =>
    if Packing.hasLaneDecode config.width.bits then do
      let out ← rows.mapM fun xs =>
        columns.mapM (lanesElement config dims.k operands.w operands.scales operands.biases xs)
      return out.flatten
    else Checked.reject (.unsupportedSimd config.width.bits)

end Kernel

end SubByte
