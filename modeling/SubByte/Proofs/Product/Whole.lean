/-
# Whole products — every kernel as a table of its elements

An operand that is long enough (`Matrices.Covers`) gives a product with every kernel, and
the product is the table of the sums of `Kernels` and `Lanes` (`Matrices.elementAt`),
cell after cell in row-major order.  The empty product and the empty sum, which need no
kernel, are the same table.  `multiplyInto_eq_ok` adds the checks of
`SubByte.Product.Block`: sizes that fit the address range (`Dims.Fits`) pass them, so the
product is written over the front of the output and nowhere else.
-/
import SubByte.Product.Block
import SubByte.Proofs.Binary.Nearest
import SubByte.Proofs.Product.Lanes

namespace SubByte

variable {F : Format}

/-! ## Zero -/

theorem Binary.ofUnits_zero {den : Nat} (hden : 0 < den) : Binary.ofUnits F false 0 den = 0 := by
  have hindex := F.nearestIndex_zero hden
  rw [ofUnits, dif_pos (by rw [hindex]; exact F.magnitudes_pos)]
  exact congrArg (Binary.finite false) (Fin.ext hindex)

theorem Binary.narrow_zero : (0 : Single).narrow F = 0 := by
  have hunits : Format.single.unitsOf 0 = 0 := by decide
  show ofUnits F false (Format.single.unitsOf 0 * F.unitsPerOne) Format.single.unitsPerOne = 0
  rw [hunits, Nat.zero_mul]
  exact ofUnits_zero Format.single.unitsPerOne_pos

/-! ## Elements -/

namespace Matrices

/-- The sum behind a cell of the product, as its kernel forms it. -/
def elementAt (operands : Matrices F) (config : Config) (dims : Dims) (variant : Variant)
    (cell : Nat) : Single :=
  let x := cell / dims.n * dims.k
  match variant with
  | .plain => operands.dotAt config x (fun t => t * dims.n + cell % dims.n) dims.k
  | .transposed => operands.dotAt config x (fun t => cell % dims.n * dims.k + t) dims.k
  | .lanes =>
      Kernel.sumLanes ((List.range Packing.lanes).map
        (operands.laneAt config x (cell % dims.n * dims.k) (dims.k / Packing.lanes)))

/-- The activations of row `r`, where a row has `k` of them. -/
def xRow (operands : Matrices F) (k r : Nat) : List (Binary F) :=
  (List.range k).map fun t => operands.x.getD (r * k + t) .nan

/-- The operands are long enough for a product of the given extents. -/
structure Covers (operands : Matrices F) (config : Config) (dims : Dims) (transposed : Bool) :
    Prop where
  x : dims.m * dims.k ≤ operands.x.length
  w : dims.rows transposed * config.wordsOf (dims.inner transposed) ≤ operands.w.length
  scales : dims.rows transposed * (dims.inner transposed / config.group.size) ≤
    operands.scales.length
  biases : dims.rows transposed * (dims.inner transposed / config.group.size) ≤
    operands.biases.length

theorem Covers.stores {operands : Matrices F} {config : Config} {dims : Dims} {transposed : Bool}
    (h : operands.Covers config dims transposed)
    (hgroups : dims.inner transposed % config.group.size = 0) :
    operands.Stores config (dims.rows transposed)
      (dims.inner transposed / config.group.size) := by
  have hinner := Nat.div_mul_cancel (Nat.dvd_of_mod_eq_zero hgroups)
  refine ⟨?_, h.scales, h.biases⟩
  rw [← config.four_mul_wordsOf, hinner, Nat.mul_left_comm]
  exact Nat.mul_le_mul_left 4 h.w

theorem elementAt_empty (operands : Matrices F) (config : Config) (dims : Dims)
    (variant : Variant) (cell : Nat) (hk : dims.k = 0) :
    operands.elementAt config dims variant cell = 0 := by
  have hlane : ∀ x w, operands.laneAt config x w 0 = fun _ => 0 := fun _ _ => rfl
  cases variant with
  | plain => simp only [elementAt, dotAt, hk, List.range_zero, List.foldl_nil]
  | transposed => simp only [elementAt, dotAt, hk, List.range_zero, List.foldl_nil]
  | lanes =>
      simp only [elementAt, hk, Nat.zero_div, hlane]
      decide

end Matrices

/-! ## Kernels -/

namespace Kernel

variable {operands : Matrices F} {config : Config} {dims : Dims} {variant : Variant}

theorem blocks_x {m k : Nat} (h : m * k ≤ operands.x.length) :
    blocks k m operands.x = (List.range m).map (operands.xRow k) := by
  rw [blocks_eq_map]
  refine List.map_congr_left fun r hr => take_drop_eq_map Binary.nan ?_
  exact row_end_le (List.mem_range.mp hr) h

theorem plainRow_covered (hgroups : dims.n % config.group.size = 0)
    (hcovers : operands.Covers config dims false) (r : Nat) :
    plainRow config dims.n (Packing.bytesOfWords operands.w) operands.scales operands.biases
        (operands.xRow dims.k r) =
      .ok ((List.range dims.n).map fun j =>
        (operands.elementAt config dims .plain (r * dims.n + j)).narrow F) := by
  have hstored : operands.Stores config dims.k (dims.n / config.group.size) := hcovers.stores hgroups
  have hrow := plainRow_eq_ok hstored (r * dims.k)
  rw [Nat.div_mul_cancel (Nat.dvd_of_mod_eq_zero hgroups)] at hrow
  refine hrow.trans (congrArg Except.ok (List.map_congr_left fun j hj => ?_))
  have hj := List.mem_range.mp hj
  simp only [Matrices.elementAt, run_div hj, run_mod hj]

theorem transposedElement_covered (hgroups : dims.k % config.group.size = 0)
    (hcovers : operands.Covers config dims true) (r : Nat) {j : Nat} (hj : j < dims.n) :
    transposedElement config dims.k (Packing.bytesOfWords operands.w) operands.scales
        operands.biases (operands.xRow dims.k r) j =
      .ok ((operands.elementAt config dims .transposed (r * dims.n + j)).narrow F) := by
  have hstored : operands.Stores config dims.n (dims.k / config.group.size) := hcovers.stores hgroups
  have helement := transposedElement_eq_ok hstored hj (r * dims.k)
  rw [Nat.div_mul_cancel (Nat.dvd_of_mod_eq_zero hgroups)] at helement
  simp only [Matrices.elementAt, run_div hj, run_mod hj]
  exact helement

theorem lanesElement_covered (hdecode : Packing.hasLaneDecode config.width.bits = true)
    (hgroups : dims.k % config.group.size = 0) (hcovers : operands.Covers config dims true)
    (r : Nat) {j : Nat} (hj : j < dims.n) :
    lanesElement config dims.k operands.w operands.scales operands.biases
        (operands.xRow dims.k r) j =
      .ok ((operands.elementAt config dims .lanes (r * dims.n + j)).narrow F) := by
  have hstored : operands.Stores config dims.n (dims.k / config.group.size) := hcovers.stores hgroups
  have hk := Nat.div_mul_cancel (Nat.dvd_of_mod_eq_zero hgroups)
  have hsteps : dims.k / config.group.size * (config.group.size / Packing.lanes) =
      dims.k / Packing.lanes := by
    obtain ⟨hsize, -⟩ := steps_of_group hdecode
    rw [← Nat.mul_div_assoc _ ⟨_, hsize.trans (Nat.mul_comm _ _)⟩, hk]
  have helement := lanesElement_eq_ok hdecode hstored hj (r * dims.k)
  rw [hk, hsteps] at helement
  simp only [Matrices.elementAt, run_div hj, run_mod hj]
  exact helement

theorem product_eq_ok (hvariant : variant = .lanes → Variant.lanesFit config.width = true)
    (hgroups : dims.inner variant.isTransposed % config.group.size = 0)
    (hcovers : operands.Covers config dims variant.isTransposed) :
    product config variant dims operands = .ok ((List.range (dims.m * dims.n)).map fun cell =>
      (operands.elementAt config dims variant cell).narrow F) := by
  rw [← flatMap_range_mul, List.flatMap_def]
  cases variant with
  | plain =>
      simp only [product]
      rw [blocks_x hcovers.x, mapM_map_eq_ok fun r _ => plainRow_covered hgroups hcovers r,
        Checked.ofFault_ok, ok_bind, pure_eq_ok]
  | transposed =>
      have hrow : ∀ r ∈ List.range dims.m, (List.range dims.n).mapM (transposedElement config dims.k
          (Packing.bytesOfWords operands.w) operands.scales operands.biases
          (operands.xRow dims.k r)) = .ok _ := fun r _ => mapM_eq_ok fun j hj =>
        transposedElement_covered hgroups hcovers r (List.mem_range.mp hj)
      simp only [product]
      rw [blocks_x hcovers.x, mapM_map_eq_ok hrow, Checked.ofFault_ok, ok_bind, pure_eq_ok]
  | lanes =>
      have hdecode : Packing.hasLaneDecode config.width.bits = true := by
        rw [← Variant.lanesFit_iff]
        exact hvariant rfl
      have hrow : ∀ r ∈ List.range dims.m, (List.range dims.n).mapM (lanesElement config dims.k
          operands.w operands.scales operands.biases (operands.xRow dims.k r)) = .ok _ :=
        fun r _ => mapM_eq_ok fun j hj =>
          lanesElement_covered hdecode hgroups hcovers r (List.mem_range.mp hj)
      simp only [product]
      rw [if_pos hdecode, blocks_x hcovers.x, mapM_map_eq_ok hrow, ok_bind, pure_eq_ok]

end Kernel

/-! ## Checks -/

/-- The sizes that a product checks are addresses. -/
structure Dims.Fits (dims : Dims) (config : Config) (transposed : Bool) : Prop where
  m : dims.m < addressLimit
  rows : dims.rows transposed < addressLimit
  x : dims.m * dims.k < addressLimit
  out : dims.m * dims.n < addressLimit
  w : dims.rows transposed * config.wordsOf (dims.inner transposed) < addressLimit
  groups : dims.rows transposed * (dims.inner transposed / config.group.size) < addressLimit

/-- The operands are no longer than an address can count. -/
structure Matrices.Addressed (operands : Matrices F) : Prop where
  x : operands.x.length < addressLimit
  w : operands.w.length < addressLimit
  scales : operands.scales.length < addressLimit
  biases : operands.biases.length < addressLimit

theorem Dims.Fits.of_covers {operands : Matrices F} {dims : Dims} {config : Config}
    {transposed : Bool} {outLength : Nat} (hcovers : operands.Covers config dims transposed)
    (haddressed : operands.Addressed) (hm : dims.m < addressLimit)
    (hrows : dims.rows transposed < addressLimit) (hout : dims.m * dims.n ≤ outLength)
    (houtLength : outLength < addressLimit) : dims.Fits config transposed where
  m := hm
  rows := hrows
  x := Nat.lt_of_le_of_lt hcovers.x haddressed.x
  out := Nat.lt_of_le_of_lt hout houtLength
  w := Nat.lt_of_le_of_lt hcovers.w haddressed.w
  groups := Nat.lt_of_le_of_lt hcovers.scales haddressed.scales

theorem addressed_eq_some {n : Nat} (h : n < addressLimit) : addressed n = some n :=
  if_pos h

theorem boundedProduct_pair {a b : Nat} (ha : a < addressLimit) (hab : a * b < addressLimit) :
    boundedProduct 1 [a, b] = some (a * b) := by
  simp only [boundedProduct, List.foldlM_cons, List.foldlM_nil, Nat.one_mul]
  rw [addressed_eq_some ha, Option.bind_eq_bind, Option.bind_some, addressed_eq_some hab]
  rfl

theorem requireRoom_eq_ok {operand : Operand} {required actual : Nat} (h : required ≤ actual) :
    requireRoom operand required actual = .ok () :=
  if_neg (Nat.not_lt_of_le h)

theorem requireRoom_eq_ok_iff {operand : Operand} {required actual : Nat} :
    requireRoom operand required actual = .ok () ↔ required ≤ actual := by
  constructor
  · intro h
    rw [requireRoom] at h
    split at h
    · cases h
    · next hroom => exact Nat.le_of_not_lt hroom
  · exact requireRoom_eq_ok

theorem requireRoom_faults (allowed : Fault → Prop) (operand : Operand) (required actual : Nat) :
    Checked.FaultsOnly allowed (requireRoom operand required actual) := by
  rw [requireRoom]
  split
  · exact .reject _
  · exact .ok ()

theorem requireWholeGroups_eq_ok (name : String) {inner : Nat} {group : GroupSize}
    (h : inner % group.size = 0) : requireWholeGroups name inner group.size = .ok () := by
  rw [requireWholeGroups, if_neg (Nat.ne_of_gt group.size_pos), if_pos h]

theorem requireWholeGroups_eq_ok_iff {name : String} {inner : Nat} {group : GroupSize} :
    requireWholeGroups name inner group.size = .ok () ↔ inner % group.size = 0 := by
  constructor
  · intro h
    rw [requireWholeGroups, if_neg (Nat.ne_of_gt group.size_pos)] at h
    exact Checked.of_check h
  · exact requireWholeGroups_eq_ok name

/-- No group size is zero, so the check does not divide by zero. -/
theorem requireWholeGroups_faults (allowed : Fault → Prop) (name : String) (inner : Nat)
    (group : GroupSize) :
    Checked.FaultsOnly allowed (requireWholeGroups name inner group.size) := by
  rw [requireWholeGroups, if_neg (Nat.ne_of_gt group.size_pos)]
  exact .check _ _

namespace Config

variable {operands : Matrices F} {config : Config} {dims : Dims} {variant : Variant}

theorem requireSize_eq_ok (name : String) {a b : Nat} (ha : a < addressLimit)
    (hab : a * b < addressLimit) : requireSize name [a, b] = .ok (a * b) := by
  rw [requireSize, sizeProduct, boundedProduct_pair ha hab]
  rfl

theorem requireOperands_eq_ok {transposed : Bool} {outLength : Nat}
    (hfits : dims.Fits config transposed) (hcovers : operands.Covers config dims transposed)
    (hout : dims.m * dims.n ≤ outLength) :
    config.requireOperands dims transposed operands outLength = .ok () := by
  simp only [requireOperands]
  rw [requireSize_eq_ok _ hfits.m hfits.x, ok_bind, requireSize_eq_ok _ hfits.m hfits.out, ok_bind,
    requireSize_eq_ok _ hfits.rows hfits.w, ok_bind, requireSize_eq_ok _ hfits.rows hfits.groups,
    ok_bind, requireSize_eq_ok _ hfits.rows hfits.groups, ok_bind, requireRoom_eq_ok hcovers.x,
    ok_bind, requireRoom_eq_ok hout, ok_bind, requireRoom_eq_ok hcovers.w, ok_bind,
    requireRoom_eq_ok hcovers.scales, ok_bind, requireRoom_eq_ok hcovers.biases]

theorem requireVariant_eq_ok
    (hvariant : variant = .lanes → Variant.lanesFit config.width = true) :
    config.requireVariant variant = .ok () := by
  refine if_neg ?_
  rintro ⟨hlanes, hfit⟩
  rw [hvariant hlanes] at hfit
  cases hfit

theorem productOf_eq_ok (hvariant : variant = .lanes → Variant.lanesFit config.width = true)
    (hgroups : dims.inner variant.isTransposed % config.group.size = 0)
    (hcovers : operands.Covers config dims variant.isTransposed) :
    config.productOf variant dims operands =
      .ok ((List.range (dims.m * dims.n)).map fun cell =>
        (operands.elementAt config dims variant cell).narrow F) := by
  rw [productOf]
  split
  · next hempty =>
      have hcells : dims.m * dims.n = 0 := Nat.mul_eq_zero.mpr hempty
      rw [hcells]
      rfl
  · split
    · next hk =>
        simp only [Matrices.elementAt_empty operands config dims variant _ hk,
          Binary.narrow_zero, List.map_const', List.length_range]
    · exact Kernel.product_eq_ok hvariant hgroups hcovers

variable (config dims variant) in
/-- A product of operands that are long enough is written over the front of the output. -/
theorem multiplyInto_eq_ok (hvariant : variant = .lanes → Variant.lanesFit config.width = true)
    (hgroups : dims.inner variant.isTransposed % config.group.size = 0)
    (hfits : dims.Fits config variant.isTransposed)
    (hcovers : operands.Covers config dims variant.isTransposed) {out : List (Binary F)}
    (hout : dims.m * dims.n ≤ out.length) :
    config.multiplyInto variant dims operands out =
      .ok (overlay ((List.range (dims.m * dims.n)).map fun cell =>
        (operands.elementAt config dims variant cell).narrow F) out) := by
  simp only [multiplyInto]
  rw [requireWholeGroups_eq_ok _ hgroups, Checked.ofShape_ok, ok_bind,
    requireVariant_eq_ok hvariant, ok_bind, requireOperands_eq_ok hfits hcovers hout, ok_bind,
    productOf_eq_ok hvariant hgroups hcovers, ok_bind, pure_eq_ok]

end Config

end SubByte
