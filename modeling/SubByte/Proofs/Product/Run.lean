/-
# Runs — what carrying out a plan leaves behind

A run writes block after block.  When every batch of the plan reaches inside the operands
(`Plan.Ready`), no block can fail, so no verdict can come after a block has been written:
the run returns, and leaves the blocks one after another over the front of the output
(`execute_eq_ok`).  Blocks without elements and empty sums, which the run settles without
a look at the operands, are the same blocks.
-/
import SubByte.Product.Plan
import SubByte.Proofs.Product.Whole
import SubByte.Proofs.Tensor.Logical
import SubByte.Proofs.Written

namespace SubByte

namespace Plan

variable {F : Format}

/-- The matrices of a batch, as stretches of the operands. -/
def stretchesAt (plan : Plan) (data : Matrices F) (batch : Offsets) : Matrices F :=
  let rows := plan.dims.rows plan.transposed
  let inner := plan.dims.inner plan.transposed
  let groups := rows * (inner / plan.config.group.size)
  ⟨(data.x.drop batch.x).take (plan.dims.m * plan.dims.k),
    (data.w.drop batch.w).take (rows * plan.config.wordsOf inner),
    (data.scales.drop batch.scales).take groups, (data.biases.drop batch.biases).take groups⟩

/-- The matrices of a batch end inside the operands. -/
structure Reaches (plan : Plan) (data : Matrices F) (batch : Offsets) : Prop where
  x : batch.x + plan.dims.m * plan.dims.k ≤ data.x.length
  w : batch.w + plan.dims.rows plan.transposed *
    plan.config.wordsOf (plan.dims.inner plan.transposed) ≤ data.w.length
  scales : batch.scales + plan.dims.rows plan.transposed *
    (plan.dims.inner plan.transposed / plan.config.group.size) ≤ data.scales.length
  biases : batch.biases + plan.dims.rows plan.transposed *
    (plan.dims.inner plan.transposed / plan.config.group.size) ≤ data.biases.length

variable {plan : Plan} {data : Matrices F} {batch : Offsets}

theorem matricesAt_eq_ok (h : plan.Reaches data batch) :
    plan.matricesAt data batch = .ok (plan.stretchesAt data batch) := by
  simp only [matricesAt]
  rw [slice_eq_ok h.x, ok_bind, slice_eq_ok h.w, ok_bind, slice_eq_ok h.scales, ok_bind,
    slice_eq_ok h.biases, ok_bind, pure_eq_ok]
  rfl

theorem stretchesAt_covers (h : plan.Reaches data batch) :
    (plan.stretchesAt data batch).Covers plan.config plan.dims plan.transposed where
  x := Nat.le_of_eq (length_take_drop h.x).symm
  w := Nat.le_of_eq (length_take_drop h.w).symm
  scales := Nat.le_of_eq (length_take_drop h.scales).symm
  biases := Nat.le_of_eq (length_take_drop h.biases).symm

/-- The elements of a product, as its kernel forms them. -/
def productOf (plan : Plan) (simd : Bool) (matrices : Matrices F) : List (Binary F) :=
  (List.range (plan.dims.m * plan.dims.n)).map fun cell =>
    (matrices.elementAt plan.config plan.dims
      (.select plan.config.width plan.transposed simd) cell).narrow F

theorem length_productOf (plan : Plan) (simd : Bool) (matrices : Matrices F) :
    (plan.productOf simd matrices).length = plan.dims.m * plan.dims.n := by
  rw [productOf, List.length_map, List.length_range]

theorem lanesFit_of_select {width : CodeWidth} {transposed simd : Bool}
    (h : Variant.select width transposed simd = .lanes) : Variant.lanesFit width = true := by
  simp only [Variant.select] at h
  split at h
  · split at h
    · next hlanes => exact (Bool.and_eq_true_iff.mp hlanes).2
    · cases h
  · cases h

theorem multiplyInto_block (plan : Plan) (simd : Bool) {matrices : Matrices F}
    (hgroups : plan.dims.inner plan.transposed % plan.config.group.size = 0)
    (hfits : plan.dims.Fits plan.config plan.transposed)
    (hcovers : matrices.Covers plan.config plan.dims plan.transposed)
    {old : List (Binary F)} (hold : old.length = plan.dims.m * plan.dims.n) :
    plan.config.multiplyInto (.select plan.config.width plan.transposed simd) plan.dims
      matrices old = .ok (plan.productOf simd matrices) := by
  have htransposed := Variant.isTransposed_select plan.config.width plan.transposed simd
  rw [Config.multiplyInto_eq_ok _ _ _ lanesFit_of_select (by rwa [htransposed])
    (by rwa [htransposed]) (by rwa [htransposed]) (Nat.le_of_eq hold.symm)]
  exact congrArg Except.ok
    (overlay_eq_front (by rw [hold, List.length_map, List.length_range]))

/-! ## Blocks -/

/-- A run writes block after block, and a block in one piece. -/
theorem runBatches_eq_writeBlocks (plan : Plan) (variant : Variant) (data : Matrices F) :
    ∀ (batches : List Offsets) (out : List (Binary F)), plan.runBatches variant data batches out =
      writeBlocks (plan.dims.m * plan.dims.n) (batches.map fun batch old =>
        Written.ofResult (plan.blockAt variant data batch old) old) out
  | [], _ => rfl
  | batch :: rest, out => by
      rw [runBatches, List.map_cons, writeBlocks]
      simp only [runBatches_eq_writeBlocks plan variant data rest]
      cases plan.blockAt variant data batch (out.take (plan.dims.m * plan.dims.n)) with
      | ok block => rfl
      | error stop => simp only [Written.ofResult, List.take_append_drop]

/-! ## Plans -/

/-- Nothing is left to fail.  What concerns the operands is asked for only where the run
looks at them. -/
structure Ready (plan : Plan) (operands : Operands) (data : Matrices plan.type.format)
    (outLength : Nat) : Prop where
  typed : plan.requireTyped operands = .ok data
  groups : plan.dims.inner plan.transposed % plan.config.group.size = 0
  room : plan.batches.length * (plan.dims.m * plan.dims.n) ≤ outLength
  fits : 0 < plan.dims.m → 0 < plan.dims.n → 0 < plan.dims.k → plan.batches ≠ [] →
    plan.dims.Fits plan.config plan.transposed
  reaches : 0 < plan.dims.m → 0 < plan.dims.n → 0 < plan.dims.k → ∀ batch ∈ plan.batches,
    plan.Reaches data batch

/-- The products of all batches, one after another. -/
def products (plan : Plan) (simd : Bool) (data : Matrices F) : List (Binary F) :=
  (plan.batches.map fun batch => plan.productOf simd (plan.stretchesAt data batch)).flatten

theorem length_products (plan : Plan) (simd : Bool) (data : Matrices F) :
    (plan.products simd data).length =
      plan.batches.length * (plan.dims.m * plan.dims.n) := by
  have hlengths : (List.length ∘ fun batch => plan.productOf simd (plan.stretchesAt data batch)) =
      fun _ => plan.dims.m * plan.dims.n := by
    funext batch
    exact length_productOf plan simd _
  rw [products, List.length_flatten, List.map_map, hlengths, List.map_const',
    List.sum_replicate_nat]

theorem take_drop_products (plan : Plan) (simd : Bool) (data : Matrices F)
    (old : List (Binary F)) {b : Nat} {batch : Offsets} (hbatch : plan.batches[b]? = some batch) :
    ((overlay (plan.products simd data) old).drop (b * (plan.dims.m * plan.dims.n))).take
        (plan.dims.m * plan.dims.n) =
      plan.productOf simd (plan.stretchesAt data batch) := by
  obtain ⟨hb, -⟩ := List.getElem?_eq_some_iff.mp hbatch
  have hend := row_end_le hb (Nat.le_refl (plan.batches.length * (plan.dims.m * plan.dims.n)))
  rw [← length_products plan simd data] at hend
  rw [overlay, List.drop_append_of_le_length (by omega),
    List.take_append_of_le_length (by rw [List.length_drop]; omega), products]
  refine take_drop_flatten ?_ (by rw [List.getElem?_map, hbatch, Option.map_some])
  intro block hmem
  obtain ⟨batch, -, rfl⟩ := List.mem_map.mp hmem
  exact length_productOf plan simd _

theorem products_eq_nil {simd : Bool}
    (h : plan.dims.m = 0 ∨ plan.dims.n = 0 ∨ plan.batches = []) :
    plan.products simd data = [] := by
  have hblock : plan.batches = [] ∨ plan.dims.m * plan.dims.n = 0 := by
    rcases h with hm | hn | hbatches
    · exact .inr (by rw [hm, Nat.zero_mul])
    · exact .inr (by rw [hn, Nat.mul_zero])
    · exact .inl hbatches
  rw [products, List.flatten_eq_nil_iff]
  intro block hmem
  obtain ⟨batch, hbatch, rfl⟩ := List.mem_map.mp hmem
  rcases hblock with hbatches | hsize
  · rw [hbatches] at hbatch
    cases hbatch
  · rw [productOf, hsize]
    rfl

theorem products_eq_zeros {simd : Bool} (hk : plan.dims.k = 0) :
    plan.products simd data =
      List.replicate (plan.batches.length * plan.dims.m * plan.dims.n) 0 := by
  have hblock : ∀ matrices : Matrices F, plan.productOf simd matrices =
      List.replicate (plan.dims.m * plan.dims.n) 0 := by
    intro matrices
    simp only [productOf, Matrices.elementAt_empty _ _ _ _ _ hk, Binary.narrow_zero,
      List.map_const', List.length_range]
  simp only [products, hblock]
  rw [List.map_const', List.flatten_replicate_replicate, Nat.mul_assoc]

/-- A plan that is ready is carried out: its products stand over the front of the output,
and what was behind them stays. -/
theorem execute_eq_ok {plan : Plan} {operands : Operands} {data : Matrices plan.type.format}
    {out : Buffer} {old : List (Binary plan.type.format)} (simd : Bool)
    (hready : plan.Ready operands data out.length)
    (hout : out.as? (.float plan.type) = some old) :
    plan.execute simd operands out =
      (.ok (), ⟨.float plan.type, overlay (plan.products simd data) old⟩) := by
  have hlength := Buffer.length_of_as? hout
  have hroom := hready.room
  rw [← hlength] at hroom
  rw [execute]
  split
  · next hempty =>
      rw [products_eq_nil hempty]
      exact congrArg (Prod.mk _) (Buffer.eq_of_as? hout)
  · next hfull =>
      rw [not_or, not_or] at hfull
      obtain ⟨hm, hn, hbatches⟩ := hfull
      have hm := Nat.pos_of_ne_zero hm
      have hn := Nat.pos_of_ne_zero hn
      rw [hout]
      -- Over an empty sum zeros are written, without a look at the operands.
      by_cases hk : plan.dims.k = 0
      · simp only [hk, if_true, fillZero]
        rw [Nat.mul_assoc, if_pos hroom, products_eq_zeros hk, Nat.mul_assoc]
      · simp only [hk, if_false, run, hready.typed]
        have hk := Nat.pos_of_ne_zero hk
        have hfits := hready.fits hm hn hk hbatches
        rw [runBatches_eq_writeBlocks, writeBlocks_eq_ok hroom]
        · rfl
        · intro batch hbatch
          have hreaches := hready.reaches hm hn hk batch hbatch
          refine ⟨length_productOf plan simd (plan.stretchesAt data batch), fun block hblock => ?_⟩
          rw [blockAt, matricesAt_eq_ok hreaches, Checked.ofFault_ok, ok_bind,
            plan.multiplyInto_block simd hready.groups hfits (stretchesAt_covers hreaches) hblock,
            Written.ofResult]

end Plan

end SubByte
