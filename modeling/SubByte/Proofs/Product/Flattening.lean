/-
# Flattening — batches of rows as rows of one batch

A dense stack of activations is one matrix with all rows of the stack, and a dense stack of
outputs is one output.  With weights that have no batches of their own a product of the
stacks and a product of the two matrices are the same call (`quantizedMatmul_flatten`): the
checks see the same types and extents apart from the number of rows, which no stored
operand depends on, and block `b` of the one is the rows from `b * m` on of the other.

The two are planned differently.  A stack has an entry for every batch, and a plan of more
entries than one allocation holds is not made, also where no block has an element; the
plan of one matrix has one entry.  So a stack of very many empty matrices is a call that
does not return, and the same buffers seen as one matrix are a call that does
(`quantizedMatmul_flatten_not_storage`).  A call on a stack that returns has had its plan.
-/
import SubByte.Proofs.Product.Logical
import SubByte.Proofs.Product.Planar
import SubByte.Proofs.Product.Prefixes
import SubByte.Proofs.Product.Verdict

namespace SubByte

variable {view x w scales biases out flat : View} {batch : List Nat} {rows cols m n k : Nat}
  {config : Config} {type : FloatType} {transposed simd : Bool} {bits groupSize : Nat}

/-! ## Stacks -/

/-- Matrices one after another, with no more rows than an address can count; one dimension
alone is a stack of one row. -/
structure View.Stacks (view : View) (batch : List Nat) (rows cols : Nat) : Prop where
  shape : MatrixShape.ofShape? view.shape = some ⟨batch, rows, cols⟩
  dense : view.layout.isRowContiguous = true
  rows_lt : extentProduct batch * rows < addressLimit
  cols_lt : cols < addressLimit

namespace View.Stacks

theorem of_contiguous {buffer : Buffer}
    (h : View.contiguous buffer (batch ++ [rows, cols]) = .ok view)
    (hcount : ∀ inner ∈ (batch ++ [rows, cols]).tails, inner.prod < addressLimit)
    (hrows : extentProduct batch * rows < addressLimit) (hcols : cols < addressLimit) :
    view.Stacks batch rows cols := by
  have hlayout := (View.contiguous_eq_ok h).2
  refine ⟨?_, ?_, hrows, hcols⟩
  · rw [View.shape, hlayout]
    exact MatrixShape.ofShape?_append batch rows cols
  · rw [hlayout]
    exact Layout.isRowContiguous_contiguous hcount

theorem batchShape (h : view.Stacks batch rows cols) : view.layout.batchShape 2 = batch :=
  (MatrixShape.ofShape?_eq_some h.shape).1

theorem outBatchShape_eq (h : view.Stacks batch rows cols) : outBatchShape view = batch := by
  rw [outBatchShape, h.shape]

theorem matrixShape_prod (h : view.Stacks batch rows cols) :
    view.layout.matrixShape.prod = rows * cols :=
  View.prod_matrixShape ⟨batch, h.shape⟩

theorem size_eq (h : view.Stacks batch rows cols) :
    view.layout.size = extentProduct batch * rows * cols := by
  rw [Layout.size_eq_batches, h.batchShape, h.matrixShape_prod, Nat.mul_assoc]

theorem exists_planar (h : view.Stacks batch rows cols) :
    ∃ flat : View, flat.Planar view.buffer (extentProduct batch * rows) cols := by
  have hroom := View.size_le_of_dense h.dense
  have hsize : view.layout.size < addressLimit := by
    by_cases hzero : 0 ∈ view.layout.shape
    · rw [Layout.size, extentProduct_eq_prod, List.prod_eq_zero_iff.mpr hzero]
      decide
    · rw [Layout.size, extentProduct_eq_prod]
      exact view.covered_prod_lt (pos_of_zero_not_mem hzero)
  rw [h.size_eq] at hroom hsize
  exact View.exists_planar view.buffer h.rows_lt h.cols_lt hsize hroom

theorem placeAt (h : view.Stacks batch rows cols) {b : Nat} (hb : b < extentProduct batch) :
    view.placeAt batch b = b * (rows * cols) := by
  have hpos := pos_of_lt_extentProduct hb
  have hsplit : view.layout.dimensions =
      (view.layout.batchShape 2).zip (view.layout.batchStrides 2) ++
        view.layout.matrixShape.zip view.layout.matrixStrides := by
    rw [← List.zip_append view.layout.length_batchStrides.symm, view.layout.batch_append_matrix,
      view.layout.batchStrides_append_matrix]
    rfl
  have hlengths : view.layout.matrixStrides.length = view.layout.matrixShape.length := by
    rw [Layout.matrixStrides, Layout.matrixShape, List.length_drop, List.length_drop,
      view.layout.rank_eq]
  have hdense := Layout.isRowContiguous_iff.mp h.dense
  rw [hsplit] at hdense
  have hplace := hdense.place_outer b
  rw [List.map_fst_zip (Nat.le_of_eq view.layout.length_batchStrides.symm),
    List.map_snd_zip (Nat.le_of_eq view.layout.length_batchStrides),
    List.map_fst_zip (Nat.le_of_eq hlengths.symm), h.batchShape, h.matrixShape_prod] at hplace
  rw [extentProduct_eq_prod] at hb
  rw [View.placeAt, h.batchShape, pinned_self hpos, hplace, Nat.mod_eq_of_lt hb]

end View.Stacks

theorem View.placeAt_unbatched (h : view.layout.batchShape 2 = []) (target : List Nat) (b : Nat) :
    view.placeAt target b = 0 := by
  rw [View.placeAt, h]
  rfl

theorem Layout.batchShape_of_rank {layout : Layout} (h : layout.shape.length = 2) :
    layout.batchShape 2 = [] := by
  rw [batchShape, rank, h]
  rfl

/-! ## Checks -/

theorem Dims.ofShapes_rows {xBatch outBatch xBatch' outBatch' xShape xShape' outShape outShape'
    w scales biases : List Nat} {m' : Nat}
    (hx : MatrixShape.ofShape? xShape = some ⟨xBatch, m, k⟩)
    (hout : MatrixShape.ofShape? outShape = some ⟨outBatch, m, n⟩)
    (hx' : MatrixShape.ofShape? xShape' = some ⟨xBatch', m', k⟩)
    (hout' : MatrixShape.ofShape? outShape' = some ⟨outBatch', m', n⟩) :
    Dims.ofShapes xShape' w scales biases outShape' bits groupSize transposed =
      (fun dims => { dims with m := m' }) <$>
        Dims.ofShapes xShape w scales biases outShape bits groupSize transposed := by
  have hmatrix : ∀ {operand shape matrix}, MatrixShape.ofShape? shape = some matrix →
      Dims.requireMatrix operand shape = .ok matrix := by
    intro operand shape matrix h
    rw [Dims.requireMatrix, h]
  have hrows : ∀ {outMatrix xMatrix : MatrixShape}, outMatrix.rows = xMatrix.rows →
      Dims.requireRows outMatrix xMatrix = .ok () := fun h => if_pos h
  simp only [Dims.ofShapes, hmatrix hx, hmatrix hout, hmatrix hx', hmatrix hout', ok_bind,
    hrows, Dims.rows, Dims.inner, map_bind, map_pure]

theorem Checked.ofShape_map {α β : Type} (f : α → β) (x : Checked ShapeError α) :
    Checked.ofShape (f <$> x) = f <$> Checked.ofShape x := by
  cases x with
  | ok a => rfl
  | error stop => cases stop <;> rfl

theorem Operands.validate_flat {xFlat outFlat : View} (hx : x.Stacks batch m k)
    (hout : out.Stacks batch m n)
    (hxFlat : xFlat.Planar x.buffer (extentProduct batch * m) k)
    (houtFlat : outFlat.Planar out.buffer (extentProduct batch * m) n) :
    Operands.validate ⟨xFlat, w, scales, biases⟩ outFlat config transposed =
      (fun settled => (settled.1, { settled.2 with m := extentProduct batch * m })) <$>
        Operands.validate ⟨x, w, scales, biases⟩ out config transposed := by
  have hxMatrix : MatrixShape.ofShape? xFlat.shape = some ⟨[], extentProduct batch * m, k⟩ := by
    rw [hxFlat.shape]
    rfl
  have houtMatrix : MatrixShape.ofShape? outFlat.shape = some ⟨[], extentProduct batch * m, n⟩ := by
    rw [houtFlat.shape]
    rfl
  have hdims : Operands.dims ⟨xFlat, w, scales, biases⟩ outFlat config transposed =
      (fun dims => { dims with m := extentProduct batch * m }) <$>
        Operands.dims ⟨x, w, scales, biases⟩ out config transposed := by
    rw [Operands.dims, Operands.dims, ← Checked.ofShape_map]
    exact congrArg Checked.ofShape (Dims.ofShapes_rows hx.shape hout.shape hxMatrix houtMatrix)
  have hxType : requireFloatType xFlat = requireFloatType x := by
    rw [requireFloatType, requireFloatType, View.dtype, View.dtype, hxFlat.buffer_eq]
  have houtType : ∀ d, requireDType .out d outFlat = requireDType .out d out := by
    intro d
    rw [requireDType, requireDType, View.dtype, View.dtype, houtFlat.buffer_eq]
  have hmatrices : ∀ {view : View}, view.layout.isMatrixContiguous = true →
      requireMatrices .x view = .ok () := fun h => if_pos h
  have hdense : ∀ {view : View}, view.layout.isRowContiguous = true →
      requireDense .out view = .ok () := fun h => if_pos h
  simp only [Operands.validate, hxType, houtType, hdims,
    hmatrices (Layout.isMatrixContiguous_of_dense hx.dense), hmatrices hxFlat.isMatrixContiguous,
    hdense hout.dense, hdense houtFlat.isRowContiguous, ok_bind, map_bind, map_pure, bind_map_left]

/-! ## Blocks -/

namespace Plan

/-- Operands with a stack of activations and weights of no batches. -/
structure Stacked (operands : Operands) (batch : List Nat) (m k : Nat) : Prop where
  x : operands.x.Stacks batch m k
  w : operands.w.layout.batchShape 2 = []
  scales : operands.scales.layout.batchShape 2 = []
  biases : operands.biases.layout.batchShape 2 = []

variable {operands flatOperands : Operands} {data : Matrices type.format}

/-- Block `b` of a stack is the rows from `b * m` on of the product as one matrix. -/
theorem elementAt_block (h : Stacked operands batch m k) {variant : Variant}
    (hvariant : variant.isTransposed = transposed) {b : Nat} (hb : b < extentProduct batch)
    {cell : Nat} (hcell : cell < m * n) :
    let stack := Plan.broadcast operands type ⟨m, n, k⟩ config transposed batch
    let flat := Plan.broadcast flatOperands type ⟨extentProduct batch * m, n, k⟩ config transposed []
    (stack.stretchesAt data (operands.broadcastAt batch b)).elementAt config stack.dims variant
        cell =
      (flat.stretchesAt data ⟨0, 0, 0, 0⟩).elementAt config flat.dims variant
        (b * (m * n) + cell) := by
  intro stack flat
  subst hvariant
  have hdims : ∀ c, (flat.stretchesAt data ⟨0, 0, 0, 0⟩).elementAt config flat.dims variant c =
      (flat.stretchesAt data ⟨0, 0, 0, 0⟩).elementAt config stack.dims variant c :=
    fun c => by cases variant <;> rfl
  rw [hdims, ← Nat.mul_assoc]
  refine Matrices.elementAt_shift variant (b * m) (fun i hi => ?_) (fun i _ => ?_) hcell
  · have hrow := row_end_le hb (Nat.le_refl (extentProduct batch * (m * k)))
    have hi : i < m * k := hi
    have hplace : b * m * k + i < extentProduct batch * m * k := by
      rw [Nat.mul_assoc, Nat.mul_assoc]
      omega
    simp only [Matrices.xAt, stretchesAt, broadcast, stack, flat]
    rw [Matrices.getD_take _ hi, Matrices.getD_take _ hplace, Matrices.getD_drop,
      Matrices.getD_drop, Nat.zero_add, Operands.broadcastAt, h.x.placeAt hb, Nat.mul_assoc]
  · simp only [Matrices.weightAt, Matrices.affineAt, stretchesAt, broadcast, Operands.broadcastAt,
      View.placeAt_unbatched h.w, View.placeAt_unbatched h.scales,
      View.placeAt_unbatched h.biases, Dims.rows, Dims.inner, stack, flat]

theorem products_flat (h : Stacked operands batch m k) (hto : flatOperands.BroadcastTo []) :
    (Plan.broadcast operands type ⟨m, n, k⟩ config transposed batch).products simd data =
      (Plan.broadcast flatOperands type ⟨extentProduct batch * m, n, k⟩ config transposed
        []).products simd data := by
  by_cases hempty : m = 0 ∨ n = 0
  · have hflat : extentProduct batch * m = 0 ∨ n = 0 := by
      refine hempty.imp_left fun hm => ?_
      rw [hm, Nat.mul_zero]
    rw [products_eq_nil (.inr (.inr (if_pos hempty))), products_eq_nil (.inr (.inr (if_pos hflat)))]
  · have hbatches : (Plan.broadcast operands type ⟨m, n, k⟩ config transposed batch).batches =
        (List.range (extentProduct batch)).map (operands.broadcastAt batch) := if_neg hempty
    rw [products_single simd hto data, products, hbatches, List.map_map, ← List.flatMap_def,
      productOf]
    show _ = (List.range (extentProduct batch * m * n)).map _
    rw [Nat.mul_assoc, ← flatMap_range_mul]
    refine List.flatMap_congr fun b hb => List.map_congr_left fun cell hcell => ?_
    exact congrArg (Binary.narrow _) (elementAt_block h (Variant.isTransposed_select _ _ _)
      (List.mem_range.mp hb) (List.mem_range.mp hcell))

end Plan

/-! ## Calls -/

theorem quantizedMatmul_eq_error {operands : Operands} {stop : Stop QuantError}
    (h : Plan.batched operands out bits groupSize transposed = .error stop) :
    quantizedMatmul simd operands out bits groupSize transposed = (.error stop, out.buffer) := by
  rw [quantizedMatmul, h]
  rfl

theorem Plan.batched_eq_error {operands : Operands} {stop : Stop QuantError}
    (hconfig : Config.ofParameters bits groupSize = .ok config)
    (h : operands.validate out config transposed = .error stop) :
    Plan.batched operands out bits groupSize transposed = .error stop := by
  rw [Plan.batched, hconfig, Checked.ofExcept_ok, ok_bind, h]
  rfl

theorem Plan.Stacked.broadcastTo {operands : Operands} (h : Stacked operands batch m k) :
    operands.BroadcastTo batch where
  x := h.x.batchShape ▸ .refl batch
  w := h.w ▸ .nil batch
  scales := h.scales ▸ .nil batch
  biases := h.biases ▸ .nil batch

theorem Operands.Settled.extents_eq {operands : Operands} {dims : Dims}
    (h : operands.Settled out config transposed type dims) (hx : operands.x.Stacks batch m k)
    (hout : out.Stacks batch m n) : dims = ⟨m, n, k⟩ := by
  obtain ⟨hm, hk⟩ := h.fitted.x.unique ⟨batch, hx.shape⟩
  obtain ⟨-, hn⟩ := h.fitted.out.unique ⟨batch, hout.shape⟩
  rw [← hm, ← hn, ← hk]

theorem quantizedMatmul_stack {xFlat outFlat : View}
    (hconfig : Config.ofParameters bits groupSize = .ok config)
    (hstack : Plan.Stacked ⟨x, w, scales, biases⟩ batch m k) (hout : out.Stacks batch m n)
    (hxFlat : xFlat.Planar x.buffer (extentProduct batch * m) k)
    (houtFlat : outFlat.Planar out.buffer (extentProduct batch * m) n)
    {dims : Dims}
    (hvalidate : Operands.validate ⟨x, w, scales, biases⟩ out config transposed = .ok (type, dims))
    (hstorage : extentProduct batch * Offsets.bytes ≤ storageLimit) :
    quantizedMatmul simd ⟨x, w, scales, biases⟩ out bits groupSize transposed =
      quantizedMatmul simd ⟨xFlat, w, scales, biases⟩ outFlat bits groupSize transposed := by
  have hsettled : Operands.Settled ⟨x, w, scales, biases⟩ out config transposed type dims :=
    Operands.validate_eq_ok hvalidate
  obtain rfl := hsettled.extents_eq hstack.x hout
  have hflat : Operands.validate ⟨xFlat, w, scales, biases⟩ outFlat config transposed =
      .ok (type, ⟨extentProduct batch * m, n, k⟩) := by
    rw [Operands.validate_flat hstack.x hout hxFlat houtFlat, hvalidate]
    rfl
  have hshape := hout.outBatchShape_eq
  have hshapeFlat : outBatchShape outFlat = [] := by
    rw [outBatchShape, houtFlat.shape]
    rfl
  have hto : Operands.BroadcastTo ⟨xFlat, w, scales, biases⟩ [] :=
    ⟨(hxFlat.batch 0).1, hstack.w ▸ .nil [], hstack.scales ▸ .nil [], hstack.biases ▸ .nil []⟩
  -- Both calls are planned, one for every batch and one for the one matrix.
  have hplan := Plan.batched_accepts hconfig hvalidate (hshape ▸ hstack.broadcastTo)
    (hshape ▸ hstorage)
  have hplanFlat := Plan.batched_accepts hconfig hflat (hshapeFlat ▸ hto)
    (by rw [hshapeFlat]; decide)
  rw [hshape] at hplan
  rw [hshapeFlat] at hplanFlat
  obtain ⟨data, hdata⟩ := hsettled.reads
  obtain ⟨old, hold⟩ := View.as?_of_dtype hsettled.outType
  have hold := Buffer.eq_of_as? hold
  have hreads : Operands.Reads ⟨xFlat, w, scales, biases⟩ type data := by
    refine ⟨?_, hdata.w, hdata.scales, hdata.biases⟩
    rw [View.as?, hxFlat.buffer_eq]
    exact hdata.x
  have hcall := quantizedMatmul_eq_ok simd hplan hdata hold
  have hcallFlat := quantizedMatmul_eq_ok simd hplanFlat hreads (houtFlat.buffer_eq.trans hold)
  exact hcall.trans ((congrArg (fun products : List (Binary type.format) =>
    ((.ok (), ⟨.float type, overlay products old⟩) : Written Buffer))
    (Plan.products_flat hstack hto)).trans hcallFlat.symm)

/-- A product of a stack of activations with weights that have no batches is the product of
the one matrix that the stack makes: the call leaves the same buffer and returns the same,
rejections included, if it returns at all or has storage for the entries of its batches. -/
theorem quantizedMatmul_flatten (simd : Bool) (x w scales biases out : View)
    (bits groupSize : Nat) (transposed : Bool) {batch : List Nat} {m n k : Nat}
    (hx : x.Stacks batch m k) (hout : out.Stacks batch m n) (hw : w.shape.length = 2)
    (hscales : scales.shape.length = 2) (hbiases : biases.shape.length = 2)
    (hreturns : (quantizedMatmul simd ⟨x, w, scales, biases⟩ out bits groupSize transposed).1 =
        .ok () ∨ extentProduct batch * Offsets.bytes ≤ storageLimit) :
    ∃ xFlat outFlat, View.contiguous x.buffer [extentProduct batch * m, k] = .ok xFlat ∧
      View.contiguous out.buffer [extentProduct batch * m, n] = .ok outFlat ∧
      quantizedMatmul simd ⟨x, w, scales, biases⟩ out bits groupSize transposed =
        quantizedMatmul simd ⟨xFlat, w, scales, biases⟩ outFlat bits groupSize transposed := by
  obtain ⟨xFlat, hxFlat⟩ := hx.exists_planar
  obtain ⟨outFlat, houtFlat⟩ := hout.exists_planar
  have hstack : Plan.Stacked ⟨x, w, scales, biases⟩ batch m k :=
    ⟨hx, Layout.batchShape_of_rank hw, Layout.batchShape_of_rank hscales,
      Layout.batchShape_of_rank hbiases⟩
  refine ⟨xFlat, outFlat, hxFlat.made, houtFlat.made, ?_⟩
  cases hconfig : Config.ofParameters bits groupSize with
  | error cause =>
      have hplan : ∀ operands : Operands, ∀ out : View,
          Plan.batched operands out bits groupSize transposed = .error (.rejected cause) := by
        intro operands out
        rw [Plan.batched, hconfig]
        rfl
      rw [quantizedMatmul_eq_error (hplan _ _), quantizedMatmul_eq_error (hplan _ _),
        houtFlat.buffer_eq]
  | ok config =>
      cases hvalidate : Operands.validate ⟨x, w, scales, biases⟩ out config transposed with
      | error stop =>
          have hflat : Operands.validate ⟨xFlat, w, scales, biases⟩ outFlat config transposed =
              .error stop := by
            rw [Operands.validate_flat hx hout hxFlat houtFlat, hvalidate]
            rfl
          rw [quantizedMatmul_eq_error (Plan.batched_eq_error hconfig hvalidate),
            quantizedMatmul_eq_error (Plan.batched_eq_error hconfig hflat), houtFlat.buffer_eq]
      | ok settled =>
          refine quantizedMatmul_stack hconfig hstack hout hxFlat houtFlat hvalidate ?_
          rcases hreturns with hok | hstorage
          · have hplan := (quantizedMatmul_ok_iff simd).mp hok
            have hbatches := ((Plan.batched_ok_iff hconfig hvalidate).mp hplan).2
            rwa [hout.outBatchShape_eq] at hbatches
          · exact hstorage

/-- Two batches of two rows are four rows, and one dimension alone is one row. -/
theorem quantizedMatmul_flatten_rows :
    let xs : Buffer := ⟨.float .f32, List.replicate 128 (.ofNat .single 1)⟩
    let old : Buffer := ⟨.float .f32, List.replicate 7 .nan⟩
    let w : View := ⟨⟨.u32, [1, 2, 3, 4]⟩, .contiguous [1, 4], 4, rfl, Nat.le_refl 4⟩
    let scales : View := ⟨⟨.float .f32, [0]⟩, .contiguous [1, 1], 1, rfl, Nat.le_refl 1⟩
    let x : View := ⟨xs, .contiguous [2, 1, 2, 32], 128, rfl, Nat.le_refl 128⟩
    let out : View := ⟨old, .contiguous [2, 1, 2, 1], 4, rfl, Nat.le_add_right 4 3⟩
    let row : View := ⟨xs, .contiguous [32], 32, rfl, Nat.le_add_right 32 96⟩
    let dot : View := ⟨old, .contiguous [1], 1, rfl, Nat.le_add_right 1 6⟩
    let stack := quantizedMatmul true ⟨x, w, scales, scales⟩ out 4 32 true
    stack.1 = .ok () ∧
    (∃ xFlat outFlat, View.contiguous xs [4, 32] = .ok xFlat ∧
      View.contiguous old [4, 1] = .ok outFlat ∧
      stack = quantizedMatmul true ⟨xFlat, w, scales, scales⟩ outFlat 4 32 true) ∧
    ∃ xFlat outFlat, View.contiguous xs [1, 32] = .ok xFlat ∧
      View.contiguous old [1, 1] = .ok outFlat ∧
      quantizedMatmul true ⟨row, w, scales, scales⟩ dot 4 32 true =
        quantizedMatmul true ⟨xFlat, w, scales, scales⟩ outFlat 4 32 true := by
  intro xs old w scales x out row dot stack
  have hx : View.contiguous xs ([2, 1] ++ [2, 32]) = .ok x :=
    View.ofLayout_eq_ok rfl (Nat.le_refl 128)
  have hout : View.contiguous old ([2, 1] ++ [2, 1]) = .ok out :=
    View.ofLayout_eq_ok rfl (Nat.le_add_right 4 3)
  have hrow : row.Stacks [] 1 32 :=
    ⟨rfl, Layout.isRowContiguous_contiguous (by decide), by decide, by decide⟩
  have hdot : dot.Stacks [] 1 1 :=
    ⟨rfl, Layout.isRowContiguous_contiguous (by decide), by decide, by decide⟩
  have hvalidate : Operands.validate ⟨x, w, scales, scales⟩ out ⟨.four, .g32⟩ true =
      .ok (.f32, ⟨2, 1, 32⟩) := rfl
  have hto : Operands.BroadcastTo ⟨x, w, scales, scales⟩ [2, 1] :=
    ⟨.refl [2, 1], .nil _, .nil _, .nil _⟩
  have hreturns : stack.1 = .ok () :=
    (quantizedMatmul_ok_iff true).mpr
      ((Plan.batched_ok_iff rfl hvalidate).mpr ⟨hto, by decide⟩)
  exact ⟨hreturns,
    quantizedMatmul_flatten true x w scales scales out 4 32 true
      (.of_contiguous hx (by decide) (by decide) (by decide))
      (.of_contiguous hout (by decide) (by decide) (by decide)) rfl rfl rfl (.inl hreturns),
    quantizedMatmul_flatten true row w scales scales dot 4 32 true hrow hdot rfl rfl rfl
      (.inr (by decide))⟩

/-- `2 ^ 58` batches of no rows: the operands are in order, the call on the stack does not
return, and the call on the one matrix without rows does. -/
theorem quantizedMatmul_flatten_not_storage :
    let empty : Buffer := ⟨.float .f32, []⟩
    let x : View := ⟨empty, .contiguous [288230376151711744, 0, 32], 0, rfl, Nat.le_refl 0⟩
    let w : View := ⟨⟨.u32, [0, 0, 0, 0]⟩, .contiguous [1, 4], 4, rfl, Nat.le_refl 4⟩
    let scales : View := ⟨⟨.float .f32, [0]⟩, .contiguous [1, 1], 1, rfl, Nat.le_refl 1⟩
    let out : View := ⟨empty, .contiguous [288230376151711744, 0, 1], 0, rfl, Nat.le_refl 0⟩
    let xFlat : View := ⟨empty, .contiguous [0, 32], 0, rfl, Nat.le_refl 0⟩
    let outFlat : View := ⟨empty, .contiguous [0, 1], 0, rfl, Nat.le_refl 0⟩
    let stack := quantizedMatmul true ⟨x, w, scales, scales⟩ out 4 32 true
    let flat := quantizedMatmul true ⟨xFlat, w, scales, scales⟩ outFlat 4 32 true
    x.Stacks [288230376151711744] 0 32 ∧ out.Stacks [288230376151711744] 0 1 ∧
    View.contiguous empty [extentProduct [288230376151711744] * 0, 32] = .ok xFlat ∧
    View.contiguous empty [extentProduct [288230376151711744] * 0, 1] = .ok outFlat ∧
    Operands.validate ⟨x, w, scales, scales⟩ out ⟨.four, .g32⟩ true = .ok (.f32, ⟨0, 1, 32⟩) ∧
    stack.1 = .error (.fault .outOfStorage) ∧ flat.1 = .ok () ∧ stack ≠ flat := by
  intro empty x w scales out xFlat outFlat stack flat
  have hx : View.contiguous empty ([288230376151711744] ++ [0, 32]) = .ok x :=
    View.ofLayout_eq_ok rfl (Nat.zero_le _)
  have hout : View.contiguous empty ([288230376151711744] ++ [0, 1]) = .ok out :=
    View.ofLayout_eq_ok rfl (Nat.zero_le _)
  have hvalidate : Operands.validate ⟨x, w, scales, scales⟩ out ⟨.four, .g32⟩ true =
      .ok (.f32, ⟨0, 1, 32⟩) := rfl
  have hstorage : storageLimit < extentProduct (outBatchShape out) * Offsets.bytes := by
    have hbatches : extentProduct (outBatchShape out) = 288230376151711744 := rfl
    rw [hbatches]
    decide
  have hnone : BroadcastsTo [] [288230376151711744] := .nil _
  have hto : Operands.BroadcastTo ⟨x, w, scales, scales⟩ (outBatchShape out) :=
    ⟨.refl [288230376151711744], hnone, hnone, hnone⟩
  have hstack : stack.1 = .error (.fault .outOfStorage) := by
    rw [quantizedMatmul_error_iff]
    exact Plan.batched_eq_outOfStorage rfl hvalidate hto hstorage
  have hflat : flat.1 = .ok () := rfl
  refine ⟨.of_contiguous hx (by decide) (by decide) (by decide),
    .of_contiguous hout (by decide) (by decide) (by decide),
    View.ofLayout_eq_ok rfl (Nat.zero_le _), View.ofLayout_eq_ok rfl (Nat.zero_le _), hvalidate,
    hstack, hflat, fun hsame => ?_⟩
  rw [hsame, hflat] at hstack
  cases hstack

end SubByte
