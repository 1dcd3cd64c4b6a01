/-
# Planar — a product of two-dimensional operands

A matrix of its own is seen by a dense view of two dimensions.  Operands that are such
views (`Operands.Planar`) pass every check of a broadcast product, as long as they have
the extents of one: their types and shapes are what the checks ask for, they lie densely,
and they make one batch that begins at the beginning of every buffer.  So the call
returns, and what it writes is the product of the four matrices (`quantizedMatmul_planar`).
Nothing is asked of the machine; the storage of a plan with one entry is always there.
-/
import SubByte.Proofs.Product.Accepted

namespace SubByte

/-! ## Dense matrices -/

/-- A dense view of one matrix, whose extents are addresses also when it is empty. -/
structure View.Planar (view : View) (buffer : Buffer) (rows cols : Nat) : Prop where
  made : View.contiguous buffer [rows, cols] = .ok view
  rows_lt : rows < addressLimit
  cols_lt : cols < addressLimit
  size_lt : rows * cols < addressLimit

namespace View

variable {view : View} {buffer : Buffer} {rows cols : Nat}

theorem exists_planar (buffer : Buffer) (hrows : rows < addressLimit) (hcols : cols < addressLimit)
    (hsize : rows * cols < addressLimit) (hroom : rows * cols ≤ buffer.length) :
    ∃ view, View.Planar view buffer rows cols := by
  have hprod : [rows, cols].prod = rows * cols := by
    rw [List.prod_cons, List.prod_cons, List.prod_nil, Nat.mul_one]
  have hcountable : 0 ∈ [rows, cols] ∨ [rows, cols].prod < addressLimit := .inr (by rwa [hprod])
  obtain ⟨view, hview⟩ := exists_contiguous buffer hcountable
    (by rwa [extentProduct_eq_prod, hprod])
  exact ⟨view, hview, hrows, hcols, hsize⟩

theorem Planar.buffer_eq (h : view.Planar buffer rows cols) : view.buffer = buffer :=
  (contiguous_eq_ok h.made).1

theorem Planar.layout_eq (h : view.Planar buffer rows cols) :
    view.layout = .contiguous [rows, cols] :=
  (contiguous_eq_ok h.made).2

theorem Planar.dtype (h : view.Planar buffer rows cols) : view.dtype = buffer.dtype := by
  rw [View.dtype, h.buffer_eq]

theorem Planar.as? {d : DType} {data : List d.Elem} (h : view.Planar ⟨d, data⟩ rows cols) :
    view.as? d = some data := by
  rw [View.as?, h.buffer_eq]
  exact Buffer.as?_self d data

theorem Planar.shape (h : view.Planar buffer rows cols) : view.shape = [rows, cols] := by
  rw [View.shape, h.layout_eq]
  rfl

theorem Planar.isMatrixContiguous (h : view.Planar buffer rows cols) :
    view.layout.isMatrixContiguous = true := by
  rw [h.layout_eq]
  exact Layout.isMatrixContiguous_contiguous [] rows h.cols_lt

theorem Planar.isRowContiguous (h : view.Planar buffer rows cols) :
    view.layout.isRowContiguous = true := by
  rw [h.layout_eq]
  have hrows := h.size_lt
  have hcols := h.cols_lt
  refine Layout.isRowContiguous_contiguous ?_
  simp only [List.tails, List.forall_mem_cons, List.prod_cons, List.prod_nil, Nat.mul_one]
  exact ⟨hrows, hcols, by decide, fun _ hnone => nomatch hnone⟩

/-- There are no batches, so a matrix is at the beginning for every batch of a target. -/
theorem Planar.batch (h : view.Planar buffer rows cols) (b : Nat) :
    BroadcastsTo (view.layout.batchShape 2) [] ∧ view.placeAt [] b = 0 := by
  rw [View.placeAt, h.layout_eq]
  exact ⟨⟨Nat.le_refl 0, .nil⟩, rfl⟩

end View

/-! ## Checks -/

/-- Operands that are the dense views of the four matrices of a product. -/
structure Operands.Planar (operands : Operands) (config : Config) (dims : Dims)
    (transposed : Bool) (type : FloatType) (matrices : Matrices type.format) : Prop where
  x : operands.x.Planar ⟨.float type, matrices.x⟩ dims.m dims.k
  w : operands.w.Planar ⟨.u32, matrices.w⟩ (dims.rows transposed)
    (config.wordsOf (dims.inner transposed))
  scales : operands.scales.Planar ⟨.float type, matrices.scales⟩ (dims.rows transposed)
    (dims.inner transposed / config.group.size)
  biases : operands.biases.Planar ⟨.float type, matrices.biases⟩ (dims.rows transposed)
    (dims.inner transposed / config.group.size)

namespace Operands

variable {operands : Operands} {out : View} {config : Config} {dims : Dims} {transposed : Bool}
  {type : FloatType} {matrices : Matrices type.format} {old : List (Binary type.format)}

theorem Planar.validate (h : operands.Planar config dims transposed type matrices)
    (hout : out.Planar ⟨.float type, old⟩ dims.m dims.n)
    (hgroups : dims.inner transposed % config.group.size = 0) :
    operands.validate out config transposed = .ok (type, dims) := by
  refine Operands.validate_accepts h.x.dtype h.w.dtype h.scales.dtype h.biases.dtype hout.dtype ?_
    h.x.isMatrixContiguous h.w.isMatrixContiguous h.scales.isMatrixContiguous
    h.biases.isMatrixContiguous hout.isRowContiguous
  have hdims := Dims.ofShapes_matrices [] [] [] [] hgroups
  simp only [List.nil_append] at hdims
  rw [Operands.dims, h.x.shape, h.w.shape, h.scales.shape, h.biases.shape, hout.shape, hdims,
    Checked.ofShape_ok]

theorem Planar.reads (h : operands.Planar config dims transposed type matrices) :
    operands.Reads type matrices :=
  ⟨h.x.as?, h.w.as?, h.scales.as?, h.biases.as?⟩

theorem Planar.broadcastTo (h : operands.Planar config dims transposed type matrices) :
    operands.BroadcastTo [] where
  x := (h.x.batch 0).1
  w := (h.w.batch 0).1
  scales := (h.scales.batch 0).1
  biases := (h.biases.batch 0).1

end Operands

theorem Matrices.Fills.stretchesAt {F : Format} {matrices : Matrices F} {plan : Plan}
    (h : matrices.Fills plan.config plan.dims plan.transposed) :
    plan.stretchesAt matrices ⟨0, 0, 0, 0⟩ = matrices := by
  rw [Plan.stretchesAt_origin plan matrices h.w h.scales h.biases, List.take_of_length_le (Nat.le_of_eq h.x)]

namespace Plan

variable {operands : Operands} {out : View} {config : Config} {dims : Dims} {transposed : Bool}
  {type : FloatType} {matrices : Matrices type.format} {old : List (Binary type.format)}
  {bits groupSize : Nat}

theorem batched_planar (hconfig : Config.ofParameters bits groupSize = .ok config)
    (h : operands.Planar config dims transposed type matrices)
    (hout : out.Planar ⟨.float type, old⟩ dims.m dims.n)
    (hgroups : dims.inner transposed % config.group.size = 0) :
    Plan.batched operands out bits groupSize transposed =
      .ok (Plan.broadcast operands type dims config transposed []) := by
  have hshape : outBatchShape out = [] := by
    rw [outBatchShape, hout.shape]
    rfl
  have hplan := batched_accepts hconfig (h.validate hout hgroups)
    (by rw [hshape]; exact h.broadcastTo) (by rw [hshape]; decide)
  rwa [hshape] at hplan

theorem products_planar (simd : Bool) (h : operands.Planar config dims transposed type matrices)
    (hfills : matrices.Fills config dims transposed) :
    let plan := Plan.broadcast operands type dims config transposed []
    plan.products simd matrices = plan.productOf simd matrices := by
  intro plan
  have hwhole : plan.stretchesAt matrices ⟨0, 0, 0, 0⟩ = matrices :=
    Matrices.Fills.stretchesAt hfills
  exact (products_single simd h.broadcastTo matrices).trans
    (congrArg (plan.productOf simd) hwhole)

end Plan

/-! ## Calls -/

section Calls

variable {operands : Operands} {out : View} {config : Config} {dims : Dims} {transposed : Bool}
  {type : FloatType} {matrices : Matrices type.format} {old : List (Binary type.format)}
  {bits groupSize : Nat}

theorem Operands.exists_planar (hfits : dims.Fits config transposed) (hk : dims.k < addressLimit)
    (hn : dims.n < addressLimit) (hgroups : dims.inner transposed % config.group.size = 0)
    (hfills : matrices.Fills config dims transposed) :
    ∃ operands : Operands, operands.Planar config dims transposed type matrices := by
  have hinner : dims.inner transposed < addressLimit := by
    cases transposed with
    | true => exact hk
    | false => exact hn
  have hwords : config.wordsOf (dims.inner transposed) < addressLimit :=
    Nat.lt_of_le_of_lt (config.wordsOf_le hgroups) hinner
  have hcount : dims.inner transposed / config.group.size < addressLimit :=
    Nat.lt_of_le_of_lt (Nat.div_le_self _ _) hinner
  obtain ⟨x, hx⟩ := View.exists_planar ⟨.float type, matrices.x⟩ hfits.m hk hfits.x
    (Nat.le_of_eq hfills.x.symm)
  obtain ⟨w, hw⟩ := View.exists_planar ⟨.u32, matrices.w⟩ hfits.rows hwords hfits.w
    (Nat.le_of_eq hfills.w.symm)
  obtain ⟨scales, hscales⟩ := View.exists_planar ⟨.float type, matrices.scales⟩
    hfits.rows hcount hfits.groups (Nat.le_of_eq hfills.scales.symm)
  obtain ⟨biases, hbiases⟩ := View.exists_planar ⟨.float type, matrices.biases⟩
    hfits.rows hcount hfits.groups (Nat.le_of_eq hfills.biases.symm)
  exact ⟨⟨x, w, scales, biases⟩, hx, hw, hscales, hbiases⟩

/-- A call on planar operands returns, and writes the product of their matrices. -/
theorem quantizedMatmul_planar (simd : Bool)
    (hconfig : Config.ofParameters bits groupSize = .ok config)
    (h : operands.Planar config dims transposed type matrices)
    (hout : out.Planar ⟨.float type, old⟩ dims.m dims.n)
    (hgroups : dims.inner transposed % config.group.size = 0)
    (hfills : matrices.Fills config dims transposed) (batches : List Offsets) :
    quantizedMatmul simd operands out bits groupSize transposed =
      (.ok (), ⟨.float type, overlay
        (Plan.productOf ⟨type, dims, config, transposed, batches⟩ simd matrices) old⟩) := by
  have hplan := Plan.batched_planar hconfig h hout hgroups
  have hcall := quantizedMatmul_eq_ok simd hplan h.reads hout.buffer_eq
  exact hcall.trans (congrArg
    (fun product => ((.ok (), ⟨.float type, overlay product old⟩) : Written Buffer))
    (Plan.products_planar simd h hfills))

/-- Matrices of the extents of a product are seen by planar views, and a call on these
writes their product over the front of every buffer that has room for it. -/
theorem exists_quantizedMatmul (simd : Bool)
    (hconfig : Config.ofParameters bits groupSize = .ok config)
    (hfits : dims.Fits config transposed) (hk : dims.k < addressLimit)
    (hn : dims.n < addressLimit) (hgroups : dims.inner transposed % config.group.size = 0)
    (hfills : matrices.Fills config dims transposed) (batches : List Offsets) :
    ∃ operands : Operands, operands.Planar config dims transposed type matrices ∧
      ∀ old : List (Binary type.format), dims.m * dims.n ≤ old.length →
        ∃ out : View, out.Planar ⟨.float type, old⟩ dims.m dims.n ∧
          quantizedMatmul simd operands out bits groupSize transposed =
            (.ok (), ⟨.float type, overlay
              (Plan.productOf ⟨type, dims, config, transposed, batches⟩ simd matrices) old⟩) := by
  obtain ⟨operands, hplanar⟩ := Operands.exists_planar hfits hk hn hgroups hfills
  refine ⟨operands, hplanar, fun old hroom => ?_⟩
  obtain ⟨out, hout⟩ := View.exists_planar ⟨.float type, old⟩ hfits.m hn hfits.out hroom
  exact ⟨out, hout, quantizedMatmul_planar simd hconfig hplanar hout hgroups hfills batches⟩

end Calls

end SubByte
