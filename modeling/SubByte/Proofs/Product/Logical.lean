/-
# Logical products — a broadcast product by the elements that the views show

A batch of the output pairs the matrices that the operands show there
(`Operands.ShowsAt`): each operand at its own coordinates, aligned at the innermost
dimension, without those of dimensions that it lacks and with zero along its dimensions of
one element.  The block of the batch is what the chosen kernel makes of these matrices
alone (`quantizedMatmul_blocks`).  Strides and elements that a view does not show have no
part in it, so calls on views that show the same elements (`View.Alike`) write the same
blocks.
-/
import SubByte.Proofs.Product.Atomicity

namespace SubByte

/-! ## Operands by their elements -/

/-- The matrices that the operands show at batch `b` of a target, each from its own batch. -/
structure Operands.ShowsAt (operands : Operands) (type : FloatType) (target : List Nat) (b : Nat)
    (matrices : Matrices type.format) : Prop where
  x : operands.x.matrix? (.float type) (pinned (operands.x.layout.batchShape 2) target b) =
    some matrices.x
  w : operands.w.matrix? .u32 (pinned (operands.w.layout.batchShape 2) target b) =
    some matrices.w
  scales : operands.scales.matrix? (.float type)
    (pinned (operands.scales.layout.batchShape 2) target b) = some matrices.scales
  biases : operands.biases.matrix? (.float type)
    (pinned (operands.biases.layout.batchShape 2) target b) = some matrices.biases

/-- Views of one shape that show the same elements. -/
structure View.Alike (a b : View) : Prop where
  dtype : a.dtype = b.dtype
  shape : a.shape = b.shape
  element? : ∀ d coords, a.element? d coords = b.element? d coords

/-- Operands that show the same elements. -/
structure Operands.Alike (a b : Operands) : Prop where
  x : a.x.Alike b.x
  w : a.w.Alike b.w
  scales : a.scales.Alike b.scales
  biases : a.biases.Alike b.biases

namespace View

variable {v v' : View}

theorem Alike.batchShape (h : v.Alike v') : v.layout.batchShape 2 = v'.layout.batchShape 2 := by
  have hshape : v.layout.shape = v'.layout.shape := h.shape
  rw [Layout.batchShape, Layout.batchShape, Layout.rank, Layout.rank, hshape]

theorem Alike.matrix? (h : v.Alike v') (d : DType) (batch : List Nat) :
    v.matrix? d batch = v'.matrix? d batch := by
  have hshape : v.layout.shape = v'.layout.shape := h.shape
  have hmatrix : v.layout.matrixShape = v'.layout.matrixShape := by
    rw [Layout.matrixShape, Layout.matrixShape, Layout.rank, Layout.rank, hshape]
  simp only [View.matrix?, hmatrix, h.element?]

end View

namespace Operands

variable {operands operands' : Operands} {type : FloatType} {target : List Nat} {b : Nat}

theorem ShowsAt.of_alike {matrices matrices' : Matrices type.format}
    (h : operands.ShowsAt type target b matrices) (h' : operands'.ShowsAt type target b matrices')
    (halike : operands.Alike operands') : matrices = matrices' := by
  have hx := h.x
  have hw := h.w
  have hscales := h.scales
  have hbiases := h.biases
  rw [halike.x.batchShape, halike.x.matrix?, h'.x] at hx
  rw [halike.w.batchShape, halike.w.matrix?, h'.w] at hw
  rw [halike.scales.batchShape, halike.scales.matrix?, h'.scales] at hscales
  rw [halike.biases.batchShape, halike.biases.matrix?, h'.biases] at hbiases
  cases matrices
  cases matrices'
  cases hx
  cases hw
  cases hscales
  cases hbiases
  rfl

variable {out : View} {config : Config} {transposed : Bool} {dims : Dims}

theorem Settled.shows (h : operands.Settled out config transposed type dims)
    {data : Matrices type.format} (hdata : operands.Reads type data)
    (hto : operands.BroadcastTo target) (hb : b < extentProduct target) :
    let matrices := (Plan.broadcast operands type dims config transposed target).stretchesAt data
      (operands.broadcastAt target b)
    operands.ShowsAt type target b matrices ∧ matrices.Covers config dims transposed := by
  intro matrices
  have hx := View.batchAt_pinned hto.x hb
  have hw := View.batchAt_pinned hto.w hb
  have hscales := View.batchAt_pinned hto.scales hb
  have hbiases := View.batchAt_pinned hto.biases hb
  constructor
  · exact
      { x := (hx.matrix? hdata.x h.xDense h.fitted.x).1
        w := (hw.matrix? hdata.w h.wDense h.fitted.w).1
        scales := (hscales.matrix? hdata.scales h.scalesDense h.fitted.scales).1
        biases := (hbiases.matrix? hdata.biases h.biasesDense h.fitted.biases).1 }
  · exact (h.fills hdata (atBatch_broadcastAt hto hb)).covers

end Operands

/-! ## Blocks by their elements -/

/-- The extents of a view are addresses. -/
def View.Addressed (view : View) : Prop :=
  ∀ d ∈ view.shape, d < addressLimit

theorem HasMatrix.extents_lt {view : View} {rows cols : Nat} (h : HasMatrix view.shape rows cols)
    (haddressed : view.Addressed) : rows < addressLimit ∧ cols < addressLimit := by
  obtain ⟨batch, hshape⟩ := h
  obtain ⟨-, -, hrows, hcols⟩ := MatrixShape.ofShape?_eq_some hshape
  refine ⟨?_, haddressed cols hcols⟩
  rcases hrows with hone | hrows
  · show rows < addressLimit
    rw [show rows = 1 from hone]
    decide
  · exact haddressed rows hrows

theorem HasMatrix.unique {shape : List Nat} {rows cols rows' cols' : Nat}
    (h : HasMatrix shape rows cols) (h' : HasMatrix shape rows' cols') :
    rows = rows' ∧ cols = cols' := by
  obtain ⟨batch, hshape⟩ := h
  obtain ⟨batch', hshape'⟩ := h'
  rw [hshape] at hshape'
  cases hshape'
  exact ⟨rfl, rfl⟩

theorem Operands.Settled.fits_block {operands : Operands} {out : View} {config : Config}
    {transposed : Bool} {type : FloatType} {dims : Dims}
    (h : operands.Settled out config transposed type dims) (hx : operands.x.Addressed)
    (hout : out.Addressed) {count b len : Nat} (hb : b < count)
    (hlen : out.layout.requiredLength? = .ok len) (hroom : count * (dims.m * dims.n) ≤ len)
    {batch : Offsets} (hbatch : operands.AtBatch batch) : dims.Fits config transposed := by
  obtain ⟨hm, hk⟩ := h.fitted.x.extents_lt hx
  obtain ⟨-, hn⟩ := h.fitted.out.extents_lt hout
  have hrows : dims.rows transposed < addressLimit := by
    cases transposed with
    | true => exact hn
    | false => exact hk
  have hblock : dims.m * dims.n ≤ len :=
    Nat.le_trans (Nat.le_mul_of_pos_left _ (Nat.zero_lt_of_lt hb)) hroom
  exact h.fits hm hrows (Nat.lt_of_le_of_lt hblock (Layout.requiredLength?_lt hlen)) hbatch

/-- Block after block, the elements are what the chosen kernel writes for the matrices
that the operands show at the batch. -/
def Operands.HoldProducts (operands : Operands) (config : Config) (variant : Variant)
    (type : FloatType) (dims : Dims) (target : List Nat) (data : List (Binary type.format)) :
    Prop :=
  ∀ b < extentProduct target, ∃ matrices : Matrices type.format,
    operands.ShowsAt type target b matrices ∧
    ∀ old : List (Binary type.format), old.length = dims.m * dims.n →
      config.multiplyInto variant dims matrices old =
        .ok ((data.drop (b * (dims.m * dims.n))).take (dims.m * dims.n))

variable {operands operands' : Operands} {out out' : View} {bits groupSize : Nat}
  {transposed simd : Bool}

/-- The block of a batch in a broadcast plan; blocks without elements have no entries. -/
theorem Plan.broadcast_block (operands : Operands) (simd : Bool) (type : FloatType) (dims : Dims)
    (config : Config) {target : List Nat} (data : Matrices type.format)
    (old : List (Binary type.format)) {b : Nat} (hb : b < extentProduct target) :
    let plan := Plan.broadcast operands type dims config transposed target
    ((overlay (plan.products simd data) old).drop (b * (dims.m * dims.n))).take
        (dims.m * dims.n) =
      plan.productOf simd (plan.stretchesAt data (operands.broadcastAt target b)) := by
  intro plan
  by_cases hempty : dims.m = 0 ∨ dims.n = 0
  · have hsize : dims.m * dims.n = 0 := Nat.mul_eq_zero.mpr hempty
    have hproduct : plan.productOf simd (plan.stretchesAt data
        (operands.broadcastAt target b)) = [] :=
      List.eq_nil_of_length_eq_zero ((plan.length_productOf simd _).trans hsize)
    rw [hproduct, hsize, List.take_zero]
  · have hbatches : plan.batches =
        (List.range (extentProduct target)).map (operands.broadcastAt target) := if_neg hempty
    refine plan.take_drop_products simd data old ?_
    rw [hbatches, List.getElem?_map, List.getElem?_range hb, Option.map_some]

theorem quantizedMatmul_holds (hx : operands.x.Addressed) (hout : out.Addressed)
    (hok : (quantizedMatmul simd operands out bits groupSize transposed).1 = .ok ()) :
    ∃ config type dims batch data, Config.ofParameters bits groupSize = .ok config ∧
      operands.x.dtype = .float type ∧ HasMatrix operands.x.shape dims.m dims.k ∧
      MatrixShape.ofShape? out.shape = some ⟨batch, dims.m, dims.n⟩ ∧
      (quantizedMatmul simd operands out bits groupSize transposed).2 = ⟨.float type, data⟩ ∧
      operands.HoldProducts config (.select config.width transposed simd) type dims batch
        data := by
  rw [quantizedMatmul] at hok ⊢
  cases hplan : Plan.batched operands out bits groupSize transposed with
  | error stop =>
      rw [hplan] at hok
      cases hok
  | ok plan =>
      have hprepared := Plan.batched_prepared hplan
      obtain ⟨config, type, dims, len, hconfig, hsettled, hto, hlen, hroom, rfl⟩ :=
        Plan.batched_eq_ok hplan
      obtain ⟨data, hdata, old, hold, -, hexecute⟩ := hprepared.execute simd
      obtain ⟨batch, hshape⟩ := hsettled.fitted.out
      have hbatch : batch = outBatchShape out := by rw [outBatchShape, hshape]
      subst hbatch
      refine ⟨config, type, dims, outBatchShape out, _, hconfig, hsettled.xType, hsettled.fitted.x,
        hshape, congrArg Prod.snd hexecute, ?_⟩
      -- A block that is there is written by the kernel for the matrices that are shown at its batch.
      intro b hb
      obtain ⟨hshows, hcovers⟩ := hsettled.shows hdata hto hb
      have hfits := hsettled.fits_block hx hout hb hlen hroom
        (Operands.atBatch_broadcastAt hto hb)
      refine ⟨_, hshows, fun block hlength => ?_⟩
      have hproduct := Plan.multiplyInto_block
        (Plan.broadcast operands type dims config transposed (outBatchShape out)) simd
        hsettled.fitted.groups hfits hcovers hlength
      exact hproduct.trans (congrArg Except.ok
        (Plan.broadcast_block operands simd type dims config data old hb).symm)

theorem Operands.HoldProducts.take_eq {config : Config} {variant : Variant} {type : FloatType}
    {dims : Dims} {target : List Nat} {data data' : List (Binary type.format)}
    (h : operands.HoldProducts config variant type dims target data)
    (h' : operands'.HoldProducts config variant type dims target data')
    (halike : operands.Alike operands') :
    data'.take (extentProduct target * (dims.m * dims.n)) =
      data.take (extentProduct target * (dims.m * dims.n)) := by
  refine take_eq_of_pieces fun b hb => ?_
  obtain ⟨matrices, hshows, hblock⟩ := h b hb
  obtain ⟨matrices', hshows', hblock'⟩ := h' b hb
  have hlength : (List.replicate (dims.m * dims.n) (0 : Binary type.format)).length =
      dims.m * dims.n := List.length_replicate
  have hwritten := hblock _ hlength
  have hwritten' := hblock' _ hlength
  rw [hshows.of_alike hshows' halike, hwritten'] at hwritten
  exact Except.ok.inj hwritten

/-- Every block of a call that succeeds is what the chosen kernel writes for the matrices
that the operands show at its batch, and nothing else about the operands has a part in the
blocks. -/
theorem quantizedMatmul_blocks (simd : Bool) (operands : Operands) (out : View)
    (bits groupSize : Nat) (transposed : Bool) (hx : operands.x.Addressed)
    (hout : out.Addressed)
    (hok : (quantizedMatmul simd operands out bits groupSize transposed).1 = .ok ()) :
    ∃ config type dims batch data, Config.ofParameters bits groupSize = .ok config ∧
      HasMatrix operands.x.shape dims.m dims.k ∧
      MatrixShape.ofShape? out.shape = some ⟨batch, dims.m, dims.n⟩ ∧
      (quantizedMatmul simd operands out bits groupSize transposed).2 = ⟨.float type, data⟩ ∧
      operands.HoldProducts config (.select config.width transposed simd) type dims batch data ∧
      ∀ operands' out', operands.Alike operands' → out.shape = out'.shape →
        (quantizedMatmul simd operands' out' bits groupSize transposed).1 = .ok () →
        ∃ data', (quantizedMatmul simd operands' out' bits groupSize transposed).2 =
            ⟨.float type, data'⟩ ∧
          data'.take (extentProduct batch * (dims.m * dims.n)) =
            data.take (extentProduct batch * (dims.m * dims.n)) := by
  obtain ⟨config, type, dims, batch, data, hconfig, htype, hmatrix, hshape, hresult, hholds⟩ :=
    quantizedMatmul_holds hx hout hok
  refine ⟨config, type, dims, batch, data, hconfig, hmatrix, hshape, hresult, hholds, ?_⟩
  intro operands' out' halike hsame hok'
  have hx' : operands'.x.Addressed := by
    rw [View.Addressed, ← halike.x.shape]
    exact hx
  have hout' : out'.Addressed := by
    rw [View.Addressed, ← hsame]
    exact hout
  obtain ⟨config', type', dims', batch', data', hconfig', htype', hmatrix', hshape', hresult',
    hholds'⟩ := quantizedMatmul_holds hx' hout' hok'
  rw [hconfig] at hconfig'
  cases hconfig'
  rw [← halike.x.dtype, htype] at htype'
  cases htype'
  rw [← halike.x.shape] at hmatrix'
  obtain ⟨hm, hk⟩ := hmatrix.unique hmatrix'
  rw [← hsame, hshape] at hshape'
  have hdims : dims' = dims := by
    cases dims
    cases dims'
    cases hshape'
    cases hk
    rfl
  subst hdims
  cases hshape'
  exact ⟨data', hresult', hholds.take_eq hholds' halike⟩

/-- Two batches by lanes: the activation is one row repeated by a stride of zero, the
weights have no batches, and all buffers but one are longer than their views. -/
theorem quantizedMatmul_blocks_repeated_row :
    let x : View := ⟨⟨.float .f32, List.replicate 33 (.ofNat .single 2)⟩,
      ⟨[2, 1, 32], [0, 32, 1], rfl⟩, 32, rfl, by decide⟩
    let w : View := ⟨⟨.u32, [0x76543210, 0xFEDCBA98, 0x01234567, 0x89ABCDEF, 7]⟩,
      ⟨[1, 4], [9, 1], rfl⟩, 4, rfl, by decide⟩
    let scales : View := ⟨⟨.float .f32, [.ofNat .single 3]⟩, ⟨[1, 1], [1, 1], rfl⟩, 1, rfl, by decide⟩
    let out : View := ⟨⟨.float .f32, [.nan, 0, .ofNat .single 5]⟩,
      ⟨[2, 1, 1], [1, 7, 7], rfl⟩, 2, rfl, by decide⟩
    let operands : Operands := ⟨x, w, scales, scales⟩
    (quantizedMatmul true operands out 4 32 true).1 = .ok () ∧
    ∃ data, (quantizedMatmul true operands out 4 32 true).2 = ⟨.float .f32, data⟩ ∧
      operands.HoldProducts ⟨.four, .g32⟩ .lanes .f32 ⟨1, 1, 32⟩ [2] data := by
  intro x w scales out operands
  have hok : (quantizedMatmul true operands out 4 32 true).1 = .ok () := by
    unfold operands x w scales out
    rfl
  obtain ⟨config, type, dims, batch, data, hconfig, hmatrix, hshape, hresult, hholds, -⟩ :=
    quantizedMatmul_blocks true operands out 4 32 true (by unfold View.Addressed; decide)
      (by unfold View.Addressed; decide) hok
  cases hconfig
  have htype : type = .f32 := by
    have hdtype := congrArg Buffer.dtype hresult
    exact (DType.float.inj hdtype).symm
  subst htype
  obtain ⟨-, hk⟩ := hmatrix.unique ⟨[2], rfl⟩
  refine ⟨hok, data, hresult, ?_⟩
  cases dims
  cases hshape
  cases hk
  exact hholds

end SubByte
