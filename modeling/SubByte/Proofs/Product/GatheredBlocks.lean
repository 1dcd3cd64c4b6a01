/-
# Gathered blocks — each block is a product of its own

A gathered call picks two batches for every block, by the indices that the index views
show there in row-major order.  The matrices of these batches, each counted over the batch
shape of its own operand (`Operands.ShowsPair`), make a call of their own: seen by dense
views of two dimensions they pass every check, and the broadcast product writes for them
what the gathered product has written to the block (`gatheredMatmul_blocks`).  How the
matrices lie in the buffers of the gathered call has no part in that.

The index buffers are read where their views show an element and nowhere else, so calls
with index views that show the same indices are the same call (`gatheredMatmul_congr`).
-/
import SubByte.Proofs.Product.Logical
import SubByte.Proofs.Product.Planar

namespace SubByte

/-! ## Indices by their elements -/

/-- Index views that show the same indices. -/
structure GatherIndices.Alike (a b : GatherIndices) : Prop where
  lhs : a.lhs.Alike b.lhs
  rhs : a.rhs.Alike b.rhs

namespace View

variable {view view' : View}

theorem Alike.size (h : view.Alike view') : view.layout.size = view'.layout.size :=
  congrArg extentProduct h.shape

theorem dtype_of_as? {d : DType} {data : List d.Elem} (h : view.as? d = some data) :
    view.dtype = d :=
  congrArg Buffer.dtype (Buffer.eq_of_as? h)

theorem Alike.requireIndices (h : view.Alike view') (operand : Operand) (batches : Nat) :
    requireIndices operand view batches = requireIndices operand view' batches := by
  by_cases hdtype : view.dtype = .u32
  · obtain ⟨data, hdata⟩ := as?_of_dtype hdtype
    obtain ⟨data', hdata'⟩ := as?_of_dtype (h.dtype.symm.trans hdtype)
    simp only [SubByte.requireIndices, requireElements, hdata, hdata', ok_bind, ← h.size]
    refine tabulate_congr fun i _ hi => ?_
    rw [Nat.zero_add] at hi
    obtain ⟨word, hword, hread⟩ := keepIndex_eq operand hdata batches hi
    obtain ⟨word', hword', hread'⟩ := keepIndex_eq operand hdata' batches (h.size ▸ hi)
    rw [h.element?, h.shape, hword'] at hword
    cases hword
    rw [hread, hread']
  · have hnone : view.as? .u32 = none := by
      cases hdata : view.as? .u32 with
      | none => rfl
      | some data => exact absurd (dtype_of_as? hdata) hdtype
    have hnone' : view'.as? .u32 = none := by
      cases hdata : view'.as? .u32 with
      | none => rfl
      | some data => exact absurd (h.dtype.trans (dtype_of_as? hdata)) hdtype
    simp only [SubByte.requireIndices, requireElements, hnone, hnone', h.dtype]
    rfl

end View

variable {operands : Operands} {out : View} {bits groupSize : Nat} {transposed simd : Bool}

/-- Nothing of the index buffers has a part in a call but the indices that the views show. -/
theorem gatheredMatmul_congr {indices indices' : GatherIndices} (h : indices.Alike indices') :
    gatheredMatmul simd operands indices out bits groupSize transposed =
      gatheredMatmul simd operands indices' out bits groupSize transposed := by
  have hplan : Plan.gathered operands indices out bits groupSize transposed =
      Plan.gathered operands indices' out bits groupSize transposed := by
    simp only [Plan.gathered, requireDType, requireSameIndices, h.lhs.dtype, h.rhs.dtype,
      h.lhs.shape, h.rhs.shape, h.lhs.size, h.lhs.requireIndices, h.rhs.requireIndices]
  rw [gatheredMatmul, gatheredMatmul, hplan]

/-! ## Pairs of batches -/

/-- The matrices that the operands show at a pair of batches: the activations at the first,
the weights, the scales and the biases at the second, each in row-major order of its own
batches. -/
structure Operands.ShowsPair (operands : Operands) (type : FloatType) (pair : Nat × Nat)
    (matrices : Matrices type.format) : Prop where
  x : operands.x.matrix? (.float type) (coordinates (operands.x.layout.batchShape 2) pair.1) =
    some matrices.x
  w : operands.w.matrix? .u32 (coordinates (operands.w.layout.batchShape 2) pair.2) =
    some matrices.w
  scales : operands.scales.matrix? (.float type)
    (coordinates (operands.scales.layout.batchShape 2) pair.2) = some matrices.scales
  biases : operands.biases.matrix? (.float type)
    (coordinates (operands.biases.layout.batchShape 2) pair.2) = some matrices.biases

theorem Operands.Settled.showsPair {config : Config} {type : FloatType} {dims : Dims}
    (h : operands.Settled out config transposed type dims) {data : Matrices type.format}
    (hdata : operands.Reads type data) (halike : operands.BatchedAlike) {pair : Nat × Nat}
    (hx : pair.1 < extentProduct (operands.x.layout.batchShape 2))
    (hw : pair.2 < extentProduct (operands.w.layout.batchShape 2)) (batches : List Offsets) :
    operands.ShowsPair type pair
      (Plan.stretchesAt ⟨type, dims, config, transposed, batches⟩ data (operands.pairAt pair)) := by
  obtain ⟨hxBatch, -⟩ := View.batchAt_coordinates rfl hx
  obtain ⟨hwBatch, -⟩ := View.batchAt_coordinates rfl hw
  obtain ⟨hscalesBatch, -⟩ := View.batchAt_coordinates halike.scales hw
  obtain ⟨hbiasesBatch, -⟩ := View.batchAt_coordinates halike.biases hw
  exact
    { x := (hxBatch.matrix? hdata.x h.xDense h.fitted.x).1
      w := (hwBatch.matrix? hdata.w h.wDense h.fitted.w).1
      scales := by
        rw [halike.scales]
        exact (hscalesBatch.matrix? hdata.scales h.scalesDense h.fitted.scales).1
      biases := by
        rw [halike.biases]
        exact (hbiasesBatch.matrix? hdata.biases h.biasesDense h.fitted.biases).1 }

/-- Block after block, the elements are what a call of its own writes for the matrices of
the pair of batches that the indices name, seen by planar views; there is such a call for
every buffer that has room for the block. -/
def Operands.HoldPairs (operands : Operands) (indices : GatherIndices) (simd : Bool)
    (bits groupSize : Nat) (config : Config) (transposed : Bool) (type : FloatType) (dims : Dims)
    (data : List (Binary type.format)) : Prop :=
  ∀ p < indices.lhs.layout.size, ∃ l r matrices planar,
    indices.lhs.IndexAt (extentProduct (operands.x.layout.batchShape 2)) p l ∧
    indices.rhs.IndexAt (extentProduct (operands.w.layout.batchShape 2)) p r ∧
    operands.ShowsPair type (l, r) matrices ∧
    Operands.Planar planar config dims transposed type matrices ∧
    ∀ old : List (Binary type.format), dims.m * dims.n ≤ old.length →
      ∃ out : View, out.Planar ⟨.float type, old⟩ dims.m dims.n ∧
        quantizedMatmul simd planar out bits groupSize transposed =
          (.ok (), ⟨.float type, overlay
            ((data.drop (p * (dims.m * dims.n))).take (dims.m * dims.n)) old⟩)

theorem View.exists_index {view : View} {batches count p : Nat} {found : List Nat}
    (h : List.Forall₂ (view.IndexAt batches) (List.range count) found) (hp : p < count) :
    ∃ index, found[p]? = some index ∧ view.IndexAt batches p index := by
  have hfirst : p < (List.range count).length := by
    rwa [List.length_range]
  have hsecond : p < found.length := by
    rwa [← h.length_eq]
  have hat := h.get hfirst hsecond
  rw [List.get_eq_getElem, List.getElem_range] at hat
  exact ⟨found[p], List.getElem?_eq_getElem hsecond, hat⟩

theorem View.IndexAt.lt {view : View} {batches i index : Nat} (h : view.IndexAt batches i index) :
    index < batches := by
  obtain ⟨word, -, -, hlt⟩ := h
  exact hlt

theorem Operands.Settled.holdPairs {operands : Operands} {indices : GatherIndices} {out : View}
    {config : Config} {type : FloatType} {dims : Dims} {lhs rhs : List Nat} {len : Nat}
    (h : operands.Settled out config transposed type dims) (hx : operands.x.Addressed)
    (hout : out.Addressed) (hconfig : Config.ofParameters bits groupSize = .ok config)
    (halike : operands.BatchedAlike) (hsame : indices.lhs.shape = indices.rhs.shape)
    (hlhs : List.Forall₂ (indices.lhs.IndexAt (extentProduct (operands.x.layout.batchShape 2)))
      (List.range indices.lhs.layout.size) lhs)
    (hrhs : List.Forall₂ (indices.rhs.IndexAt (extentProduct (operands.w.layout.batchShape 2)))
      (List.range indices.rhs.layout.size) rhs)
    (hlen : out.layout.requiredLength? = .ok len)
    (hroom : indices.lhs.layout.size * (dims.m * dims.n) ≤ len) {data : Matrices type.format}
    (hdata : operands.Reads type data) (old : List (Binary type.format)) :
    let plan : Plan := ⟨type, dims, config, transposed, (lhs.zip rhs).map operands.pairAt⟩
    operands.HoldPairs indices simd bits groupSize config transposed type dims
      (overlay (plan.products simd data) old) := by
  intro plan p hp
  have hsize : indices.rhs.layout.size = indices.lhs.layout.size :=
    congrArg extentProduct hsame.symm
  obtain ⟨l, hl, hlIndex⟩ := View.exists_index hlhs hp
  obtain ⟨r, hr, hrIndex⟩ := View.exists_index hrhs (hsize.symm ▸ hp)
  obtain ⟨hat, -⟩ : operands.AtBatch (operands.pairAt (l, r)) ∧ _ :=
    Offsets.ofPair_eq_ok halike hlIndex.lt hrIndex.lt
  have hpair : (lhs.zip rhs)[p]? = some (l, r) := List.getElem?_zip_eq_some.mpr ⟨hl, hr⟩
  have hentry : plan.batches[p]? = some (operands.pairAt (l, r)) := by
    rw [List.getElem?_map, hpair, Option.map_some]
  have hblock := plan.take_drop_products simd data old hentry
  obtain ⟨-, hk⟩ := h.fitted.x.extents_lt hx
  obtain ⟨-, hn⟩ := h.fitted.out.extents_lt hout
  obtain ⟨planar, hplanar, hcalls⟩ := exists_quantizedMatmul simd hconfig
    (h.fits_block hx hout hp hlen hroom hat) hk hn h.fitted.groups (h.fills hdata hat) plan.batches
  refine ⟨l, r, _, planar, hlIndex, hrIndex,
    h.showsPair hdata halike hlIndex.lt hrIndex.lt plan.batches, hplanar, ?_⟩
  intro block hlength
  rw [hblock]
  exact hcalls block hlength

/-- Every block of a gathered call that succeeds is what the broadcast product writes for
the two-dimensional matrices of the pair of batches that the index views name there, and
nothing else of the index buffers has a part in the call. -/
theorem gatheredMatmul_blocks (simd : Bool) (operands : Operands) (indices : GatherIndices)
    (out : View) (bits groupSize : Nat) (transposed : Bool) (hx : operands.x.Addressed)
    (hout : out.Addressed)
    (hok : (gatheredMatmul simd operands indices out bits groupSize transposed).1 = .ok ()) :
    (∃ config type dims batch data, Config.ofParameters bits groupSize = .ok config ∧
      HasMatrix operands.x.shape dims.m dims.k ∧
      MatrixShape.ofShape? out.shape = some ⟨batch, dims.m, dims.n⟩ ∧
      extentProduct batch = indices.lhs.layout.size ∧
      (gatheredMatmul simd operands indices out bits groupSize transposed).2 =
        ⟨.float type, data⟩ ∧
      operands.HoldPairs indices simd bits groupSize config transposed type dims data) ∧
    ∀ indices' : GatherIndices, indices.Alike indices' →
      gatheredMatmul simd operands indices' out bits groupSize transposed =
        gatheredMatmul simd operands indices out bits groupSize transposed := by
  refine ⟨?_, fun indices' halike => (gatheredMatmul_congr halike).symm⟩
  rw [gatheredMatmul] at hok ⊢
  cases hplan : Plan.gathered operands indices out bits groupSize transposed with
  | error stop =>
      rw [hplan] at hok
      cases hok
  | ok plan =>
      have hprepared := Plan.gathered_prepared hplan
      obtain ⟨config, type, dims, len, lhs, rhs, hconfig, hsettled, halike, hsame, hcount, hlen,
        hroom, hlhs, hrhs, -, rfl⟩ := Plan.gathered_eq_ok hplan
      obtain ⟨data, hdata, old, -, -, hexecute⟩ := hprepared.execute simd
      obtain ⟨batch, hshape⟩ := hsettled.fitted.out
      have hbatch : outBatchShape out = batch := by rw [outBatchShape, hshape]
      rw [hbatch] at hcount
      exact ⟨config, type, dims, batch, _, hconfig, hsettled.fitted.x, hshape, hcount,
        congrArg Prod.snd hexecute, hsettled.holdPairs hx hout hconfig halike hsame hlhs hrhs hlen
          hroom hdata old⟩

/-- Three blocks of two batches each way, the first activations twice.  Every operand has
strides of its own, and every other element of an index buffer names a batch that is not
there. -/
theorem gatheredMatmul_blocks_spread :
    let x : View := ⟨⟨.float .f32, List.replicate 32 (.ofNat .single 2) ++ .nan ::
      List.replicate 32 (.ofNat .single 3)⟩, ⟨[2, 1, 32], [33, 7, 1], rfl⟩, 65, rfl, by decide⟩
    let w : View := ⟨⟨.u32, [0x76543210, 0xFEDCBA98, 0x01234567, 0x89ABCDEF, 7, 1, 2, 3, 4]⟩,
      ⟨[2, 1, 4], [5, 4, 1], rfl⟩, 9, rfl, by decide⟩
    let scales : View := ⟨⟨.float .f32, [.ofNat .single 3, .nan, .ofNat .single 5]⟩,
      ⟨[2, 1, 1], [2, 1, 1], rfl⟩, 3, rfl, by decide⟩
    let biases : View := ⟨⟨.float .f32, [.ofNat .single 1, .infinite true]⟩,
      ⟨[2, 1, 1], [1, 1, 1], rfl⟩, 2, rfl, by decide⟩
    let lhs : View := ⟨⟨.u32, [1, 99, 0, 99, 1]⟩, ⟨[3], [2], rfl⟩, 5, rfl, by decide⟩
    let rhs : View := ⟨⟨.u32, [0, 98, 1, 98, 1, 98]⟩, ⟨[3], [2], rfl⟩, 5, rfl, by decide⟩
    let out : View := ⟨⟨.float .f32, List.replicate 4 .nan⟩, ⟨[3, 1, 1], [1, 1, 1], rfl⟩, 3, rfl,
      by decide⟩
    let operands : Operands := ⟨x, w, scales, biases⟩
    (gatheredMatmul true operands ⟨lhs, rhs⟩ out 4 32 true).1 = .ok () ∧
    ∃ data, (gatheredMatmul true operands ⟨lhs, rhs⟩ out 4 32 true).2 = ⟨.float .f32, data⟩ ∧
      operands.HoldPairs ⟨lhs, rhs⟩ true 4 32 ⟨.four, .g32⟩ true .f32 ⟨1, 1, 32⟩ data := by
  intro x w scales biases lhs rhs out operands
  have hok : (gatheredMatmul true operands ⟨lhs, rhs⟩ out 4 32 true).1 = .ok () := by
    unfold operands x w scales biases lhs rhs out
    rfl
  obtain ⟨⟨config, type, dims, batch, data, hconfig, hmatrix, hshape, -, hresult, hholds⟩, -⟩ :=
    gatheredMatmul_blocks true operands ⟨lhs, rhs⟩ out 4 32 true
      (by unfold View.Addressed; decide) (by unfold View.Addressed; decide) hok
  cases hconfig
  have htype : type = .f32 := by
    have hdtype := congrArg Buffer.dtype hresult
    exact (DType.float.inj hdtype).symm
  subst htype
  obtain ⟨-, hk⟩ := hmatrix.unique ⟨[2], rfl⟩
  refine ⟨hok, data, hresult, ?_⟩
  cases dims
  cases hshape
  cases hk
  exact hholds

end SubByte
