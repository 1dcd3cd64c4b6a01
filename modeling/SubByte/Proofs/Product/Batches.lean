/-
# Batches — plans whose offsets are places of batches

An offset of a plan means something when it is the place of some coordinates inside the
batch dimensions of its view (`View.BatchAt`).  The matrix that begins there is then one
of the logical matrices of the view, and ends inside the buffer unless it is empty.  This
is all that a plan has to say about its offsets: together with what the checks have
settled, and an output that is long enough, it makes the plan ready to be carried out
(`Settled.ready`), whichever way the batches have been picked.
-/
import SubByte.Proofs.Product.Run
import SubByte.Proofs.Product.Settled

namespace SubByte

/-! ## Matrices at a batch -/

namespace View

/-- The coordinates name a batch of the view, whose matrix begins at the offset. -/
structure BatchAt (view : View) (coords : List Nat) (offset : Nat) : Prop where
  within : Within coords (view.layout.batchShape 2)
  place : offset = placeOf coords (view.layout.batchStrides 2)

variable {view : View} {d : DType} {data : List d.Elem} {coords : List Nat} {offset : Nat}

theorem prod_matrixShape {rows cols : Nat} (h : HasMatrix view.shape rows cols) :
    view.layout.matrixShape.prod = rows * cols := by
  obtain ⟨batch, hshape⟩ := h
  exact (MatrixShape.ofShape?_eq_some hshape).2.1

theorem BatchAt.matrix? (h : view.BatchAt coords offset) (hdata : view.as? d = some data)
    (hdense : view.layout.isMatrixContiguous = true) {rows cols : Nat}
    (hmatrix : HasMatrix view.shape rows cols) :
    view.matrix? d coords = some ((data.drop offset).take (rows * cols)) ∧
      (0 < rows * cols → offset + rows * cols ≤ data.length) := by
  have hstretch := matrix?_eq_some hdata h.within hdense
  rwa [prod_matrixShape hmatrix, ← h.place] at hstretch

theorem BatchAt.length_stretch (h : view.BatchAt coords offset) (hdata : view.as? d = some data)
    (hdense : view.layout.isMatrixContiguous = true) {rows cols : Nat}
    (hmatrix : HasMatrix view.shape rows cols) :
    ((data.drop offset).take (rows * cols)).length = rows * cols := by
  rcases Nat.eq_zero_or_pos (rows * cols) with hzero | hpos
  · rw [hzero]
    rfl
  · exact length_take_drop ((h.matrix? hdata hdense hmatrix).2 hpos)

/-- The matrices of a view that has a batch do not have more elements than an address can
count, since the view has at least as many. -/
theorem BatchAt.size_lt (h : view.BatchAt coords offset) {rows cols : Nat}
    (hmatrix : HasMatrix view.shape rows cols) : rows * cols < addressLimit := by
  rcases Nat.eq_zero_or_pos (rows * cols) with hzero | hpos
  · rw [hzero]
    decide
  · have hprod := prod_matrixShape hmatrix
    have hbatch := h.within.pos
    have hrest : ∀ e ∈ view.layout.matrixShape, 0 < e :=
      List.prod_pos_iff_forall_pos_nat.mp (by rwa [hprod])
    have hshape := view.layout.batch_append_matrix
    have hlimit := view.covered_prod_lt fun e he => by
      rw [← hshape] at he
      rcases List.mem_append.mp he with he | he
      · exact hbatch e he
      · exact hrest e he
    rw [← hshape, List.prod_append_nat, hprod] at hlimit
    have hone := List.prod_pos_iff_forall_pos_nat.mpr hbatch
    exact Nat.lt_of_le_of_lt (Nat.le_mul_of_pos_left _ hone) hlimit

end View

theorem Config.wordsOf_pos (config : Config) {count : Nat} (hcount : 0 < count)
    (hgroups : count % config.group.size = 0) : 0 < config.wordsOf count := by
  have hpos := Nat.mul_pos hcount config.width.bits_pos
  rw [(config.wordsOf_whole hgroups).2] at hpos
  omega

/-! ## Operands at a batch -/

/-- Matrices of exactly the extents of a product. -/
structure Matrices.Fills {F : Format} (matrices : Matrices F) (config : Config) (dims : Dims)
    (transposed : Bool) : Prop where
  x : matrices.x.length = dims.m * dims.k
  w : matrices.w.length = dims.rows transposed * config.wordsOf (dims.inner transposed)
  scales : matrices.scales.length =
    dims.rows transposed * (dims.inner transposed / config.group.size)
  biases : matrices.biases.length =
    dims.rows transposed * (dims.inner transposed / config.group.size)

theorem Matrices.Fills.covers {F : Format} {matrices : Matrices F} {config : Config} {dims : Dims}
    {transposed : Bool} (h : matrices.Fills config dims transposed) :
    matrices.Covers config dims transposed where
  x := Nat.le_of_eq h.x.symm
  w := Nat.le_of_eq h.w.symm
  scales := Nat.le_of_eq h.scales.symm
  biases := Nat.le_of_eq h.biases.symm

namespace Operands

/-- The offsets of a batch are places of batches of the operands. -/
structure AtBatch (operands : Operands) (batch : Offsets) : Prop where
  x : ∃ coords, operands.x.BatchAt coords batch.x
  w : ∃ coords, operands.w.BatchAt coords batch.w
  scales : ∃ coords, operands.scales.BatchAt coords batch.scales
  biases : ∃ coords, operands.biases.BatchAt coords batch.biases

variable {operands : Operands} {out : View} {config : Config} {transposed : Bool}
  {type : FloatType} {dims : Dims}

/-- The elements of the operands' buffers, at the types of a product. -/
structure Reads (operands : Operands) (type : FloatType) (data : Matrices type.format) : Prop where
  x : operands.x.as? (.float type) = some data.x
  w : operands.w.as? .u32 = some data.w
  scales : operands.scales.as? (.float type) = some data.scales
  biases : operands.biases.as? (.float type) = some data.biases

theorem Settled.reads (h : operands.Settled out config transposed type dims) :
    ∃ data : Matrices type.format, operands.Reads type data := by
  obtain ⟨x, hx⟩ := View.as?_of_dtype h.xType
  obtain ⟨w, hw⟩ := View.as?_of_dtype h.wType
  obtain ⟨scales, hscales⟩ := View.as?_of_dtype h.scalesType
  obtain ⟨biases, hbiases⟩ := View.as?_of_dtype h.biasesType
  exact ⟨⟨x, w, scales, biases⟩, hx, hw, hscales, hbiases⟩

theorem Reads.requireTyped {plan : Plan} {data : Matrices plan.type.format}
    (h : operands.Reads plan.type data) : plan.requireTyped operands = .ok data := by
  simp only [Plan.requireTyped, requireElements, h.x, h.w, h.scales, h.biases, ok_bind]
  rfl

theorem Settled.fills (h : operands.Settled out config transposed type dims)
    {batches : List Offsets} {data : Matrices type.format} (hdata : operands.Reads type data)
    {batch : Offsets} (hbatch : operands.AtBatch batch) :
    (Plan.stretchesAt ⟨type, dims, config, transposed, batches⟩ data batch).Fills config dims
      transposed := by
  obtain ⟨_, hx⟩ := hbatch.x
  obtain ⟨_, hw⟩ := hbatch.w
  obtain ⟨_, hscales⟩ := hbatch.scales
  obtain ⟨_, hbiases⟩ := hbatch.biases
  exact
    { x := hx.length_stretch hdata.x h.xDense h.fitted.x
      w := hw.length_stretch hdata.w h.wDense h.fitted.w
      scales := hscales.length_stretch hdata.scales h.scalesDense h.fitted.scales
      biases := hbiases.length_stretch hdata.biases h.biasesDense h.fitted.biases }

theorem Settled.reaches (h : operands.Settled out config transposed type dims)
    {batches : List Offsets} {data : Matrices type.format} (hdata : operands.Reads type data)
    (hm : 0 < dims.m) (hrows : 0 < dims.rows transposed) (hinner : 0 < dims.inner transposed)
    (hk : 0 < dims.k) {batch : Offsets} (hbatch : operands.AtBatch batch) :
    Plan.Reaches ⟨type, dims, config, transposed, batches⟩ data batch := by
  obtain ⟨_, hxBatch⟩ := hbatch.x
  obtain ⟨_, hwBatch⟩ := hbatch.w
  obtain ⟨_, hscalesBatch⟩ := hbatch.scales
  obtain ⟨_, hbiasesBatch⟩ := hbatch.biases
  have hwords := config.wordsOf_pos hinner h.fitted.groups
  have hgroups : 0 < dims.inner transposed / config.group.size :=
    Nat.div_pos (Nat.le_of_dvd hinner (Nat.dvd_of_mod_eq_zero h.fitted.groups))
      config.group.size_pos
  exact
    { x := (hxBatch.matrix? hdata.x h.xDense h.fitted.x).2 (Nat.mul_pos hm hk)
      w := (hwBatch.matrix? hdata.w h.wDense h.fitted.w).2 (Nat.mul_pos hrows hwords)
      scales := (hscalesBatch.matrix? hdata.scales h.scalesDense h.fitted.scales).2
        (Nat.mul_pos hrows hgroups)
      biases := (hbiasesBatch.matrix? hdata.biases h.biasesDense h.fitted.biases).2
        (Nat.mul_pos hrows hgroups) }

/-- The sizes of a product of operands that have a batch are addresses, with two extents
and the size of a block that say so for themselves. -/
theorem Settled.fits (h : operands.Settled out config transposed type dims)
    (hm : dims.m < addressLimit) (hrows : dims.rows transposed < addressLimit)
    (hout : dims.m * dims.n < addressLimit) {batch : Offsets} (hbatch : operands.AtBatch batch) :
    dims.Fits config transposed := by
  obtain ⟨_, hxBatch⟩ := hbatch.x
  obtain ⟨_, hwBatch⟩ := hbatch.w
  obtain ⟨_, hscalesBatch⟩ := hbatch.scales
  exact
    { m := hm
      rows := hrows
      x := hxBatch.size_lt h.fitted.x
      out := hout
      w := hwBatch.size_lt h.fitted.w
      groups := hscalesBatch.size_lt h.fitted.scales }

theorem requireBlocks_eq_ok {count : Nat} (h : requireBlocks out count dims = .ok ()) :
    ∃ len, out.layout.requiredLength? = .ok len ∧ count * (dims.m * dims.n) ≤ len := by
  obtain ⟨len, hlen, hroom⟩ := bind_eq_ok.mp h
  refine ⟨len, Checked.ofExcept_eq_ok.mp (Checked.ofShape_eq_ok.mp hlen), ?_⟩
  simp only [requireRoom] at hroom
  split at hroom
  · cases hroom
  · next hle =>
      rw [← Nat.mul_assoc]
      exact Nat.le_of_not_lt hle

/-- Settled operands and places of their batches leave nothing to fail. -/
theorem Settled.ready (h : operands.Settled out config transposed type dims)
    {batches : List Offsets} {data : Matrices type.format} (hdata : operands.Reads type data)
    {len : Nat} (hlen : out.layout.requiredLength? = .ok len)
    (hroom : batches.length * (dims.m * dims.n) ≤ len)
    (hbatches : ∀ batch ∈ batches, operands.AtBatch batch) :
    Plan.Ready ⟨type, dims, config, transposed, batches⟩ operands data out.buffer.length := by
  obtain ⟨len', hlen', hcovered⟩ := out.covered
  have hsame : len' = len := by
    rw [hlen] at hlen'
    cases hlen'
    rfl
  rw [hsame] at hcovered
  have hsizes : 0 < dims.m → 0 < dims.n → 0 < dims.k →
      0 < dims.rows transposed ∧ 0 < dims.inner transposed := by
    intro _ hn hk
    cases transposed with
    | true => exact ⟨hn, hk⟩
    | false => exact ⟨hk, hn⟩
  -- That sizes are addresses is asked only where a batch is there, which is then part of a buffer.
  refine ⟨hdata.requireTyped, h.fitted.groups, Nat.le_trans hroom hcovered, ?_, ?_⟩
  · intro hm hn hk hsome
    obtain ⟨batch, hbatch⟩ := List.exists_mem_of_ne_nil _ hsome
    obtain ⟨hrows, hinner⟩ := hsizes hm hn hk
    have hone : 0 < batches.length := List.length_pos_of_mem hbatch
    have hblock := Nat.le_trans (Nat.le_mul_of_pos_left (dims.m * dims.n) hone) hroom
    have hat := hbatches batch hbatch
    obtain ⟨_, hxBatch⟩ := hat.x
    obtain ⟨_, hwBatch⟩ := hat.w
    have hx := hxBatch.size_lt h.fitted.x
    have hw := hwBatch.size_lt h.fitted.w
    have hwords := config.wordsOf_pos hinner h.fitted.groups
    exact h.fits (Nat.lt_of_le_of_lt (Nat.le_mul_of_pos_right _ hk) hx)
      (Nat.lt_of_le_of_lt (Nat.le_mul_of_pos_right _ hwords) hw)
      (Nat.lt_of_le_of_lt hblock (Layout.requiredLength?_lt hlen)) hat
  · intro hm hn hk batch hbatch
    obtain ⟨hrows, hinner⟩ := hsizes hm hn hk
    exact h.reaches hdata hm hrows hinner hk (hbatches batch hbatch)

end Operands

end SubByte
