/-
# Composition — quantized weights in a product

A tensor that has been quantized is an operand: its three parts are as long as their shapes
say, they are seen in these shapes, and a product takes the views in both orientations,
with every dense activation and output of the tensor's type around them whose extents and
batches fit (`Weights.composes`).  For one matrix of singles the product is the dense
product of the weights that expanding the tensor gives back, element for element; only the
kernel by lanes is left out, which adds in another order.

A product collects where its batches begin before it looks at one of them.  So there is
one thing that the shapes alone do not promise, an allocation for the entries of all
batches, and an output of very many empty matrices does not get it
(`Weights.composes_not_storage`).
-/
import SubByte.Proofs.Product.Accepted
import SubByte.Proofs.Product.Agreement
import SubByte.Proofs.Product.Logical
import SubByte.Proofs.Product.Prefixes
import SubByte.Proofs.Quantizer.Tensor

namespace SubByte

/-! ## Operands -/

/-- Activations and an output of one product for every batch of theirs. -/
structure Surrounds (x out : View) (type : FloatType) (dims : Dims) (xBatch outBatch : List Nat) :
    Prop where
  xType : x.dtype = .float type
  outType : out.dtype = .float type
  xShape : x.shape = xBatch ++ [dims.m, dims.k]
  outShape : out.shape = outBatch ++ [dims.m, dims.n]
  xDense : x.layout.isRowContiguous = true
  outDense : out.layout.isRowContiguous = true
  broadcasts : BroadcastsTo xBatch outBatch

theorem Surrounds.of_contiguous {x out : View} {type : FloatType} {dims : Dims}
    {xBatch outBatch : List Nat} {xs old : List (Binary type.format)}
    (hx : View.contiguous ⟨.float type, xs⟩ (xBatch ++ [dims.m, dims.k]) = .ok x)
    (hout : View.contiguous ⟨.float type, old⟩ (outBatch ++ [dims.m, dims.n]) = .ok out)
    (hxCount : ∀ inner ∈ (xBatch ++ [dims.m, dims.k]).tails, inner.prod < addressLimit)
    (houtCount : ∀ inner ∈ (outBatch ++ [dims.m, dims.n]).tails, inner.prod < addressLimit)
    (hto : BroadcastsTo xBatch outBatch) : Surrounds x out type dims xBatch outBatch := by
  obtain ⟨hxBuffer, hxLayout⟩ := View.contiguous_eq_ok hx
  obtain ⟨houtBuffer, houtLayout⟩ := View.contiguous_eq_ok hout
  exact
    { xType := by rw [View.dtype, hxBuffer]
      outType := by rw [View.dtype, houtBuffer]
      xShape := by rw [View.shape, hxLayout]; rfl
      outShape := by rw [View.shape, houtLayout]; rfl
      xDense := by rw [hxLayout]; exact Layout.isRowContiguous_contiguous hxCount
      outDense := by rw [houtLayout]; exact Layout.isRowContiguous_contiguous houtCount
      broadcasts := hto }

theorem Layout.batchShape_append {layout : Layout} {batch : List Nat} {rows cols : Nat}
    (h : layout.shape = batch ++ [rows, cols]) : layout.batchShape 2 = batch := by
  have hmatrix := MatrixShape.ofShape?_append batch rows cols
  rw [← h] at hmatrix
  exact (MatrixShape.ofShape?_eq_some hmatrix).1

namespace Weights

/-- The operands of a product with a quantized tensor. -/
def operands (views : WeightViews) (x : View) : Operands :=
  ⟨x, views.packed, views.scales, views.biases⟩

variable {view x out : View} {views : WeightViews} {config : Config} {floats : FloatBuffer}
  {batch xBatch outBatch : List Nat} {dims : Dims} {transposed : Bool} {bits groupSize : Nat}

theorem encoding_validate
    (h : view.Quantizable config floats (batch ++ [dims.rows transposed]) (dims.inner transposed))
    (hinner : dims.inner transposed < addressLimit)
    (hviews : (encoding config floats view.shape).views = .ok views)
    (hfit : Surrounds x out floats.type dims xBatch outBatch) :
    (operands views x).validate out config transposed = .ok (floats.type, dims) := by
  have hseen := seen_of_views hviews
  obtain ⟨hpackedShape, hgroupShape⟩ := encoding_shapes h
  obtain ⟨hpacked, hpackedLayout⟩ := View.contiguous_eq_ok hseen.packed
  obtain ⟨hscales, hscalesLayout⟩ := View.contiguous_eq_ok hseen.scales
  obtain ⟨hbiases, hbiasesLayout⟩ := View.contiguous_eq_ok hseen.biases
  rw [hpackedShape, List.append_assoc] at hpackedLayout
  rw [hgroupShape, List.append_assoc] at hscalesLayout hbiasesLayout
  have hwords := Nat.lt_of_le_of_lt (config.wordsOf_le h.groups) hinner
  have hgroups := Nat.lt_of_le_of_lt
    (Nat.div_le_self (dims.inner transposed) config.group.size) hinner
  refine Operands.validate_accepts hfit.xType ?_ ?_ ?_ hfit.outType ?_
    (Layout.isMatrixContiguous_of_dense hfit.xDense) ?_ ?_ ?_ hfit.outDense
  · rw [View.dtype, operands, hpacked]
  · rw [View.dtype, operands, hscales]
    rfl
  · rw [View.dtype, operands, hbiases]
    rfl
  · have hdims := Dims.ofShapes_matrices xBatch batch batch outBatch h.groups
    simp only [Operands.dims, operands, View.shape, hpackedLayout, hscalesLayout, hbiasesLayout]
    rw [show x.layout.shape = _ from hfit.xShape, show out.layout.shape = _ from hfit.outShape]
    exact congrArg Checked.ofShape hdims
  · show views.packed.layout.isMatrixContiguous = true
    rw [hpackedLayout]
    exact Layout.isMatrixContiguous_contiguous batch _ hwords
  · show views.scales.layout.isMatrixContiguous = true
    rw [hscalesLayout]
    exact Layout.isMatrixContiguous_contiguous batch _ hgroups
  · show views.biases.layout.isMatrixContiguous = true
    rw [hbiasesLayout]
    exact Layout.isMatrixContiguous_contiguous batch _ hgroups

theorem encoding_broadcastTo
    (h : view.Quantizable config floats (batch ++ [dims.rows transposed]) (dims.inner transposed))
    (hviews : (encoding config floats view.shape).views = .ok views)
    (hfit : Surrounds x out floats.type dims xBatch outBatch)
    (hbatch : BroadcastsTo batch outBatch) :
    outBatchShape out = outBatch ∧ (operands views x).BroadcastTo outBatch := by
  have hseen := seen_of_views hviews
  obtain ⟨hpackedShape, hgroupShape⟩ := encoding_shapes h
  rw [List.append_assoc] at hpackedShape hgroupShape
  have hpart : ∀ {buffer : Buffer} {part : View} {rows cols : Nat},
      View.contiguous buffer (batch ++ [rows, cols]) = .ok part →
        BroadcastsTo (part.layout.batchShape 2) outBatch := by
    intro buffer part rows cols hpart
    have hshape : part.layout.shape = batch ++ [rows, cols] := by
      rw [(View.contiguous_eq_ok hpart).2]
      rfl
    rw [Layout.batchShape_append hshape]
    exact hbatch
  refine ⟨?_, ?_, hpart (hpackedShape ▸ hseen.packed), hpart (hgroupShape ▸ hseen.scales),
    hpart (hgroupShape ▸ hseen.biases)⟩
  · rw [outBatchShape, hfit.outShape, MatrixShape.ofShape?_append]
  · show BroadcastsTo (x.layout.batchShape 2) outBatch
    rw [Layout.batchShape_append hfit.xShape]
    exact hfit.broadcasts

/-! ## Calls -/

theorem encoding_batched (hconfig : Config.ofParameters bits groupSize = .ok config)
    (h : view.Quantizable config floats (batch ++ [dims.rows transposed]) (dims.inner transposed))
    (hinner : dims.inner transposed < addressLimit)
    (hviews : (encoding config floats view.shape).views = .ok views)
    (hfit : Surrounds x out floats.type dims xBatch outBatch)
    (hbatch : BroadcastsTo batch outBatch) :
    Plan.batched (operands views x) out bits groupSize transposed = (do
      Checked.ofFault (requireStorage (extentProduct outBatch) Offsets.bytes)
      return Plan.broadcast (operands views x) floats.type dims config transposed outBatch) := by
  obtain ⟨hshape, hto⟩ := encoding_broadcastTo h hviews hfit hbatch
  have hplan := Plan.batched_eq hconfig (encoding_validate h hinner hviews hfit) (by rwa [hshape])
  rwa [hshape] at hplan

end Weights

theorem CodeWidth.bits_of_ofBits {bits : Nat} {width : CodeWidth} (h : ofBits bits = .ok width) :
    width.bits = bits := by
  unfold ofBits at h
  split at h <;> cases h <;> rfl

theorem Variant.select_eq {width : CodeWidth} {transposed : Bool} (simd : Bool)
    (h : transposed = true → lanesFit width = false) :
    select width transposed simd = if transposed then .transposed else .plain := by
  cases transposed with
  | false => rfl
  | true => simp only [select, h rfl, Bool.and_false, if_true, Bool.false_eq_true, if_false]

theorem Surrounds.room {x out : View} {type : FloatType} {dims : Dims}
    (h : Surrounds x out type dims [] []) :
    dims.m * dims.k ≤ x.buffer.length ∧ dims.m * dims.n ≤ out.buffer.length := by
  have hsize : ∀ {view : View} {rows cols : Nat}, view.shape = [rows, cols] →
      view.layout.size = rows * cols := by
    intro view rows cols hshape
    rw [Layout.size, show view.layout.shape = [rows, cols] from hshape, extentProduct_eq_prod,
      List.prod_cons, List.prod_cons, List.prod_nil, Nat.mul_one]
  have hx := View.size_le_of_dense h.xDense
  have hout := View.size_le_of_dense h.outDense
  rw [hsize h.xShape] at hx
  rw [hsize h.outShape] at hout
  exact ⟨hx, hout⟩

namespace Weights

variable {view x out : View} {views : WeightViews} {config : Config} {floats : FloatBuffer}
  {dims : Dims} {transposed simd : Bool} {bits groupSize : Nat}

theorem encoding_matmul (simd : Bool) (hconfig : Config.ofParameters bits groupSize = .ok config)
    (h : view.Quantizable config floats [dims.rows transposed] (dims.inner transposed))
    (hinner : dims.inner transposed < addressLimit)
    (hviews : (encoding config floats view.shape).views = .ok views)
    (hfit : Surrounds x out floats.type dims [] []) {xs old : List (Binary floats.type.format)}
    (hx : x.buffer = ⟨.float floats.type, xs⟩) (hout : out.buffer = ⟨.float floats.type, old⟩) :
    let q := encoding config floats view.shape
    quantizedMatmul simd (operands views x) out bits groupSize transposed =
      (.ok (), ⟨.float floats.type, overlay ((List.range (dims.m * dims.n)).map fun cell =>
        (Matrices.elementAt ⟨xs, q.packed, q.scales.data, q.biases.data⟩ config dims
          (.select config.width transposed simd) cell).narrow _) old⟩) := by
  intro q
  have hseen := seen_of_views hviews
  obtain ⟨hpacked, hscales, hbiases⟩ := encoding_lengths h
  have hsingle : view.Quantizable config floats ([] ++ [dims.rows transposed])
      (dims.inner transposed) := h
  have hto := (encoding_broadcastTo hsingle hviews hfit ⟨Nat.le_refl 0, .nil⟩).2
  have hplan : Plan.batched (operands views x) out bits groupSize transposed = .ok
      (Plan.broadcast (operands views x) floats.type dims config transposed []) :=
    encoding_batched hconfig hsingle hinner hviews hfit ⟨Nat.le_refl 0, .nil⟩
  have hreads : (operands views x).Reads floats.type ⟨xs, q.packed, q.scales.data, q.biases.data⟩ := by
    refine ⟨?_, ?_, ?_, ?_⟩
    · rw [View.as?, operands, hx]
      exact Buffer.as?_self _ _
    · rw [View.as?, operands, (View.contiguous_eq_ok hseen.packed).1]
      exact Buffer.as?_self _ _
    · rw [View.as?, operands, (View.contiguous_eq_ok hseen.scales).1]
      exact Buffer.as?_self _ _
    · rw [View.as?, operands, (View.contiguous_eq_ok hseen.biases).1]
      exact Buffer.as?_self _ _
  -- The parts are as long as one matrix asks for, so the stretches of the one batch are the parts.
  rw [List.prod_cons, List.prod_nil, Nat.mul_one] at hpacked hscales hbiases
  have hstretches := Plan.stretchesAt_origin
    (Plan.broadcast (operands views x) floats.type dims config transposed [])
    ⟨xs, q.packed, q.scales.data, q.biases.data⟩ hpacked hscales hbiases
  have hproduct : (Plan.broadcast (operands views x) floats.type dims config transposed
      []).products simd ⟨xs, q.packed, q.scales.data, q.biases.data⟩ =
        (List.range (dims.m * dims.n)).map fun cell =>
          (Matrices.elementAt ⟨xs, q.packed, q.scales.data, q.biases.data⟩ config dims
            (.select config.width transposed simd) cell).narrow _ := by
    refine (Plan.products_single simd hto _).trans ?_
    refine List.map_congr_left fun cell hcell => congrArg (Binary.narrow _) ?_
    have hcell := List.mem_range.mp hcell
    rw [hstretches]
    exact Matrices.elementAt_take ⟨xs, q.packed, q.scales.data, q.biases.data⟩ config dims _ hcell
  exact (quantizedMatmul_eq_ok simd hplan hreads hout).trans (congrArg
    (fun product => ((.ok (), ⟨.float floats.type, overlay product old⟩) : Written Buffer)) hproduct)

theorem encoding_dense {data : List Single}
    (hconfig : Config.ofParameters bits groupSize = .ok config)
    (h : view.Quantizable config ⟨.f32, data⟩ [dims.rows transposed] (dims.inner transposed))
    (hinner : dims.inner transposed < addressLimit)
    (hviews : (encoding config ⟨.f32, data⟩ view.shape).views = .ok views)
    (hfit : Surrounds x out .f32 dims [] []) {xs old : List Single}
    (hx : x.buffer = ⟨.float .f32, xs⟩) (hout : out.buffer = ⟨.float .f32, old⟩)
    (hlanes : transposed = true → Variant.lanesFit config.width = false) (simd : Bool) :
    let q := encoding config ⟨.f32, data⟩ view.shape
    let weights := (List.range (dims.rows transposed * dims.inner transposed)).map
      (Matrices.weightAt (F := .single) ⟨[], q.packed, q.scales.data, q.biases.data⟩ config)
    ∃ product, (if transposed then Dense.multiplyTransposed xs weights old dims.m dims.n dims.k
        else Dense.multiply xs weights old dims.m dims.n dims.k) = .ok product ∧
      quantizedMatmul simd (operands views x) out bits groupSize transposed =
        (.ok (), ⟨.float .f32, product⟩) := by
  intro q weights
  obtain ⟨hxRoom, houtRoom⟩ := hfit.room
  rw [hx] at hxRoom
  rw [hout] at houtRoom
  have hselect := Variant.select_eq simd hlanes
  let matrices : Matrices .single := ⟨xs, q.packed, q.scales.data, q.biases.data⟩
  let cells := (List.range (dims.m * dims.n)).map
    (matrices.elementAt config dims (.select config.width transposed simd))
  -- Narrowing to singles and widening from them change nothing, so both sides have the same cells.
  have hnarrow : ((List.range (dims.m * dims.n)).map fun cell =>
      (matrices.elementAt config dims (.select config.width transposed simd) cell).narrow .single) =
        cells :=
    List.map_congr_left fun cell _ => Binary.convert_self _
  have hxs : xs.map (fun x => x.widen) = xs :=
    (List.map_congr_left fun x _ => Binary.convert_self x).trans (List.map_id xs)
  refine ⟨overlay cells old, ?_, ?_⟩
  · cases transposed with
    | false =>
        have hdense := Dense.multiply_weights matrices config hxRoom houtRoom
        rw [hxs] at hdense
        exact hdense
    | true =>
        have hdense := Dense.multiplyTransposed_weights matrices config hxRoom houtRoom
        rw [hxs] at hdense
        simp only [cells, hselect]
        exact hdense
  · have hcall := encoding_matmul simd hconfig h hinner hviews hfit hx hout
    exact hcall.trans (congrArg
      (fun product => ((.ok (), ⟨.float .f32, overlay product old⟩) : Written Buffer)) hnarrow)

theorem lanesFit_of_bits (hconfig : Config.ofParameters bits groupSize = .ok config)
    (h : bits ∈ [2, 3, 5, 6]) : Variant.lanesFit config.width = false := by
  have hnone : ∀ width : CodeWidth, width.bits ∈ [2, 3, 5, 6] → Variant.lanesFit width = false := by
    intro width
    cases width <;> decide
  obtain ⟨width, hwidth, hconfig⟩ := bind_eq_ok.mp hconfig
  obtain ⟨group, -, hconfig⟩ := bind_eq_ok.mp hconfig
  cases hconfig
  refine hnone width ?_
  rwa [CodeWidth.bits_of_ofBits hwidth]

/-- A quantized tensor is an operand.  Its parts are as long as their shapes say and are seen in
them, and a product in either orientation returns for all dense activations and outputs
that fit around it, as long as the entries of the output's batches fit one allocation.  A
matrix of singles gives the dense product of the weights that it expands to. -/
theorem composes {q : Weights} {batch : List Nat} {rows inner : Nat}
    (hshape : view.shape = batch ++ [rows, inner]) (haddressed : view.Addressed)
    (hq : ofView view bits groupSize = .ok q) :
    (q.packed.length = extentProduct q.packedShape ∧
      q.scales.data.length = extentProduct q.groupShape ∧
      q.biases.data.length = extentProduct q.groupShape) ∧
    ∃ views, q.views = .ok views ∧
      (∀ (simd transposed : Bool) (dims : Dims) (type : FloatType) (xBatch outBatch : List Nat)
        (x out : View), view.dtype = .float type → dims.rows transposed = rows →
        dims.inner transposed = inner → Surrounds x out type dims xBatch outBatch →
        BroadcastsTo batch outBatch → extentProduct outBatch * Offsets.bytes ≤ storageLimit →
        (quantizedMatmul simd (operands views x) out bits groupSize transposed).1 = .ok ()) ∧
      (batch = [] → view.dtype = .float .f32 → ∃ weights : List Single,
        q.expand = (do
          Checked.ofFault (requireStorage (rows * inner) Format.single.bytes)
          return ⟨.f32, weights⟩) ∧
        ∀ (simd : Bool) (dims : Dims) (x out : View) (xs old : List Single),
          x.buffer = ⟨.float .f32, xs⟩ → out.buffer = ⟨.float .f32, old⟩ →
          Surrounds x out .f32 dims [] [] →
          (dims.k = rows → dims.n = inner → ∃ product,
            Dense.multiply xs weights old dims.m dims.n dims.k = .ok product ∧
            quantizedMatmul simd (operands views x) out bits groupSize false =
              (.ok (), ⟨.float .f32, product⟩)) ∧
          (bits ∈ [2, 3, 5, 6] → dims.n = rows → dims.k = inner → ∃ product,
            Dense.multiplyTransposed xs weights old dims.m dims.n dims.k = .ok product ∧
            quantizedMatmul simd (operands views x) out bits groupSize true =
              (.ok (), ⟨.float .f32, product⟩))) := by
  obtain ⟨config, floats, front, last, hconfig, h, rfl⟩ := exists_quantizable hq
  -- `q` is an encoding behind its checks; the rows in front of it are those of the shape.
  have hsplit : front ++ [last] = (batch ++ [rows]) ++ [inner] := by
    rw [← h.shape, hshape, List.append_assoc]
    rfl
  obtain ⟨rfl, hlast⟩ := List.append_inj' hsplit rfl
  cases hlast
  have hinner : inner < addressLimit := by
    refine haddressed inner ?_
    rw [hshape]
    exact List.mem_append_right batch (List.mem_cons_of_mem rows List.mem_cons_self)
  have htype : view.dtype = .float floats.type := by
    rw [View.dtype, h.floats]
    rfl
  obtain ⟨hpackedShape, hgroupShape⟩ := encoding_shapes h
  obtain ⟨hpacked, hscales, hbiases⟩ := encoding_lengths h
  obtain ⟨views, hviews⟩ := exists_views h
  have hprod : ∀ size, extentProduct ((batch ++ [rows]) ++ [size]) = (batch ++ [rows]).prod * size := by
    intro size
    rw [extentProduct_eq_prod, List.prod_append_nat, List.prod_cons, List.prod_nil, Nat.mul_one]
  refine ⟨?_, views, hviews, ?_, ?_⟩
  · rw [hpackedShape, hgroupShape, hprod, hprod]
    exact ⟨hpacked, hscales, hbiases⟩
  · intro simd transposed dims type xBatch outBatch x out hdtype hrows hcols hfit hbatch hstorage
    rw [htype] at hdtype
    cases hdtype
    subst hrows
    subst hcols
    have hplan := encoding_batched hconfig h hinner hviews hfit hbatch
    rw [requireStorage_eq_ok_iff.mpr hstorage] at hplan
    have hplan : Plan.batched (operands views x) out bits groupSize transposed = .ok _ := hplan
    obtain ⟨_, -, _, -, -, hexecute⟩ := (Plan.batched_prepared hplan).execute simd
    rw [quantizedMatmul, hplan, Plan.perform, hexecute]
  · rintro rfl hdtype
    obtain ⟨type, data⟩ := floats
    rw [htype] at hdtype
    cases hdtype
    have hsize : extentProduct view.shape = rows * inner := by
      rw [hshape, extentProduct_eq_prod]
      exact (List.prod_cons).trans (congrArg (rows * ·) (Nat.mul_one inner))
    let q := encoding config ⟨.f32, data⟩ view.shape
    refine ⟨(List.range (rows * inner)).map (Matrices.weightAt (F := .single)
      ⟨[], q.packed, q.scales.data, q.biases.data⟩ config), ?_, ?_⟩
    · have hexpand := expand_encoding h []
      have hnarrow : ∀ count : Nat, ((List.range count).map fun i => (Matrices.weightAt (F := .single)
          ⟨[], q.packed, q.scales.data, q.biases.data⟩ config i).narrow .single) =
          (List.range count).map (Matrices.weightAt (F := .single)
            ⟨[], q.packed, q.scales.data, q.biases.data⟩ config) :=
        fun count => List.map_congr_left fun i _ => Binary.convert_self _
      rw [hsize] at hexpand
      exact hexpand.trans (congrArg (fun weights => (do
        Checked.ofFault (requireStorage (rows * inner) Format.single.bytes)
        return FloatBuffer.mk .f32 weights : Checked QuantError FloatBuffer)) (hnarrow _))
    · intro simd dims x out xs old hx hout hfit
      constructor
      · rintro rfl rfl
        have hplain : view.Quantizable config ⟨.f32, data⟩ [dims.rows false] (dims.inner false) := h
        exact encoding_dense hconfig hplain hinner hviews hfit hx hout
          (fun hwrong => absurd hwrong Bool.false_ne_true) simd
      · rintro hbits rfl rfl
        have htransposed : view.Quantizable config ⟨.f32, data⟩ [dims.rows true]
            (dims.inner true) := h
        exact encoding_dense hconfig htransposed hinner hviews hfit hx hout
          (fun _ => lanesFit_of_bits hconfig hbits) simd

/-- Two rows of three-bit codes in a product with three activations, and with one. -/
theorem composes_two_rows :
    let weights : List Single := (List.range 64).map (Binary.ofNat .single)
    let xs : List Single := (List.range 96).map (Binary.ofNat .single)
    let old : List Single := List.replicate 7 .nan
    ∃ view q views, View.contiguous ⟨.float .f32, weights⟩ [2, 32] = .ok view ∧
      ofView view 3 32 = .ok q ∧ q.packed.length = extentProduct q.packedShape ∧
      q.views = .ok views ∧
      (∃ x out, View.contiguous ⟨.float .f32, xs⟩ [3, 1, 32] = .ok x ∧
        View.contiguous ⟨.float .f32, old⟩ [3, 1, 2] = .ok out ∧
        (quantizedMatmul true (operands views x) out 3 32 true).1 = .ok ()) ∧
      ∃ expanded x out product, q.expand = .ok ⟨.f32, expanded⟩ ∧
        View.contiguous ⟨.float .f32, xs⟩ [1, 32] = .ok x ∧
        View.contiguous ⟨.float .f32, old⟩ [1, 2] = .ok out ∧
        Dense.multiplyTransposed xs expanded old 1 2 32 = .ok product ∧
        quantizedMatmul true (operands views x) out 3 32 true =
          (.ok (), ⟨.float .f32, product⟩) := by
  intro weights xs old
  have hseen : ∀ {data : List Single} {shape : List Nat}, shape.prod < addressLimit →
      extentProduct shape ≤ data.length →
      ∃ view, View.contiguous ⟨.float .f32, data⟩ shape = .ok view :=
    fun hcount hroom => View.exists_contiguous _ (.inr hcount) hroom
  obtain ⟨view, hview⟩ := hseen (show [2, 32].prod < addressLimit by decide)
    (show extentProduct [2, 32] ≤ weights.length by decide)
  obtain ⟨x, hx⟩ := hseen (show [1, 32].prod < addressLimit by decide)
    (show extentProduct [1, 32] ≤ xs.length by decide)
  obtain ⟨out, hout⟩ := hseen (show [1, 2].prod < addressLimit by decide)
    (show extentProduct [1, 2] ≤ old.length by decide)
  obtain ⟨xStack, hxStack⟩ := hseen (show [3, 1, 32].prod < addressLimit by decide)
    (show extentProduct [3, 1, 32] ≤ xs.length by decide)
  obtain ⟨outStack, houtStack⟩ := hseen (show [3, 1, 2].prod < addressLimit by decide)
    (show extentProduct [3, 1, 2] ≤ old.length by decide)
  obtain ⟨hbuffer, hlayout⟩ := View.contiguous_eq_ok hview
  have hshape : view.shape = [] ++ [2, 32] := by
    rw [View.shape, hlayout]
    rfl
  have haddressed : view.Addressed := by
    rw [View.Addressed, hshape]
    decide
  have hdtype : view.dtype = .float .f32 := by rw [View.dtype, hbuffer]
  have hquantizable : view.Quantizable ⟨.three, .g32⟩ ⟨.f32, weights⟩ [2] 32 :=
    { floats := hbuffer
      shape := hshape
      groups := rfl
      dense := by
        rw [hlayout]
        exact Layout.isRowContiguous_contiguous (by decide) }
  have hq : ofView view 3 32 = .ok _ := ofView_eq_ok rfl hquantizable
  have hfit : Surrounds x out .f32 ⟨1, 2, 32⟩ [] [] :=
    .of_contiguous hx hout (by decide) (by decide) ⟨Nat.le_refl 0, .nil⟩
  have hstack : Surrounds xStack outStack .f32 ⟨1, 2, 32⟩ [3] [3] :=
    .of_contiguous hxStack houtStack (by decide) (by decide) (.refl [3])
  obtain ⟨⟨hpacked, -⟩, views, hviews, hcalls, hdense⟩ := composes hshape haddressed hq
  obtain ⟨expanded, hexpand, hproducts⟩ := hdense rfl hdtype
  obtain ⟨product, hproduct, hcall⟩ :=
    (hproducts true ⟨1, 2, 32⟩ x out xs old (View.contiguous_eq_ok hx).1
      (View.contiguous_eq_ok hout).1 hfit).2 (by decide) rfl rfl
  exact ⟨view, _, views, hview, hq, hpacked, hviews,
    ⟨xStack, outStack, hxStack, houtStack,
      hcalls true true ⟨1, 2, 32⟩ .f32 [3] [3] xStack outStack hdtype rfl rfl hstack
        ⟨Nat.zero_le 1, .nil⟩ (by decide)⟩,
    expanded, x, out, product, hexpand, hx, hout, hproduct, hcall⟩

/-- A matrix without rows, and the activations and the output of `2 ^ 58` batches of no
rows: everything fits, and the call does not return. -/
theorem composes_not_storage :
    ∃ view q views x out, View.contiguous ⟨.float .f32, []⟩ [0, 32] = .ok view ∧
      ofView view 4 32 = .ok q ∧ q.views = .ok views ∧
      View.contiguous ⟨.float .f32, []⟩ [2 ^ 58, 0, 32] = .ok x ∧
      View.contiguous ⟨.float .f32, []⟩ [2 ^ 58, 0, 0] = .ok out ∧
      Surrounds x out .f32 ⟨0, 0, 32⟩ [2 ^ 58] [2 ^ 58] ∧ BroadcastsTo [] [2 ^ 58] ∧
      (quantizedMatmul true (operands views x) out 4 32 true).1 =
        .error (.fault .outOfStorage) := by
  have hseen : ∀ {buffer : Buffer} {shape : List Nat}, 0 ∈ shape →
      extentProduct shape ≤ buffer.length → ∃ view, View.contiguous buffer shape = .ok view :=
    fun hzero hroom => View.exists_contiguous _ (.inl hzero) hroom
  let none : Buffer := ⟨.float .f32, []⟩
  obtain ⟨view, hview⟩ := hseen (show 0 ∈ [0, 32] by decide)
    (show extentProduct [0, 32] ≤ none.length by decide)
  obtain ⟨x, hx⟩ := hseen (show 0 ∈ [2 ^ 58, 0, 32] by decide)
    (show extentProduct [2 ^ 58, 0, 32] ≤ none.length by decide)
  obtain ⟨out, hout⟩ := hseen (show 0 ∈ [2 ^ 58, 0, 0] by decide)
    (show extentProduct [2 ^ 58, 0, 0] ≤ none.length by decide)
  obtain ⟨hbuffer, hlayout⟩ := View.contiguous_eq_ok hview
  have hquantizable : view.Quantizable ⟨.four, .g32⟩ ⟨.f32, []⟩ [0] 32 :=
    { floats := hbuffer
      shape := by
        rw [View.shape, hlayout]
        rfl
      groups := rfl
      dense := by
        rw [hlayout]
        exact Layout.isRowContiguous_contiguous (by decide) }
  have hq : ofView view 4 32 = .ok _ := ofView_eq_ok rfl hquantizable
  have hfit : Surrounds x out .f32 ⟨0, 0, 32⟩ [2 ^ 58] [2 ^ 58] :=
    .of_contiguous hx hout (by decide) (by decide) (.refl [2 ^ 58])
  obtain ⟨views, hviews⟩ := exists_views hquantizable
  have hbatch : BroadcastsTo [] [2 ^ 58] := ⟨Nat.zero_le 1, .nil⟩
  have hstorage : storageLimit < extentProduct [2 ^ 58] * Offsets.bytes := by decide
  have hstacked : view.Quantizable ⟨.four, .g32⟩ ⟨.f32, []⟩ ([] ++ [Dims.rows ⟨0, 0, 32⟩ true])
      (Dims.inner ⟨0, 0, 32⟩ true) := hquantizable
  have hconfig : Config.ofParameters 4 32 = .ok ⟨.four, .g32⟩ := rfl
  have hplan := encoding_batched hconfig hstacked (by decide) hviews hfit hbatch
  rw [requireStorage_eq_error_iff.mpr ⟨rfl, hstorage⟩] at hplan
  refine ⟨view, _, views, x, out, hview, hq, hviews, hx, hout, hfit, hbatch, ?_⟩
  rw [quantizedMatmul, hplan]
  rfl

end Weights

end SubByte
