/-
# What the checks settle

A call that passes `Operands.validate` has operands of one float type, dense trailing
matrices, and extents that fit together.  `Operands.Settled` collects what the products
rely on: how many elements the trailing matrix of each operand has, and that codes come
in whole groups.  The checks reject and do nothing else (`validate_faults`): whatever the
shapes are, none of them divides by zero or reads an extent that is not there.
-/
import SubByte.Product.Operands
import SubByte.Proofs.Tensor.Logical

namespace SubByte

/-! ## Shapes -/

theorem MatrixShape.ofShape?_eq_some {shape : List Nat} {matrix : MatrixShape}
    (h : ofShape? shape = some matrix) :
    shape.take (shape.length - 2) = matrix.batch ∧
      (shape.drop (shape.length - 2)).prod = matrix.rows * matrix.cols ∧
      (matrix.rows = 1 ∨ matrix.rows ∈ shape) ∧ matrix.cols ∈ shape := by
  simp only [ofShape?] at h
  split at h
  · cases h
  · next cols hshape =>
      cases h
      rw [List.reverse_eq_iff.mp hshape]
      exact ⟨rfl, by rw [Nat.one_mul]; exact Nat.mul_one cols, .inl rfl, List.mem_cons_self⟩
  · next cols rows outer hshape =>
      cases h
      have hsplit : shape = outer.reverse ++ [rows, cols] := by
        rw [List.reverse_eq_iff.mp hshape, List.reverse_cons, List.reverse_cons, List.append_assoc]
        rfl
      have hlength : outer.reverse.length = shape.length - 2 := by
        rw [hsplit, List.length_append]
        rfl
      rw [← hlength, hsplit, List.take_left, List.drop_left]
      refine ⟨rfl, ?_, .inr ?_, ?_⟩
      · rw [List.prod_cons, List.prod_cons, List.prod_nil, Nat.mul_one]
      · exact List.mem_append_right _ List.mem_cons_self
      · exact List.mem_append_right _ (List.mem_cons_of_mem _ List.mem_cons_self)

/-- A shape whose trailing matrix is `rows` by `cols`. -/
def HasMatrix (shape : List Nat) (rows cols : Nat) : Prop :=
  ∃ batch, MatrixShape.ofShape? shape = some ⟨batch, rows, cols⟩

namespace Dims

/-- The extents of a product, held against the shapes of the operands. -/
structure Fitted (dims : Dims) (x w scales biases out : List Nat) (bits groupSize : Nat)
    (transposed : Bool) : Prop where
  x : HasMatrix x dims.m dims.k
  out : HasMatrix out dims.m dims.n
  groups : dims.inner transposed % groupSize = 0
  w : HasMatrix w (dims.rows transposed) (Packing.packedWords bits (dims.inner transposed))
  scales : HasMatrix scales (dims.rows transposed) (dims.inner transposed / groupSize)
  biases : HasMatrix biases (dims.rows transposed) (dims.inner transposed / groupSize)

theorem requireMatrix_eq_ok {operand : Operand} {shape : List Nat} {matrix : MatrixShape}
    (h : requireMatrix operand shape = .ok matrix) : MatrixShape.ofShape? shape = some matrix := by
  simp only [requireMatrix] at h
  split at h
  · next hshape =>
      cases h
      exact hshape
  · cases h

theorem requireWeightMatrix_eq_ok {w : List Nat} {matrix : MatrixShape}
    (h : requireWeightMatrix w = .ok matrix) : MatrixShape.ofShape? w = some matrix := by
  simp only [requireWeightMatrix] at h
  split at h
  · next hshape =>
      split at h
      · cases h
      · cases h
        exact hshape
  · cases h

theorem requireWholeGroups_mod {name : String} {inner groupSize : Nat}
    (h : requireWholeGroups name inner groupSize = .ok ()) : inner % groupSize = 0 := by
  simp only [requireWholeGroups] at h
  split at h
  · cases h
  · split at h
    · next hmod => exact hmod
    · cases h

theorem packedWords?_width (width : CodeWidth) (count : Nat) :
    Packing.packedWords? width.bits count = .ok (Packing.packedWords width.bits count) := by
  cases width <;> rfl

theorem requireWeights_eq_ok {w : List Nat} {matrix : MatrixShape} {rows inner : Nat}
    {width : CodeWidth} {transposed : Bool}
    (h : requireWeights w matrix rows inner width.bits transposed = .ok ()) :
    matrix.rows = rows ∧ matrix.cols = Packing.packedWords width.bits inner := by
  simp only [requireWeights] at h
  split at h
  · next hrows =>
      rw [packedWords?_width, Checked.ofFault_ok, ok_bind] at h
      split at h
      · next hcols => exact ⟨hrows, hcols⟩
      · cases h
  · cases h

theorem requireGroups_eq_ok {operand : Operand} {shape : List Nat} {rows groups : Nat}
    (h : requireGroups operand shape rows groups = .ok ()) : HasMatrix shape rows groups := by
  simp only [requireGroups] at h
  split at h
  · next matrix hshape =>
      split at h
      · next hmatrix =>
          obtain ⟨-, rfl, rfl⟩ := hmatrix
          exact ⟨matrix.batch, hshape⟩
      · cases h
  · cases h

theorem ofShapes_eq_ok {x w scales biases out : List Nat} {width : CodeWidth} {groupSize : Nat}
    {transposed : Bool} {dims : Dims}
    (h : ofShapes x w scales biases out width.bits groupSize transposed = .ok dims) :
    dims.Fitted x w scales biases out width.bits groupSize transposed := by
  obtain ⟨xMatrix, hx, h⟩ := bind_eq_ok.mp h
  obtain ⟨outMatrix, hout, h⟩ := bind_eq_ok.mp h
  obtain ⟨_, hrows, h⟩ := bind_eq_ok.mp h
  obtain ⟨wMatrix, hw, h⟩ := bind_eq_ok.mp h
  obtain ⟨_, hgroups, h⟩ := bind_eq_ok.mp h
  obtain ⟨_, hweights, h⟩ := bind_eq_ok.mp h
  obtain ⟨_, hscales, h⟩ := bind_eq_ok.mp h
  obtain ⟨_, hbiases, h⟩ := bind_eq_ok.mp h
  obtain ⟨_, -, h⟩ := bind_eq_ok.mp h
  cases h
  have hx := requireMatrix_eq_ok hx
  have hout := requireMatrix_eq_ok hout
  have hrows := Checked.of_check hrows
  have hw := requireWeightMatrix_eq_ok hw
  obtain ⟨hwRows, hwCols⟩ := requireWeights_eq_ok hweights
  refine ⟨⟨xMatrix.batch, hx⟩, ⟨outMatrix.batch, ?_⟩, requireWholeGroups_mod hgroups,
    ⟨wMatrix.batch, ?_⟩, requireGroups_eq_ok hscales, requireGroups_eq_ok hbiases⟩
  · rw [hout, ← hrows]
  · rw [hw, ← hwRows, ← hwCols]

/-- Nothing is divided by zero on the way, whatever the shapes are. -/
theorem ofShapes_faults (allowed : Fault → Prop) (x w scales biases out : List Nat)
    (width : CodeWidth) (group : GroupSize) (transposed : Bool) :
    Checked.FaultsOnly allowed
      (ofShapes x w scales biases out width.bits group.size transposed) := by
  have hmatrix : ∀ operand shape, Checked.FaultsOnly allowed (requireMatrix operand shape) := by
    intro operand shape
    simp only [requireMatrix]
    split
    · exact .ok _
    · exact .reject _
  have hweightMatrix : Checked.FaultsOnly allowed (requireWeightMatrix w) := by
    simp only [requireWeightMatrix]
    split
    · split
      · exact .reject _
      · exact .ok _
    · exact .reject _
  have hgroups : ∀ inner, Checked.FaultsOnly allowed
      (requireWholeGroups "weight" inner group.size) := by
    intro inner
    rw [requireWholeGroups, if_neg (Nat.ne_of_gt group.size_pos)]
    exact .check _ _
  have hweights : ∀ matrix rows inner, Checked.FaultsOnly allowed
      (requireWeights w matrix rows inner width.bits transposed) := by
    intro matrix rows inner
    simp only [requireWeights]
    split
    · rw [packedWords?_width]
      exact .check _ _
    · exact .reject _
  have haffine : ∀ operand shape rows groups, Checked.FaultsOnly allowed
      (requireGroups operand shape rows groups) := by
    intro operand shape rows groups
    simp only [requireGroups]
    split
    · exact .check _ _
    · exact .reject _
  refine .bind (hmatrix _ _) fun _ _ => ?_
  refine .bind (hmatrix _ _) fun _ _ => ?_
  refine .bind (.check _ _) fun _ _ => ?_
  refine .bind hweightMatrix fun _ _ => ?_
  refine .bind (hgroups _) fun _ _ => ?_
  refine .bind (hweights _ _ _) fun _ _ => ?_
  refine .bind (haffine _ _ _ _) fun _ _ => ?_
  refine .bind (haffine _ _ _ _) fun _ _ => ?_
  refine .bind (.check _ _) fun _ _ => ?_
  exact .ok _

end Dims

/-! ## Operands -/

namespace Operands

/-- What a call that passes its checks can rely on. -/
structure Settled (operands : Operands) (out : View) (config : Config) (transposed : Bool)
    (type : FloatType) (dims : Dims) : Prop where
  xType : operands.x.dtype = .float type
  wType : operands.w.dtype = .u32
  scalesType : operands.scales.dtype = .float type
  biasesType : operands.biases.dtype = .float type
  outType : out.dtype = .float type
  fitted : dims.Fitted operands.x.shape operands.w.shape operands.scales.shape
    operands.biases.shape out.shape config.width.bits config.group.size transposed
  xDense : operands.x.layout.isMatrixContiguous = true
  wDense : operands.w.layout.isMatrixContiguous = true
  scalesDense : operands.scales.layout.isMatrixContiguous = true
  biasesDense : operands.biases.layout.isMatrixContiguous = true
  outDense : out.layout.isRowContiguous = true

theorem requireFloatType_eq_ok {view : View} {type : FloatType}
    (h : requireFloatType view = .ok type) : view.dtype = .float type := by
  simp only [requireFloatType] at h
  split at h
  · next hfloat =>
      cases h
      cases hdtype : view.dtype with
      | float found =>
          rw [hdtype] at hfloat
          cases hfloat
          rfl
      | u8 => rw [hdtype] at hfloat; cases hfloat
      | u32 => rw [hdtype] at hfloat; cases hfloat
      | i32 => rw [hdtype] at hfloat; cases hfloat
  · cases h

theorem validate_eq_ok {operands : Operands} {out : View} {config : Config} {transposed : Bool}
    {settled : FloatType × Dims} (h : operands.validate out config transposed = .ok settled) :
    operands.Settled out config transposed settled.1 settled.2 := by
  obtain ⟨type, htype, h⟩ := bind_eq_ok.mp h
  obtain ⟨_, hw, h⟩ := bind_eq_ok.mp h
  obtain ⟨_, hscales, h⟩ := bind_eq_ok.mp h
  obtain ⟨_, hbiases, h⟩ := bind_eq_ok.mp h
  obtain ⟨_, hout, h⟩ := bind_eq_ok.mp h
  obtain ⟨dims, hdims, h⟩ := bind_eq_ok.mp h
  obtain ⟨_, hxDense, h⟩ := bind_eq_ok.mp h
  obtain ⟨_, hwDense, h⟩ := bind_eq_ok.mp h
  obtain ⟨_, hscalesDense, h⟩ := bind_eq_ok.mp h
  obtain ⟨_, hbiasesDense, h⟩ := bind_eq_ok.mp h
  obtain ⟨_, houtDense, h⟩ := bind_eq_ok.mp h
  cases h
  exact
    { xType := requireFloatType_eq_ok htype
      wType := Checked.of_check hw
      scalesType := Checked.of_check hscales
      biasesType := Checked.of_check hbiases
      outType := Checked.of_check hout
      fitted := Dims.ofShapes_eq_ok (Checked.ofShape_eq_ok.mp hdims)
      xDense := Checked.of_check hxDense
      wDense := Checked.of_check hwDense
      scalesDense := Checked.of_check hscalesDense
      biasesDense := Checked.of_check hbiasesDense
      outDense := Checked.of_check houtDense }

/-- The checks of a call reject, and do nothing else. -/
theorem validate_faults (allowed : Fault → Prop) (operands : Operands) (out : View)
    (config : Config) (transposed : Bool) :
    Checked.FaultsOnly allowed (operands.validate out config transposed) := by
  have htype : Checked.FaultsOnly allowed (requireFloatType operands.x) := by
    simp only [requireFloatType]
    split
    · exact .ok _
    · exact .reject _
  have hdims := Dims.ofShapes_faults allowed operands.x.shape operands.w.shape
    operands.scales.shape operands.biases.shape out.shape config.width config.group transposed
  refine .bind htype fun _ _ => ?_
  refine .bind (.check _ _) fun _ _ => ?_
  refine .bind (.check _ _) fun _ _ => ?_
  refine .bind (.check _ _) fun _ _ => ?_
  refine .bind (.check _ _) fun _ _ => ?_
  refine .bind (.ofShape hdims) fun _ _ => ?_
  refine .bind (.check _ _) fun _ _ => ?_
  refine .bind (.check _ _) fun _ _ => ?_
  refine .bind (.check _ _) fun _ _ => ?_
  refine .bind (.check _ _) fun _ _ => ?_
  refine .bind (.check _ _) fun _ _ => ?_
  exact .ok _

end Operands

end SubByte
