/-
# Slices — the matrices of a layout as stretches of its buffer

The products take the matrix of a batch as one stretch of the buffer, from the place of the
batch on.  A layout allows this exactly when it passes the check for dense matrices
(`isMatrixContiguous_iff_stretches`), whatever its rank and its batch strides: the stretches
may overlap, and all batches may share one.

The place of an element is that of its batch and its own within the matrix
(`location_in_batch`), so the matrices alone decide.  The check asks for two strides and
passes over the stride of a dimension of one element.  It finds all there is to find: the
second element of a row and the second row of a matrix, where there are any, lie as far on
as the two strides say (`isMatrixContiguous_iff_place`).
-/
import SubByte.Proofs.Layout.Dense
import SubByte.Proofs.Layout.Reach
import SubByte.Proofs.Product.Settled

namespace SubByte

/-! ## Batches of elements -/

/-- An element of tensor `b` among tensors one after another has the coordinates of the
tensor in front of its own. -/
theorem coordinates_append (inner : List Nat) {b q : Nat} (hq : q < inner.prod) :
    ∀ outer : List Nat, coordinates (outer ++ inner) (b * inner.prod + q) =
      coordinates outer b ++ coordinates inner q
  | [] => coordinates_mul_add inner b q
  | d :: outer => by
      have hfirst : (b * inner.prod + q) / (outer ++ inner).prod = b / outer.prod := by
        rw [List.prod_append_nat, Nat.mul_comm outer.prod, ← Nat.div_div_eq_div_mul, run_div hq]
      rw [List.cons_append, coordinates, hfirst, coordinates_append inner hq outer]
      rfl

namespace Layout

variable {layout : Layout} {b q : Nat}

/-- The place of a batch. -/
def batchPlace (layout : Layout) (b : Nat) : Nat :=
  placeOf (coordinates (layout.batchShape 2) b) (layout.batchStrides 2)

/-- The place of an element within its matrix. -/
def matrixPlace (layout : Layout) (q : Nat) : Nat :=
  placeOf (coordinates layout.matrixShape q) layout.matrixStrides

theorem batchShape_pos (hpos : ∀ d ∈ layout.shape, 0 < d) : ∀ d ∈ layout.batchShape 2, 0 < d :=
  fun d hd => hpos d (List.mem_of_mem_take hd)

theorem matrixShape_pos (hpos : ∀ d ∈ layout.shape, 0 < d) : ∀ d ∈ layout.matrixShape, 0 < d :=
  fun d hd => hpos d (List.mem_of_mem_drop hd)

theorem locate_batch (hpos : ∀ d ∈ layout.shape, 0 < d) (b : Nat) :
    locate (layout.batchShape 2) (layout.batchStrides 2) b = .ok (layout.batchPlace b) :=
  locate_eq_ok b layout.length_batchStrides (batchShape_pos hpos)

/-- An element lies as far behind the place of its batch as it does within its matrix. -/
theorem location_in_batch (hpos : ∀ d ∈ layout.shape, 0 < d) (b : Nat)
    (hq : q < layout.matrixShape.prod) :
    layout.location (b * layout.matrixShape.prod + q) =
      .ok (layout.batchPlace b + layout.matrixPlace q) := by
  have hlength : (coordinates (layout.batchShape 2) b).length =
      (layout.batchStrides 2).length := by
    rw [layout.length_batchStrides, (coordinates_within b (batchShape_pos hpos)).length_eq]
  rw [location, locate_eq_ok _ layout.rank_eq hpos, ← layout.batch_append_matrix,
    ← layout.batchStrides_append_matrix, coordinates_append _ hq, placeOf_append _ _ hlength]
  rfl

/-! ## The check -/

theorem row_of_place {c cs : Nat} (hc : 0 < c)
    (h : ∀ q < c, placeOf (coordinates [c] q) [cs] = q) : c = 1 ∨ cs = 1 := by
  refine or_iff_not_imp_left.mpr fun hone => ?_
  have hlt : 1 < c := by omega
  have hsecond : 1 / 1 % c * cs + 0 = 1 := h 1 hlt
  rwa [Nat.div_one, Nat.mod_eq_of_lt hlt, Nat.one_mul, Nat.add_zero] at hsecond

/-- A matrix that has its rows one after another has their length as the outer stride, if it
needs any. -/
theorem matrix_of_place {r c rs cs : Nat} (hr : 0 < r) (hc : 0 < c)
    (h : ∀ q < r * c, placeOf (coordinates [r, c] q) [rs, cs] = q) :
    (c = 1 ∨ cs = 1) ∧ (r = 1 ∨ rs = c) := by
  have hplace : ∀ q < r * c, q / c % r * rs + (q % c * cs + 0) = q := by
    intro q hq
    have hq := h q hq
    rwa [coordinates, coordinates, placeOf, placeOf, List.prod_cons, List.prod_nil, Nat.mul_one,
      Nat.div_one] at hq
  constructor
  · refine or_iff_not_imp_left.mpr fun hone => ?_
    have hlt : 1 < c := by omega
    have hsecond := hplace 1 (Nat.lt_of_lt_of_le hlt (Nat.le_mul_of_pos_left c hr))
    rwa [Nat.div_eq_of_lt hlt, Nat.zero_mod, Nat.zero_mul, Nat.zero_add, Nat.mod_eq_of_lt hlt,
      Nat.one_mul, Nat.add_zero] at hsecond
  · refine or_iff_not_imp_left.mpr fun hone => ?_
    have hlt : 1 < r := by omega
    have hrows := Nat.mul_lt_mul_of_pos_right hlt hc
    rw [Nat.one_mul] at hrows
    have hsecond := hplace c hrows
    rwa [Nat.div_self hc, Nat.mod_eq_of_lt hlt, Nat.one_mul, Nat.mod_self, Nat.zero_mul,
      Nat.zero_add, Nat.add_zero] at hsecond

/-- The check decides whether each element of a matrix lies at its own number. -/
theorem isMatrixContiguous_iff_place (hpos : ∀ d ∈ layout.shape, 0 < d) :
    layout.isMatrixContiguous = true ↔
      ∀ q < layout.matrixShape.prod, layout.matrixPlace q = q := by
  refine ⟨fun h q hq => matrix_place h hq, fun h => ?_⟩
  have hpos := matrixShape_pos hpos
  simp only [matrixPlace] at h
  rw [isMatrixContiguous]
  rcases layout.matrix_cases with ⟨hdims, -, -⟩ | ⟨c, cs, hdims, hshape, hstrides⟩ |
    ⟨r, c, rs, cs, outer, hdims, hshape, hstrides⟩
  · rw [hdims]
  · rw [hshape] at hpos
    rw [hshape, hstrides, List.prod_cons, List.prod_nil, Nat.mul_one] at h
    rw [hdims, Bool.or_eq_true, decide_eq_true_iff, decide_eq_true_iff]
    exact row_of_place (hpos c List.mem_cons_self) h
  · rw [hshape] at hpos
    rw [hshape, hstrides, List.prod_cons, List.prod_cons, List.prod_nil, Nat.mul_one] at h
    rw [hdims, Bool.and_eq_true, Bool.or_eq_true, Bool.or_eq_true]
    simp only [decide_eq_true_iff]
    exact matrix_of_place (hpos r List.mem_cons_self)
      (hpos c (List.mem_cons_of_mem r List.mem_cons_self)) h

/-! ## Stretches -/

theorem exists_ofShape? (hrank : 0 < layout.rank) :
    ∃ matrix, MatrixShape.ofShape? layout.shape = some matrix := by
  rw [MatrixShape.ofShape?]
  split
  · next hshape =>
      rw [rank, List.reverse_eq_nil_iff.mp hshape] at hrank
      exact absurd hrank (Nat.lt_irrefl 0)
  · exact ⟨_, rfl⟩
  · exact ⟨_, rfl⟩

theorem location_lt_required {e len place : Nat} (hpos : ∀ d ∈ layout.shape, 0 < d)
    (hlen : layout.requiredLength? = .ok len) (h : layout.location e = .ok place) :
    place < len := by
  rw [location, locate_eq_ok e layout.rank_eq hpos] at h
  cases h
  exact place_lt_required hlen (coordinates_within e hpos)

theorem stretch_le_required {len : Nat} (hpos : ∀ d ∈ layout.shape, 0 < d)
    (hlen : layout.requiredLength? = .ok len) (h : layout.isMatrixContiguous = true) (b : Nat) :
    layout.batchPlace b + layout.matrixShape.prod ≤ len := by
  have hprod : 0 < layout.matrixShape.prod :=
    List.prod_pos_iff_forall_pos_nat.mpr (matrixShape_pos hpos)
  have hlast := Nat.sub_one_lt_of_lt hprod
  have hlocation := location_in_batch hpos b hlast
  rw [(isMatrixContiguous_iff_place hpos).mp h _ hlast] at hlocation
  have hroom := location_lt_required hpos hlen hlocation
  omega

/-- A layout with elements has dense matrices exactly when the matrix of every batch is the
stretch of the buffer from the place of the batch on.  The stretches then end within the
required length, and no step of a location in them passes the limit. -/
theorem isMatrixContiguous_iff_stretches (layout : Layout) (hrank : 0 < layout.rank)
    (hpos : ∀ d ∈ layout.shape, 0 < d) :
    ∃ matrix, MatrixShape.ofShape? layout.shape = some matrix ∧
      layout.batchShape 2 = matrix.batch ∧
      layout.size = extentProduct matrix.batch * (matrix.rows * matrix.cols) ∧
      (layout.isMatrixContiguous = true ↔
        ∀ b < extentProduct matrix.batch, ∀ q < matrix.rows * matrix.cols, ∃ place,
          locate (layout.batchShape 2) (layout.batchStrides 2) b = .ok place ∧
          layout.location (b * (matrix.rows * matrix.cols) + q) = .ok (place + q)) ∧
      (layout.isMatrixContiguous = true → ∀ len, layout.requiredLength? = .ok len →
        ∀ b < extentProduct matrix.batch, ∃ place,
          locate (layout.batchShape 2) (layout.batchStrides 2) b = .ok place ∧
          place + matrix.rows * matrix.cols ≤ len ∧
          boundedPlace ((layout.batchShape 2).zip (layout.batchStrides 2)).reverse b 0 =
            some place ∧
          ∀ q < matrix.rows * matrix.cols,
            boundedPlace layout.dimensions.reverse (b * (matrix.rows * matrix.cols) + q) 0 =
              some (place + q)) := by
  obtain ⟨matrix, hmatrix⟩ := exists_ofShape? hrank
  obtain ⟨hbatch, hprod, -, -⟩ := MatrixShape.ofShape?_eq_some hmatrix
  have hbatch : layout.batchShape 2 = matrix.batch := hbatch
  have hprod : layout.matrixShape.prod = matrix.rows * matrix.cols := hprod
  have hsize := layout.size_eq_batches
  rw [hbatch, hprod] at hsize
  refine ⟨matrix, hmatrix, hbatch, hsize, ⟨fun h b _ q hq => ?_, fun h => ?_⟩,
    fun h len hlen b _ => ?_⟩
  · refine ⟨layout.batchPlace b, locate_batch hpos b, ?_⟩
    rw [← hprod] at hq ⊢
    rw [location_in_batch hpos b hq, (isMatrixContiguous_iff_place hpos).mp h q hq]
  · -- The first batch alone decides.
    refine (isMatrixContiguous_iff_place hpos).mpr fun q hq => ?_
    have hfirst : 0 < extentProduct matrix.batch := by
      rw [extentProduct_eq_prod, ← hbatch]
      exact List.prod_pos_iff_forall_pos_nat.mpr (batchShape_pos hpos)
    obtain ⟨place, hplace, hlocation⟩ := h 0 hfirst q (hprod ▸ hq)
    rw [locate_batch hpos] at hplace
    cases hplace
    rw [← hprod, location_in_batch hpos 0 hq] at hlocation
    exact Nat.add_left_cancel (Except.ok.inj hlocation)
  · have hstretch := stretch_le_required hpos hlen h b
    have hlimit := requiredLength?_lt hlen
    refine ⟨layout.batchPlace b, locate_batch hpos b, hprod ▸ hstretch,
      boundedPlace_of_locate (locate_batch hpos b) (by omega), fun q hq => ?_⟩
    rw [← hprod] at hq ⊢
    have hlocation := location_in_batch hpos b hq
    rw [(isMatrixContiguous_iff_place hpos).mp h q hq] at hlocation
    exact boundedPlace_of_locate hlocation (by omega)

/-- Two batches of a single row of three, one place apart: the rows overlap, and no matter
what stride their one row has, each is a stretch of the buffer.  A matrix stored by columns
is none. -/
theorem isMatrixContiguous_iff_stretches_overlapping :
    (∀ b < 2, ∀ q < 3, ∃ place, locate [2] [1] b = .ok place ∧
      (⟨[2, 1, 3], [1, 77, 1], rfl⟩ : Layout).location (b * 3 + q) = .ok (place + q)) ∧
    (∃ place, locate [2] [1] 1 = .ok place ∧ place + 3 ≤ 4) ∧
    ¬ ∀ q < 12, (⟨[4, 3], [1, 4], rfl⟩ : Layout).location q = .ok q := by
  obtain ⟨matrix, hmatrix, -, -, hiff, hroom⟩ :=
    isMatrixContiguous_iff_stretches ⟨[2, 1, 3], [1, 77, 1], rfl⟩ (by decide) (by decide)
  obtain ⟨turned, hturned, -, -, hturnedIff, -⟩ :=
    isMatrixContiguous_iff_stretches ⟨[4, 3], [1, 4], rfl⟩ (by decide) (by decide)
  cases hmatrix
  cases hturned
  refine ⟨hiff.mp rfl, ?_, fun h => ?_⟩
  · obtain ⟨place, hplace, hend, -⟩ := hroom rfl 4 rfl 1 (by decide)
    exact ⟨place, hplace, hend⟩
  · have hdense : (⟨[4, 3], [1, 4], rfl⟩ : Layout).isMatrixContiguous = true := by
      refine hturnedIff.mpr fun b hb q hq => ?_
      obtain rfl : b = 0 := Nat.lt_one_iff.mp hb
      refine ⟨0, rfl, ?_⟩
      rw [Nat.zero_mul, Nat.zero_add]
      exact h q hq
    cases hdense

end Layout

end SubByte
