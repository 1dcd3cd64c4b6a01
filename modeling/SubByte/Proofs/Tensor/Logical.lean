/-
# Logical elements — what a view shows of its buffer

A view has an element at all coordinates inside its shape (`View.element?`), which together
are its elements (`View.elements?`), and a matrix at all coordinates of its batch dimensions
(`View.matrix?`); none of these notions looks at how the buffer is laid out.  Where the
trailing matrices lie densely, the matrix at a batch is the stretch of the buffer from the
batch's place on (`View.matrix?_eq_some`), which is what the products read.  The stretch ends
inside the buffer unless the matrix is empty: a batch of empty matrices may have its place
anywhere.
-/
import SubByte.Proofs.Blocks
import SubByte.Proofs.Layout.Broadcast
import SubByte.Proofs.Layout.Dense
import SubByte.Tensor.Check

namespace SubByte

/-! ## Trailing matrices -/

namespace Layout

/-- The extents of the trailing matrix; one dimension alone is a single row. -/
def matrixShape (layout : Layout) : List Nat :=
  layout.shape.drop (layout.rank - 2)

/-- The strides of the trailing matrix. -/
def matrixStrides (layout : Layout) : List Nat :=
  layout.strides.drop (layout.rank - 2)

theorem batch_append_matrix (layout : Layout) :
    layout.batchShape 2 ++ layout.matrixShape = layout.shape :=
  List.take_append_drop _ _

theorem batchStrides_append_matrix (layout : Layout) :
    layout.batchStrides 2 ++ layout.matrixStrides = layout.strides :=
  List.take_append_drop _ _

theorem length_batchStrides (layout : Layout) :
    (layout.batchStrides 2).length = (layout.batchShape 2).length := by
  rw [batchStrides, batchShape, List.length_take, List.length_take, layout.rank_eq]

theorem size_eq_batches (layout : Layout) :
    layout.size = extentProduct (layout.batchShape 2) * layout.matrixShape.prod := by
  rw [size, extentProduct_eq_prod, extentProduct_eq_prod, ← List.prod_append_nat,
    layout.batch_append_matrix]

theorem place_in_row {c cs q : Nat} (hcol : c = 1 ∨ cs = 1) (hq : q < c) :
    placeOf (coordinates [c] q) [cs] = q := by
  show q / 1 % c * cs + 0 = q
  rw [Nat.div_one, Nat.mod_eq_of_lt hq, Nat.add_zero]
  rcases hcol with rfl | rfl
  · rw [Nat.lt_one_iff.mp hq, Nat.zero_mul]
  · exact Nat.mul_one q

theorem place_in_matrix {r c rs cs q : Nat} (hcol : c = 1 ∨ cs = 1) (hrow : r = 1 ∨ rs = c)
    (hq : q < r * c) : placeOf (coordinates [r, c] q) [rs, cs] = q := by
  have hc : 0 < c := Nat.pos_of_ne_zero fun hzero => by
    rw [hzero, Nat.mul_zero] at hq
    exact Nat.not_lt_zero q hq
  have hr : q / c < r := Nat.div_lt_of_lt_mul (by rwa [Nat.mul_comm])
  have hinner : placeOf (coordinates [c] q) [cs] = q % c := by
    have hcoords : coordinates [c] q = coordinates [c] (q % c) := by
      show [q / 1 % c] = [q % c / 1 % c]
      rw [Nat.div_one, Nat.div_one, Nat.mod_mod]
    rw [hcoords]
    exact place_in_row hcol (Nat.mod_lt q hc)
  have houter : q / c * rs = c * (q / c) := by
    rcases hrow with rfl | rfl
    · rw [Nat.lt_one_iff.mp hr, Nat.zero_mul, Nat.mul_zero]
    · exact Nat.mul_comm _ _
  rw [coordinates, placeOf, hinner, List.prod_cons, List.prod_nil, Nat.mul_one,
    Nat.mod_eq_of_lt hr, houter, Nat.div_add_mod]

/-- The trailing matrix is made of the two innermost dimensions, or of all when there are
fewer. -/
theorem matrix_cases (layout : Layout) :
    (layout.dimensions.reverse = [] ∧ layout.matrixShape = [] ∧ layout.matrixStrides = []) ∨
    (∃ c cs, layout.dimensions.reverse = [(c, cs)] ∧ layout.matrixShape = [c] ∧
      layout.matrixStrides = [cs]) ∨
    ∃ r c rs cs outer, layout.dimensions.reverse = (c, cs) :: (r, rs) :: outer ∧
      layout.matrixShape = [r, c] ∧ layout.matrixStrides = [rs, cs] := by
  have hrank : layout.rank = layout.dimensions.length := by
    rw [dimensions, List.length_zip, layout.rank_eq, Nat.min_self]
    rfl
  rw [matrixShape, matrixStrides, hrank, ← map_fst_dimensions, ← map_snd_dimensions]
  generalize layout.dimensions = dims
  rcases hreverse : dims.reverse with _ | ⟨⟨c, cs⟩, _ | ⟨⟨r, rs⟩, outer⟩⟩
  · left
    rw [List.reverse_eq_nil_iff.mp hreverse]
    exact ⟨rfl, rfl, rfl⟩
  · right
    left
    rw [List.reverse_eq_iff.mp hreverse]
    exact ⟨c, cs, rfl, rfl, rfl⟩
  · right
    right
    have hsplit : dims = outer.reverse ++ [(r, rs), (c, cs)] := by
      rw [List.reverse_eq_iff.mp hreverse, List.reverse_cons, List.reverse_cons, List.append_assoc]
      rfl
    have hdrop : ∀ f : Nat × Nat → Nat, (dims.map f).drop (dims.length - 2) =
        [f (r, rs), f (c, cs)] := by
      intro f
      rw [hsplit, List.map_append]
      refine List.drop_left' ?_
      rw [List.length_map, List.length_append]
      rfl
    exact ⟨r, c, rs, cs, outer, rfl, hdrop _, hdrop _⟩

theorem matrix_place {layout : Layout} (h : layout.isMatrixContiguous = true) {q : Nat}
    (hq : q < layout.matrixShape.prod) :
    placeOf (coordinates layout.matrixShape q) layout.matrixStrides = q := by
  rw [isMatrixContiguous] at h
  rcases layout.matrix_cases with ⟨-, hshape, hstrides⟩ | ⟨c, cs, hdims, hshape, hstrides⟩ |
    ⟨r, c, rs, cs, outer, hdims, hshape, hstrides⟩
  · rw [hshape] at hq
    rw [hshape, hstrides]
    exact (Nat.lt_one_iff.mp hq).symm
  · rw [hdims, Bool.or_eq_true, decide_eq_true_iff, decide_eq_true_iff] at h
    rw [hshape] at hq
    rw [hshape, hstrides]
    exact place_in_row h (by rwa [← Nat.mul_one c])
  · rw [hdims, Bool.and_eq_true, Bool.or_eq_true, Bool.or_eq_true] at h
    simp only [decide_eq_true_iff] at h
    rw [hshape] at hq
    rw [hshape, hstrides]
    exact place_in_matrix h.1 h.2 (by rwa [← Nat.mul_one c])

end Layout

/-! ## Elements of a view -/

namespace Buffer

variable {buffer : Buffer} {d : DType} {data : List d.Elem}

theorem eq_of_as? (h : buffer.as? d = some data) : buffer = ⟨d, data⟩ := by
  simp only [as?] at h
  split at h
  · next hdtype =>
      cases hdtype
      cases h
      rfl
  · cases h

theorem length_of_as? (h : buffer.as? d = some data) : data.length = buffer.length := by
  rw [eq_of_as? h]
  rfl

end Buffer

namespace View

/-- The element of a view at coordinates, if they are inside its shape. -/
def element? (view : View) (d : DType) (coords : List Nat) : Option d.Elem := do
  let data ← view.as? d
  if Within coords view.shape then data[placeOf coords view.layout.strides]? else none

/-- All elements of a view, in row-major order. -/
def elements? (view : View) (d : DType) : Option (List d.Elem) :=
  (List.range view.layout.size).mapM fun e => view.element? d (coordinates view.shape e)

/-- The trailing matrix of a view at coordinates of its batch dimensions, row after row. -/
def matrix? (view : View) (d : DType) (batch : List Nat) : Option (List d.Elem) :=
  (List.range view.layout.matrixShape.prod).mapM fun q =>
    view.element? d (batch ++ coordinates view.layout.matrixShape q)

variable {view : View} {d : DType} {data : List d.Elem} {batch : List Nat}

theorem as?_of_dtype (h : view.dtype = d) : ∃ data : List d.Elem, view.as? d = some data := by
  subst h
  exact ⟨view.buffer.data, dif_pos rfl⟩

theorem element?_eq_some (hdata : view.as? d = some data)
    (hbatch : Within batch (view.layout.batchShape 2))
    (hdense : view.layout.isMatrixContiguous = true) {q : Nat}
    (hq : q < view.layout.matrixShape.prod) :
    placeOf batch (view.layout.batchStrides 2) + q < data.length ∧
      view.element? d (batch ++ coordinates view.layout.matrixShape q) =
        data[placeOf batch (view.layout.batchStrides 2) + q]? := by
  have hpos := List.prod_pos_iff_forall_pos_nat.mp (Nat.zero_lt_of_lt hq)
  have hcoords : Within (batch ++ coordinates view.layout.matrixShape q) view.shape := by
    rw [View.shape, ← view.layout.batch_append_matrix]
    exact List.rel_append hbatch (coordinates_within q hpos)
  have hplace : placeOf (batch ++ coordinates view.layout.matrixShape q) view.layout.strides =
      placeOf batch (view.layout.batchStrides 2) + q := by
    rw [← view.layout.batchStrides_append_matrix, placeOf_append _ _
      (hbatch.length_eq.trans view.layout.length_batchStrides.symm),
      Layout.matrix_place hdense hq]
  have hlength := view.place_lt_length hcoords
  rw [hplace, ← Buffer.length_of_as? hdata] at hlength
  refine ⟨hlength, ?_⟩
  rw [element?, hdata, Option.bind_eq_bind, Option.bind_some, if_pos hcoords, hplace]

/-- A dense matrix is a stretch of the buffer, inside it unless it is empty. -/
theorem matrix?_eq_some (hdata : view.as? d = some data)
    (hbatch : Within batch (view.layout.batchShape 2))
    (hdense : view.layout.isMatrixContiguous = true) :
    view.matrix? d batch = some ((data.drop (placeOf batch (view.layout.batchStrides 2))).take
        view.layout.matrixShape.prod) ∧
      (0 < view.layout.matrixShape.prod →
        placeOf batch (view.layout.batchStrides 2) + view.layout.matrixShape.prod ≤
          data.length) := by
  have hend : 0 < view.layout.matrixShape.prod →
      placeOf batch (view.layout.batchStrides 2) + view.layout.matrixShape.prod ≤
        data.length := by
    intro hpos
    have hlast := (element?_eq_some hdata hbatch hdense (Nat.sub_one_lt_of_lt hpos)).1
    omega
  refine ⟨?_, hend⟩
  rcases Nat.eq_zero_or_pos view.layout.matrixShape.prod with hzero | hpos
  · rw [matrix?, hzero]
    rfl
  · have hfirst := (element?_eq_some hdata hbatch hdense hpos).1
    rw [take_drop_eq_map data[placeOf batch (view.layout.batchStrides 2) + 0] (hend hpos)]
    refine mapM_eq_some fun q hq => ?_
    obtain ⟨hlt, helement⟩ := element?_eq_some hdata hbatch hdense (List.mem_range.mp hq)
    rw [helement, List.getD_eq_getElem?_getD, List.getElem?_eq_getElem hlt, Option.getD_some]

end View

end SubByte
