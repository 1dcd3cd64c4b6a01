/-
# Dense layouts — elements one after another

A layout is row contiguous when the stride of every dimension of more than one element
counts the elements behind it.  The check goes from the innermost dimension outward; read
from the outermost one (`Layout.Dense`) it says what the layout has to be for the last
element to lie right behind all others, so a dense view of `n` elements needs a buffer of
`n` (`requiredLength?_of_dense`), and its trailing matrices are dense as well.

The dense layout of a shape is row contiguous when the extents from each dimension on have a
product that is an address.  For shapes that have elements this is to say that the elements
can be counted; in front of an extent of zero it is more, since strides are held at the
largest address (`heldCount`).
-/
import Mathlib.Algebra.BigOperators.Ring.List
import Mathlib.Algebra.GroupWithZero.Nat
import Mathlib.Data.List.Infix
import SubByte.Proofs.Layout.Coverage

namespace SubByte

namespace Layout

/-! ## From the outermost dimension -/

/-- Each stride counts the elements behind its dimension, the outermost first. -/
def Dense : List (Nat × Nat) → Prop
  | [] => True
  | (d, s) :: inner => (d = 1 ∨ s = (inner.map Prod.fst).prod) ∧ Dense inner

theorem denseInward_append (outer : List (Nat × Nat)) :
    ∀ (expected : Nat) (inner : List (Nat × Nat)), denseInward expected (inner ++ outer) =
      (denseInward expected inner && denseInward (expected * (inner.map Prod.fst).prod) outer)
  | expected, [] => by
      rw [List.nil_append, List.map_nil, List.prod_nil, Nat.mul_one, denseInward, Bool.true_and]
  | expected, (d, s) :: inner => by
      rw [List.cons_append, denseInward, denseInward_append outer (expected * d) inner, denseInward,
        List.map_cons, List.prod_cons, Nat.mul_assoc, Bool.and_assoc]

theorem denseInward_reverse : ∀ dims : List (Nat × Nat),
    denseInward 1 dims.reverse = true ↔ Dense dims
  | [] => by
      rw [List.reverse_nil, denseInward, Dense]
      exact ⟨fun _ => trivial, fun _ => rfl⟩
  | (d, s) :: inner => by
      have hprod : (inner.reverse.map Prod.fst).prod = (inner.map Prod.fst).prod := by
        rw [List.map_reverse, List.prod_reverse_nat]
      rw [List.reverse_cons, denseInward_append, Bool.and_eq_true, denseInward_reverse inner, hprod,
        Nat.one_mul, Dense]
      simp only [denseInward, Bool.and_true, Bool.or_eq_true, decide_eq_true_iff]
      exact and_comm

variable {layout : Layout}

theorem isRowContiguous_iff : layout.isRowContiguous = true ↔ Dense layout.dimensions :=
  denseInward_reverse layout.dimensions

theorem map_fst_dimensions (layout : Layout) : layout.dimensions.map Prod.fst = layout.shape :=
  List.map_fst_zip (Nat.le_of_eq layout.rank_eq.symm)

theorem map_snd_dimensions (layout : Layout) : layout.dimensions.map Prod.snd = layout.strides :=
  List.map_snd_zip (Nat.le_of_eq layout.rank_eq)

theorem Dense.last_place : ∀ {dims : List (Nat × Nat)}, Dense dims → (∀ dim ∈ dims, 0 < dim.1) →
    1 + placeOf ((dims.map Prod.fst).map (· - 1)) (dims.map Prod.snd) = (dims.map Prod.fst).prod
  | [], _, _ => rfl
  | (d, s) :: inner, h, hpos => by
      have hinner := Dense.last_place h.2 fun dim hdim => hpos dim (List.mem_cons_of_mem _ hdim)
      have hd : 0 < d := hpos _ List.mem_cons_self
      have hstep : (d - 1) * s + (inner.map Prod.fst).prod = d * (inner.map Prod.fst).prod := by
        rcases h.1 with rfl | rfl
        · rw [Nat.sub_self, Nat.zero_mul, Nat.zero_add, Nat.one_mul]
        · rw [← Nat.succ_mul, Nat.succ_eq_add_one, Nat.sub_add_cancel hd]
      calc 1 + ((d - 1) * s + placeOf ((inner.map Prod.fst).map (· - 1)) (inner.map Prod.snd))
          = (d - 1) * s + (inner.map Prod.fst).prod := by rw [Nat.add_left_comm, hinner]
        _ = d * (inner.map Prod.fst).prod := hstep
        _ = ((d :: inner.map Prod.fst)).prod := List.prod_cons.symm

theorem Dense.place_outer {inner : List (Nat × Nat)} : ∀ {outer : List (Nat × Nat)},
    Dense (outer ++ inner) → ∀ b,
      placeOf (coordinates (outer.map Prod.fst) b) (outer.map Prod.snd) =
        b % (outer.map Prod.fst).prod * (inner.map Prod.fst).prod
  | [], _, b => by
      rw [List.map_nil, List.prod_nil, Nat.mod_one, Nat.zero_mul]
      rfl
  | (d, s) :: outer, h, b => by
      obtain ⟨hstride, hrest⟩ : (d = 1 ∨ s = ((outer ++ inner).map Prod.fst).prod) ∧
        Dense (outer ++ inner) := h
      rw [List.map_append, List.prod_append_nat] at hstride
      have hfirst : b / (outer.map Prod.fst).prod % d * s = (outer.map Prod.fst).prod *
          (b / (outer.map Prod.fst).prod % d) * (inner.map Prod.fst).prod := by
        rcases hstride with rfl | rfl
        · rw [Nat.mod_one, Nat.zero_mul, Nat.mul_zero, Nat.zero_mul]
        · rw [← Nat.mul_assoc, Nat.mul_comm (_ % d)]
      rw [List.map_cons, List.map_cons, coordinates, placeOf, Dense.place_outer hrest b, hfirst,
        ← Nat.add_mul, List.prod_cons, Nat.mul_comm d, Nat.mod_mul, Nat.add_comm]

/-- A dense tensor needs as many elements as it has. -/
theorem requiredLength?_of_dense {len : Nat} (h : layout.isRowContiguous = true)
    (hlen : layout.requiredLength? = .ok len) : len = layout.size := by
  rw [size, extentProduct_eq_prod]
  by_cases hzero : 0 ∈ layout.shape
  · rw [requiredLength?_of_zero hzero] at hlen
    cases hlen
    exact (List.prod_eq_zero_iff.mpr hzero).symm
  · have hpos := pos_of_zero_not_mem hzero
    have hlast := (isRowContiguous_iff.mp h).last_place fun dim hdim =>
      hpos dim.1 (List.of_mem_zip hdim).1
    rw [map_fst_dimensions, map_snd_dimensions] at hlast
    exact (requiredLength?_eq_ok hpos hlen).2.1.trans hlast

/-! ## Trailing matrices -/

theorem isMatrixContiguous_of_dimensions {outer : List (Nat × Nat)} {r rs c cs : Nat}
    (h : layout.dimensions = outer ++ [(r, rs), (c, cs)]) :
    layout.isMatrixContiguous = true ↔ (c = 1 ∨ cs = 1) ∧ (r = 1 ∨ rs = c) := by
  have hreverse : layout.dimensions.reverse = (c, cs) :: (r, rs) :: outer.reverse := by
    rw [h, List.reverse_append]
    rfl
  rw [isMatrixContiguous, hreverse]
  simp only [Bool.and_eq_true, Bool.or_eq_true, decide_eq_true_iff]

theorem isMatrixContiguous_of_dense (h : layout.isRowContiguous = true) :
    layout.isMatrixContiguous = true := by
  rw [isRowContiguous] at h
  rw [isMatrixContiguous]
  split
  · rfl
  · next c cs hdims =>
      rw [hdims] at h
      simpa only [denseInward, Bool.and_true] using h
  · next c cs r rs outer hdims =>
      rw [hdims] at h
      simp only [denseInward, Bool.and_eq_true, Bool.or_eq_true, decide_eq_true_iff, Nat.one_mul]
        at h ⊢
      exact ⟨h.1, h.2.1⟩

/-! ## The dense layout of a shape -/

/-- A count that is an address is not held. -/
theorem heldCount_eq_prod : ∀ {shape : List Nat},
    (∀ inner ∈ shape.tails, inner.prod < addressLimit) → heldCount shape = shape.prod
  | [], _ => rfl
  | d :: inner, h => by
      rw [List.tails_cons, List.forall_mem_cons] at h
      have hinner := heldCount_eq_prod h.2
      have hcount : inner.prod * d < addressLimit := by
        rw [Nat.mul_comm, ← List.prod_cons]
        exact h.1
      show min (heldCount inner * d) (addressLimit - 1) = (d :: inner).prod
      rw [hinner, Nat.min_eq_left (Nat.le_sub_one_of_lt hcount), List.prod_cons, Nat.mul_comm]

theorem dense_rowMajorStrides : ∀ {shape : List Nat},
    (∀ inner ∈ shape.tails, inner.prod < addressLimit) → Dense (shape.zip (rowMajorStrides shape))
  | [], _ => trivial
  | d :: inner, h => by
      rw [List.tails_cons, List.forall_mem_cons] at h
      have hfst : (inner.zip (rowMajorStrides inner)).map Prod.fst = inner :=
        List.map_fst_zip (Nat.le_of_eq (length_rowMajorStrides inner).symm)
      have hstride : heldCount inner = ((inner.zip (rowMajorStrides inner)).map Prod.fst).prod := by
        rw [hfst, heldCount_eq_prod h.2]
      exact ⟨.inr hstride, dense_rowMajorStrides h.2⟩

theorem isRowContiguous_contiguous {shape : List Nat}
    (h : ∀ inner ∈ shape.tails, inner.prod < addressLimit) :
    (contiguous shape).isRowContiguous = true :=
  isRowContiguous_iff.mpr (dense_rowMajorStrides h)

theorem rowMajorStrides_append (inner : List Nat) : ∀ outer : List Nat,
    ∃ strides, strides.length = outer.length ∧
      rowMajorStrides (outer ++ inner) = strides ++ rowMajorStrides inner
  | [] => ⟨[], rfl, rfl⟩
  | d :: outer => by
      obtain ⟨strides, hlength, hstrides⟩ := rowMajorStrides_append inner outer
      refine ⟨heldCount (outer ++ inner) :: strides, congrArg (· + 1) hlength, ?_⟩
      rw [List.cons_append, rowMajorStrides, hstrides, List.cons_append]

theorem isMatrixContiguous_contiguous (batch : List Nat) (rows : Nat) {cols : Nat}
    (hcols : cols < addressLimit) :
    (contiguous (batch ++ [rows, cols])).isMatrixContiguous = true := by
  have hrow : heldCount [cols] = cols := by
    show min (1 * cols) (addressLimit - 1) = cols
    rw [Nat.one_mul]
    exact Nat.min_eq_left (Nat.le_sub_one_of_lt hcols)
  obtain ⟨strides, hlength, hstrides⟩ := rowMajorStrides_append [rows, cols] batch
  have hdimensions : (contiguous (batch ++ [rows, cols])).dimensions =
      batch.zip strides ++ [(rows, heldCount [cols]), (cols, 1)] := by
    show (batch ++ [rows, cols]).zip (rowMajorStrides (batch ++ [rows, cols])) = _
    rw [hstrides, List.zip_append hlength.symm]
    rfl
  rw [isMatrixContiguous_of_dimensions hdimensions]
  exact ⟨.inr rfl, .inr hrow⟩

theorem prod_lt_of_mem_tails {shape : List Nat} (hpos : ∀ d ∈ shape, 0 < d)
    (h : shape.prod < addressLimit) : ∀ inner ∈ shape.tails, inner.prod < addressLimit := by
  intro inner hinner
  obtain ⟨outer, rfl⟩ := (List.mem_tails inner shape).mp hinner
  have houter : 0 < outer.prod := List.prod_pos_iff_forall_pos_nat.mpr fun d hd =>
    hpos d (List.mem_append_left inner hd)
  rw [List.prod_append_nat] at h
  exact Nat.lt_of_le_of_lt (Nat.le_mul_of_pos_left _ houter) h

theorem requiredLength?_contiguous {shape : List Nat} (h : 0 ∈ shape ∨ shape.prod < addressLimit) :
    (contiguous shape).requiredLength? = .ok (extentProduct shape) := by
  rw [extentProduct_eq_prod]
  by_cases hzero : 0 ∈ shape
  · rw [List.prod_eq_zero_iff.mpr hzero]
    exact requiredLength?_of_zero hzero
  · have hprod := h.resolve_left hzero
    have hpos := pos_of_zero_not_mem hzero
    have hbehind := prod_lt_of_mem_tails hpos hprod
    have hlast : 1 + placeOf (shape.map (· - 1)) (rowMajorStrides shape) = shape.prod := by
      have hdense := (dense_rowMajorStrides hbehind).last_place fun dim hdim =>
        hpos dim.1 (List.of_mem_zip hdim).1
      have hlength := length_rowMajorStrides shape
      rwa [List.map_fst_zip (Nat.le_of_eq hlength.symm), List.map_snd_zip (Nat.le_of_eq hlength)]
        at hdense
    have hlength : (contiguous shape).requiredLength? = _ :=
      requiredLength?_of_lt hpos hprod (Nat.lt_of_le_of_lt (Nat.le_of_eq hlast) hprod)
    exact hlength.trans (congrArg Except.ok hlast)

end Layout

/-! ## Dense views -/

theorem View.contiguous_eq_ok {buffer : Buffer} {shape : List Nat} {view : View}
    (h : View.contiguous buffer shape = .ok view) :
    view.buffer = buffer ∧ view.layout = .contiguous shape := by
  unfold View.contiguous View.ofLayout at h
  split at h
  · cases h
  · split at h
    · cases h
      exact ⟨rfl, rfl⟩
    · cases h

theorem View.size_le_of_dense {view : View} (h : view.layout.isRowContiguous = true) :
    view.layout.size ≤ view.buffer.length := by
  obtain ⟨len, hlen, hle⟩ := view.covered
  rwa [Layout.requiredLength?_of_dense h hlen] at hle

theorem View.exists_contiguous (buffer : Buffer) {shape : List Nat}
    (h : 0 ∈ shape ∨ shape.prod < addressLimit) (hroom : extentProduct shape ≤ buffer.length) :
    ∃ view, View.contiguous buffer shape = .ok view :=
  ⟨_, View.ofLayout_eq_ok (Layout.requiredLength?_contiguous h) hroom⟩

end SubByte
