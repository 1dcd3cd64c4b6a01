/-
# Shown — what is quantized are the elements that a view shows

A tensor is quantized from the front of its buffer, as many elements as its shape has.
These are the elements that the view shows, in row-major order, because a view is
quantized only when it is row contiguous, and row contiguous is to say that every element
lies at its own number (`Layout.isRowContiguous_iff_identity`).  So strides of dimensions of
one element and what follows in the buffer have no part in what is stored
(`rowContiguous_elements`).
-/
import SubByte.Proofs.Layout.Identity
import SubByte.Proofs.Quantizer.Tensor

namespace SubByte

variable {view other : View} {d : DType} {config : Config} {type : FloatType}
  {bits groupSize : Nat} {q : Weights}

theorem View.elements?_of_dense {data : List d.Elem} (hdata : view.as? d = some data)
    (hdense : view.layout.isRowContiguous = true) :
    view.elements? d = some (data.take view.layout.size) := by
  rcases Nat.eq_zero_or_pos view.layout.size with hzero | hsize
  · rw [elements?, hzero]
    rfl
  · have hroom : 0 + view.layout.size ≤ data.length := by
      rw [Nat.zero_add, Buffer.length_of_as? hdata]
      exact size_le_of_dense hdense
    have hpos := pos_of_lt_extentProduct hsize
    have hstretch := take_drop_eq_map data[0] hroom
    rw [List.drop_zero] at hstretch
    rw [elements?, hstretch]
    refine mapM_eq_some fun e he => ?_
    have he := List.mem_range.mp he
    have hlt : e < data.length := by omega
    have hplace := (Layout.isRowContiguous_iff_identity hpos).mp hdense e he
    rw [Layout.location, locate_eq_ok e view.layout.rank_eq hpos, Except.ok.injEq] at hplace
    have hcoords : Within (coordinates view.shape e) view.shape := coordinates_within e hpos
    rw [element?, hdata, Option.bind_eq_bind, Option.bind_some, if_pos hcoords]
    rw [View.shape, hplace, Nat.zero_add, List.getD_eq_getElem?_getD, List.getElem?_eq_getElem hlt,
      Option.getD_some]

namespace Weights

/-- What is stored of the elements of a view. -/
def storing (config : Config) (type : FloatType) (shape : List Nat)
    (stored : Quantized type.format) : Weights :=
  ⟨stored.packed, ⟨type, stored.scales⟩, ⟨type, stored.biases⟩, shape, config⟩

theorem ofView_eq {floats : FloatBuffer} {front : List Nat} {inner : Nat}
    {elements : List (Binary floats.type.format)}
    (hconfig : Config.ofParameters bits groupSize = .ok config)
    (h : view.Quantizable config floats front inner)
    (helements : view.elements? (.float floats.type) = some elements) :
    ofView view bits groupSize = (do
      let stored ← config.quantize elements
      return storing config floats.type view.shape stored) := by
  have hdata : view.as? (.float floats.type) = some floats.data := by
    rw [View.as?, h.floats]
    exact Buffer.as?_self _ _
  rw [View.elements?_of_dense hdata h.dense] at helements
  cases helements
  have hlength : (floats.data.take view.layout.size).length = extentProduct view.shape := by
    rw [List.length_take]
    exact Nat.min_eq_left h.room
  rw [ofView_eq_ok hconfig h, Config.quantize_eq_ok (by rw [hlength]; exact h.wholeGroups)]
  rfl

/-- A view that has been quantized is stored as its elements are, and so is every other view of
its shape that shows the same elements. -/
theorem ofView_shown (h : ofView view bits groupSize = .ok q) :
    ∃ config type elements stored, Config.ofParameters bits groupSize = .ok config ∧
      view.dtype = .float type ∧ view.elements? (.float type) = some elements ∧
      config.quantize elements = .ok stored ∧ q = storing config type view.shape stored ∧
      ∀ other : View, other.dtype = view.dtype → other.shape = view.shape →
        other.layout.isRowContiguous = true → other.elements? (.float type) = some elements →
        ofView other bits groupSize = .ok q := by
  have hreturned := h
  obtain ⟨config, floats, front, inner, hconfig, hview, -⟩ := exists_quantizable h
  have hdtype : view.dtype = .float floats.type := by
    rw [View.dtype, hview.floats]
    rfl
  obtain ⟨data, hdata⟩ := View.as?_of_dtype hdtype
  have helements := View.elements?_of_dense hdata hview.dense
  rw [ofView_eq hconfig hview helements] at hreturned
  obtain ⟨stored, hstored, hq⟩ := bind_eq_ok.mp hreturned
  cases hq
  refine ⟨config, floats.type, _, stored, hconfig, hdtype, helements, hstored, rfl, ?_⟩
  intro other hother hshape hdense hshown
  obtain ⟨data, hdata⟩ := View.as?_of_dtype (hother.trans hdtype)
  have hquantizable : other.Quantizable config ⟨floats.type, data⟩ front inner :=
    ⟨Buffer.eq_of_as? hdata, hshape.trans hview.shape, hview.groups, hdense⟩
  rw [ofView_eq hconfig hquantizable hshown, hstored, hshape]
  rfl

/-- A layout with elements is row contiguous exactly when each of them lies at its own number,
and then needs a buffer of as many elements as it has.  The dense layout of a shape is row
contiguous when its elements can be counted, those behind each dimension too where an extent is
zero.  So a view that is quantized is stored as the elements that it shows are, whatever else
its buffer holds. -/
theorem rowContiguous_elements :
    (∀ layout : Layout, (∀ d ∈ layout.shape, 0 < d) →
      (layout.isRowContiguous = true ↔ ∀ e < layout.size, layout.location e = .ok e) ∧
      ∀ len, layout.requiredLength? = .ok len → layout.isRowContiguous = true →
        len = layout.size ∧
        ∀ e < layout.size, boundedPlace layout.dimensions.reverse e 0 = some e) ∧
    (∀ shape : List Nat, (∀ d ∈ shape, 0 < d) → extentProduct shape < addressLimit →
      (Layout.contiguous shape).isRowContiguous = true) ∧
    (∀ shape : List Nat, (∀ inner ∈ shape.tails, extentProduct inner < addressLimit) →
      (Layout.contiguous shape).isRowContiguous = true) ∧
    ∀ (view : View) (bits groupSize : Nat),
      ((∃ q, ofView view bits groupSize = .ok q) ↔ ∃ config floats front inner,
        Config.ofParameters bits groupSize = .ok config ∧
        view.Quantizable config floats front inner) ∧
      ∀ q, ofView view bits groupSize = .ok q → ∃ config type elements stored,
        Config.ofParameters bits groupSize = .ok config ∧ view.dtype = .float type ∧
        view.elements? (.float type) = some elements ∧ config.quantize elements = .ok stored ∧
        q = storing config type view.shape stored ∧
        ∀ other : View, other.dtype = view.dtype → other.shape = view.shape →
          other.layout.isRowContiguous = true → other.elements? (.float type) = some elements →
          ofView other bits groupSize = .ok q := by
  refine ⟨fun layout hpos => ⟨Layout.isRowContiguous_iff_identity hpos, fun len hlen hdense => ?_⟩,
    fun shape hpos hcount => ?_, fun shape hcount => ?_,
    fun view bits groupSize => ⟨⟨?_, ?_⟩, fun q h => ofView_shown h⟩⟩
  · have hsize := Layout.requiredLength?_of_dense hdense hlen
    have hlimit := Layout.requiredLength?_lt hlen
    refine ⟨hsize, fun e he => boundedPlace_of_locate ?_ (by omega)⟩
    exact (Layout.isRowContiguous_iff_identity hpos).mp hdense e he
  · rw [extentProduct_eq_prod] at hcount
    exact Layout.isRowContiguous_contiguous (Layout.prod_lt_of_mem_tails hpos hcount)
  · simp only [extentProduct_eq_prod] at hcount
    exact Layout.isRowContiguous_contiguous hcount
  · rintro ⟨q, h⟩
    obtain ⟨config, floats, front, inner, hconfig, hview, -⟩ := exists_quantizable h
    exact ⟨config, floats, front, inner, hconfig, hview⟩
  · rintro ⟨config, floats, front, inner, hconfig, hview⟩
    exact ⟨_, ofView_eq_ok hconfig hview⟩

/-- A row of 32 halves under a dimension of one element that has a stride of 77, with a value
that is no number behind it: it is stored as the row is. -/
theorem rowContiguous_elements_surplus :
    let row : List (Binary .half) := (List.range 32).map (Binary.ofNat .half)
    let view : View := ⟨⟨.float .f16, row ++ [.nan]⟩, ⟨[1, 32], [77, 1], rfl⟩, 32, rfl, by decide⟩
    (∀ e < 32, view.layout.location e = .ok e) ∧
    (Layout.contiguous [2, 1, 3]).isRowContiguous = true ∧
    (Layout.contiguous [3, 0, 5]).isRowContiguous = true ∧
    ∃ stored, Config.quantize ⟨.four, .g32⟩ row = .ok stored ∧
      ofView view 4 32 = .ok (storing ⟨.four, .g32⟩ .f16 [1, 32] stored) := by
  intro row view
  obtain ⟨hlayouts, hshapes, hempty, hviews⟩ := rowContiguous_elements
  obtain ⟨hiff, -⟩ := hlayouts view.layout (by decide)
  obtain ⟨haccepts, hstores⟩ := hviews view 4 32
  refine ⟨hiff.mp rfl, hshapes [2, 1, 3] (by decide) (by decide),
    hempty [3, 0, 5] (by decide), ?_⟩
  have hquantizable : view.Quantizable ⟨.four, .g32⟩
      ⟨.f16, row ++ [(.nan : Binary .half)]⟩ [1] 32 := ⟨rfl, rfl, rfl, rfl⟩
  obtain ⟨q, hq⟩ := haccepts.mpr ⟨_, _, _, _, rfl, hquantizable⟩
  obtain ⟨config, type, elements, stored, hconfig, htype, hshown, hstored, rfl, -⟩ := hstores q hq
  cases hconfig
  cases htype
  have hdata : view.as? (.float .f16) = some (row ++ [.nan]) := rfl
  have hrow : row = elements := by
    rw [View.elements?_of_dense hdata rfl] at hshown
    exact Option.some.inj hshown
  cases hrow
  exact ⟨stored, hstored, hq⟩

end Weights

end SubByte
