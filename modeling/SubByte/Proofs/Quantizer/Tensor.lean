/-
# Quantized tensors — what is stored of a view

A view can be quantized when it holds floats, lies densely, and ends in rows of whole
groups (`View.Quantizable`); nothing else is asked for, and nothing behind the checks can
fail (`Weights.ofView_eq_ok`).  What is stored are its first elements, as many as its shape
has, quantized as a list.

Rows of whole groups make the parts as long as their shapes say (`encoding_lengths`), so
all three are seen in dense views of these shapes.  A tensor without elements is stored as
three empty lists, and is seen in shapes that have an extent of zero in the same place.
-/
import SubByte.Proofs.Layout.Dense
import SubByte.Proofs.Quantizer.Encoded
import SubByte.Proofs.Quantizer.Expanded
import SubByte.Proofs.Product.Settled
import SubByte.Quantizer.Weights

namespace SubByte

theorem withLast_concat (last : Nat) (inner : Nat) : ∀ front : List Nat,
    withLast (front ++ [inner]) last = front ++ [last]
  | [] => rfl
  | [_] => rfl
  | d :: e :: front => by
      have hrest := withLast_concat last inner (e :: front)
      rw [List.cons_append, List.cons_append, withLast, ← List.cons_append, hrest]
      rfl

/-! ## Tensors -/

/-- A dense tensor of floats, with rows of whole groups. -/
structure View.Quantizable (view : View) (config : Config) (floats : FloatBuffer)
    (front : List Nat) (inner : Nat) : Prop where
  floats : view.buffer = floats.toBuffer
  shape : view.shape = front ++ [inner]
  groups : inner % config.group.size = 0
  dense : view.layout.isRowContiguous = true

namespace View

variable {view : View} {config : Config} {floats : FloatBuffer} {front : List Nat} {inner : Nat}

theorem Quantizable.room (h : view.Quantizable config floats front inner) :
    extentProduct view.shape ≤ floats.data.length := by
  obtain ⟨len, hlen, hle⟩ := view.covered
  rw [h.floats, Layout.requiredLength?_of_dense h.dense hlen] at hle
  exact hle

theorem Quantizable.size (h : view.Quantizable config floats front inner) :
    extentProduct view.shape = front.prod * inner := by
  rw [h.shape, extentProduct_eq_prod, List.prod_append_nat, List.prod_cons, List.prod_nil,
    Nat.mul_one]

theorem Quantizable.wholeGroups (h : view.Quantizable config floats front inner) :
    extentProduct view.shape % config.group.size = 0 := by
  rw [h.size]
  exact Nat.mod_eq_zero_of_dvd (Dvd.dvd.mul_left (Nat.dvd_of_mod_eq_zero h.groups) front.prod)

end View

namespace Weights

/-- The first elements of a buffer, as many as a shape has, as they are stored. -/
def encoding (config : Config) (floats : FloatBuffer) (shape : List Nat) : Weights :=
  let encoded := config.encoded (floats.data.take (extentProduct shape))
  { packed := Packing.wordsOfBytes encoded.packed
    scales := ⟨floats.type, encoded.scales⟩
    biases := ⟨floats.type, encoded.biases⟩
    shape := shape
    config := config }

variable {view : View} {config : Config} {floats : FloatBuffer} {front : List Nat}
  {inner bits groupSize : Nat} {q : Weights}

/-- A tensor that can be quantized is. -/
theorem ofView_eq_ok (hconfig : Config.ofParameters bits groupSize = .ok config)
    (h : view.Quantizable config floats front inner) :
    ofView view bits groupSize = .ok (encoding config floats view.shape) := by
  have hfloats : requireFloats view = .ok floats := by
    rw [requireFloats, h.floats]
    rfl
  have hlast : requireLast view.shape = .ok inner := by
    rw [requireLast, h.shape, List.getLast?_concat]
  have hdense : requireDense .w view = .ok () := if_pos h.dense
  have hslice : slice floats.data 0 view.layout.size =
      .ok (floats.data.take (extentProduct view.shape)) := by
    have hend : 0 + extentProduct view.shape ≤ floats.data.length := by
      rw [Nat.zero_add]
      exact h.room
    have hstretch := slice_eq_ok hend
    rwa [List.drop_zero] at hstretch
  have hlength : (floats.data.take (extentProduct view.shape)).length =
      extentProduct view.shape := by
    rw [List.length_take, Nat.min_eq_left h.room]
  have hstored : config.quantize (floats.data.take (extentProduct view.shape)) = .ok _ :=
    Config.quantize_eq_ok (by rw [hlength]; exact h.wholeGroups)
  simp only [ofView, hconfig, Checked.ofExcept_ok, ok_bind, hfloats, hlast,
    requireWholeGroups_eq_ok _ h.groups, Checked.ofShape_ok, hdense, hslice, Checked.ofFault_ok,
    hstored]
  rfl

theorem exists_quantizable (h : ofView view bits groupSize = .ok q) :
    ∃ config floats front inner, Config.ofParameters bits groupSize = .ok config ∧
      view.Quantizable config floats front inner ∧ q = encoding config floats view.shape := by
  have hreturned := h
  obtain ⟨config, hconfig, h⟩ := bind_eq_ok.mp h
  obtain ⟨floats, hfloats, h⟩ := bind_eq_ok.mp h
  obtain ⟨inner, hlast, h⟩ := bind_eq_ok.mp h
  obtain ⟨_, hgroups, h⟩ := bind_eq_ok.mp h
  obtain ⟨_, hdense, -⟩ := bind_eq_ok.mp h
  have hconfig := Checked.ofExcept_eq_ok.mp hconfig
  have hbuffer : view.buffer = floats.toBuffer := by
    simp only [requireFloats, Buffer.floats?] at hfloats
    split at hfloats
    · next found hfound =>
        split at hfound
        · next heq =>
            cases hfound
            cases hfloats
            exact heq
        · cases hfound
    · cases hfloats
  have hshape : ∃ front, view.shape = front ++ [inner] := by
    simp only [requireLast] at hlast
    split at hlast
    · next hfound =>
        cases hlast
        exact List.getLast?_eq_some_iff.mp hfound
    · cases hlast
  obtain ⟨front, hshape⟩ := hshape
  have hquantizable : view.Quantizable config floats front inner :=
    { floats := hbuffer
      shape := hshape
      groups := Dims.requireWholeGroups_mod (Checked.ofShape_eq_ok.mp hgroups)
      dense := Checked.of_check hdense }
  rw [ofView_eq_ok hconfig hquantizable] at hreturned
  cases hreturned
  exact ⟨config, floats, front, inner, hconfig, hquantizable, rfl⟩

/-! ## Parts -/

theorem encoding_shapes (h : view.Quantizable config floats front inner) :
    (encoding config floats view.shape).packedShape = front ++ [config.wordsOf inner] ∧
      (encoding config floats view.shape).groupShape =
        front ++ [inner / config.group.size] := by
  have hinner : (encoding config floats view.shape).inner = inner := by
    show view.shape.getLast?.getD 0 = inner
    rw [h.shape, List.getLast?_concat]
    rfl
  constructor
  · rw [packedShape, hinner]
    show withLast view.shape (config.wordsOf inner) = _
    rw [h.shape, withLast_concat]
  · rw [groupShape, hinner]
    show withLast view.shape (inner / config.group.size) = _
    rw [h.shape, withLast_concat]

/-- Each part is as long as its shape says. -/
theorem encoding_lengths (h : view.Quantizable config floats front inner) :
    (encoding config floats view.shape).packed.length = front.prod * config.wordsOf inner ∧
      (encoding config floats view.shape).scales.data.length =
        front.prod * (inner / config.group.size) ∧
      (encoding config floats view.shape).biases.data.length =
        front.prod * (inner / config.group.size) := by
  have hlength : (floats.data.take (extentProduct view.shape)).length = front.prod * inner := by
    rw [List.length_take, Nat.min_eq_left h.room, h.size]
  have hwhole := h.wholeGroups
  rw [h.size, ← hlength] at hwhole
  have hgroups : front.prod * inner / config.group.size =
      front.prod * (inner / config.group.size) :=
    Nat.mul_div_assoc _ (Nat.dvd_of_mod_eq_zero h.groups)
  obtain ⟨hscales, hbiases⟩ := config.length_encoded_parameters
    (floats.data.take (extentProduct view.shape))
  rw [hlength, hgroups] at hscales hbiases
  refine ⟨?_, hscales, hbiases⟩
  have hbytes := (config.wordsOf_whole hwhole).1
  rw [← Config.length_encoded_packed, hlength, config.wordsOf_mul h.groups] at hbytes
  exact (Packing.wordsOfBytes_whole hbytes.symm).1

/-! ## Views -/

/-- Dense views of the three parts in their shapes. -/
structure Seen (q : Weights) (views : WeightViews) : Prop where
  packed : View.contiguous ⟨.u32, q.packed⟩ q.packedShape = .ok views.packed
  scales : View.contiguous q.scales.toBuffer q.groupShape = .ok views.scales
  biases : View.contiguous q.biases.toBuffer q.groupShape = .ok views.biases

theorem seen_of_views {views : WeightViews} (h : q.views = .ok views) : q.Seen views := by
  obtain ⟨packed, hpacked, h⟩ := bind_eq_ok.mp h
  obtain ⟨scales, hscales, h⟩ := bind_eq_ok.mp h
  obtain ⟨biases, hbiases, h⟩ := bind_eq_ok.mp h
  cases h
  exact ⟨hpacked, hscales, hbiases⟩

theorem countable_of_le {last : Nat} (h : view.shape = front ++ [inner]) (hle : last ≤ inner) :
    0 ∈ front ++ [last] ∨ (front ++ [last]).prod < addressLimit := by
  by_cases hzero : 0 ∈ front ++ [last]
  · exact .inl hzero
  · right
    have hpos := pos_of_zero_not_mem hzero
    have hviewPos : ∀ d ∈ view.layout.shape, 0 < d := by
      show ∀ d ∈ view.shape, 0 < d
      rw [h]
      intro d hd
      rcases List.mem_append.mp hd with hd | hd
      · exact hpos d (List.mem_append_left _ hd)
      · rw [List.mem_singleton.mp hd]
        exact Nat.lt_of_lt_of_le (hpos last (List.mem_append_right _ List.mem_cons_self)) hle
    have hlimit := view.covered_prod_lt hviewPos
    rw [show view.layout.shape = front ++ [inner] from h, List.prod_append_nat, List.prod_cons,
      List.prod_nil, Nat.mul_one] at hlimit
    rw [List.prod_append_nat, List.prod_cons, List.prod_nil, Nat.mul_one]
    exact Nat.lt_of_le_of_lt (Nat.mul_le_mul_left _ hle) hlimit

theorem exists_views (h : view.Quantizable config floats front inner) :
    ∃ views, (encoding config floats view.shape).views = .ok views := by
  obtain ⟨hpackedShape, hgroupShape⟩ := encoding_shapes h
  obtain ⟨hpackedLength, hscalesLength, hbiasesLength⟩ := encoding_lengths h
  have hprod : ∀ last, extentProduct (front ++ [last]) = front.prod * last := by
    intro last
    rw [extentProduct_eq_prod, List.prod_append_nat, List.prod_cons, List.prod_nil, Nat.mul_one]
  have hpacked := countable_of_le h.shape (config.wordsOf_le h.groups)
  have hgroups := countable_of_le h.shape (Nat.div_le_self inner config.group.size)
  obtain ⟨packed, hpackedView⟩ := View.exists_contiguous
    ⟨.u32, (encoding config floats view.shape).packed⟩ hpacked
    (by rw [hprod]; exact Nat.le_of_eq hpackedLength.symm)
  obtain ⟨scales, hscalesView⟩ := View.exists_contiguous
    (encoding config floats view.shape).scales.toBuffer hgroups
    (by rw [hprod]; exact Nat.le_of_eq hscalesLength.symm)
  obtain ⟨biases, hbiasesView⟩ := View.exists_contiguous
    (encoding config floats view.shape).biases.toBuffer hgroups
    (by rw [hprod]; exact Nat.le_of_eq hbiasesLength.symm)
  refine ⟨⟨packed, scales, biases⟩, ?_⟩
  rw [views, hpackedShape, hgroupShape, hpackedView, ok_bind, hscalesView, ok_bind, hbiasesView,
    ok_bind, pure_eq_ok]

/-! ## Expansion -/

theorem expand_encoding (h : view.Quantizable config floats front inner)
    (x : List (Binary floats.type.format)) :
    let q := encoding config floats view.shape
    q.expand = (do
      Checked.ofFault (requireStorage (extentProduct view.shape) floats.type.format.bytes)
      return FloatBuffer.mk floats.type ((List.range (extentProduct view.shape)).map fun i =>
        (Matrices.weightAt ⟨x, q.packed, q.scales.data, q.biases.data⟩ config i).narrow _)) := by
  intro q
  obtain ⟨hpacked, hscales, hbiases⟩ := encoding_lengths h
  have hsize := h.size
  have hgroups : extentProduct view.shape / config.group.size =
      front.prod * (inner / config.group.size) := by
    rw [hsize]
    exact Nat.mul_div_assoc _ (Nat.dvd_of_mod_eq_zero h.groups)
  have hvalues : config.expand ⟨q.packed, q.scales.data, q.biases.data⟩
      (extentProduct view.shape) = .ok _ :=
    Config.expand_eq_ok h.wholeGroups
      (by rw [hsize, config.wordsOf_mul h.groups]; exact Nat.le_of_eq hpacked.symm)
      (by rw [hgroups]; exact Nat.le_of_eq hscales.symm)
      (by rw [hgroups]; exact Nat.le_of_eq hbiases.symm)
  have hbiasType : q.biases.toBuffer.as? q.dtype = some q.biases.data := Buffer.as?_self _ _
  rw [expand, hbiasType]
  show (do
    Checked.ofFault (requireStorage (extentProduct view.shape) floats.type.format.bytes)
    let values ← config.expand ⟨q.packed, q.scales.data, q.biases.data⟩ (extentProduct view.shape)
    return FloatBuffer.mk floats.type values) = _
  rw [hvalues]
  rfl

end Weights

end SubByte
