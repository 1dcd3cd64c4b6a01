/-
# Prefixes — what a cell of the product reads

A cell reads one row of the activations and the weights of the stored rows, and nothing
else: a product of operands that agree on these is the same, cell for cell, whichever
kernel forms it (`elementAt_shift`).  The rows of the activations may stand elsewhere in
the other operands, a number of rows further on, and then the cells stand as many rows
further on in the other product.

What the weights of the stored rows are made of is a prefix of each packed operand, as long
as the sizes that a product checks (`Matrices.front`); what lies behind it has no part in
any cell (`elementAt_front`).
-/
import SubByte.Proofs.Dense.Affine
import SubByte.Proofs.Product.Whole

namespace SubByte

namespace Matrices

variable {F : Format} {operands operands' : Matrices F} {config config' : Config}

/-! ## Sums of the same terms -/

theorem dotAt_congr {x x' k : Nat} {place place' : Nat → Nat}
    (h : ∀ t < k, operands'.xAt (x' + t) * operands'.weightAt config' (place' t) =
      operands.xAt (x + t) * operands.weightAt config (place t)) :
    operands'.dotAt config' x' place' k = operands.dotAt config x place k := by
  refine List.foldl_ext _ _ _ fun sum t ht => ?_
  rw [h t (List.mem_range.mp ht)]

theorem laneAt_congr {x x' w w' steps l : Nat}
    (h : ∀ s < steps, operands'.xAt (x' + (s * Packing.lanes + l)) *
        operands'.weightAt config' (w' + (s * Packing.lanes + l)) =
      operands.xAt (x + (s * Packing.lanes + l)) *
        operands.weightAt config (w + (s * Packing.lanes + l))) :
    operands'.laneAt config' x' w' steps l = operands.laneAt config x w steps l := by
  refine List.foldl_ext _ _ _ fun sum s hs => ?_
  rw [h s (List.mem_range.mp hs)]

theorem lane_lt {k s l : Nat} (hs : s < k / Packing.lanes) (hl : l < Packing.lanes) :
    s * Packing.lanes + l < k := by
  have hstep := row_end_le hs (Nat.div_mul_le_self k Packing.lanes)
  omega

/-- Operands with the same weights, and with the same activations from row `r` on, have the
same cells from row `r` on. -/
theorem elementAt_shift {dims : Dims} (variant : Variant) (r : Nat)
    (hx : ∀ i < dims.m * dims.k, operands'.xAt i = operands.xAt (r * dims.k + i))
    (hweights : ∀ i < dims.rows variant.isTransposed * dims.inner variant.isTransposed,
      operands'.weightAt config i = operands.weightAt config i)
    {cell : Nat} (hcell : cell < dims.m * dims.n) :
    operands'.elementAt config dims variant cell =
      operands.elementAt config dims variant (r * dims.n + cell) := by
  obtain ⟨hrow, hcol⟩ := Dense.cell_bounds hcell
  have hdiv : (r * dims.n + cell) / dims.n = r + cell / dims.n := by
    rw [Nat.mul_comm, Nat.mul_add_div (Nat.zero_lt_of_lt hcol)]
  have hmod : (r * dims.n + cell) % dims.n = cell % dims.n := Nat.mul_add_mod' r dims.n cell
  have hactivation : ∀ t < dims.k, operands'.xAt (cell / dims.n * dims.k + t) =
      operands.xAt ((r + cell / dims.n) * dims.k + t) := by
    intro t ht
    rw [hx _ (Dense.place_lt hrow ht), Nat.add_mul, Nat.add_assoc]
  -- Each kernel reaches the weights of a column by a place of its own, always among those given.
  cases variant with
  | plain =>
      simp only [elementAt, hdiv, hmod]
      refine dotAt_congr fun t ht => ?_
      have hweight : operands'.weightAt config (t * dims.n + cell % dims.n) = _ :=
        hweights _ (Dense.place_lt ht hcol)
      rw [hactivation t ht, hweight]
  | transposed =>
      simp only [elementAt, hdiv, hmod]
      refine dotAt_congr fun t ht => ?_
      have hweight : operands'.weightAt config (cell % dims.n * dims.k + t) = _ :=
        hweights _ (Dense.place_lt hcol ht)
      rw [hactivation t ht, hweight]
  | lanes =>
      simp only [elementAt, hdiv, hmod]
      refine congrArg Kernel.sumLanes (List.map_congr_left fun l hl => laneAt_congr fun s hs => ?_)
      have hplace := lane_lt hs (List.mem_range.mp hl)
      have hweight : operands'.weightAt config
          (cell % dims.n * dims.k + (s * Packing.lanes + l)) = _ :=
        hweights _ (Dense.place_lt hcol hplace)
      rw [hactivation _ hplace, hweight]

theorem elementAt_congr {dims : Dims} (variant : Variant)
    (hx : ∀ i < dims.m * dims.k, operands'.xAt i = operands.xAt i)
    (hweights : ∀ i < dims.rows variant.isTransposed * dims.inner variant.isTransposed,
      operands'.weightAt config i = operands.weightAt config i)
    {cell : Nat} (hcell : cell < dims.m * dims.n) :
    operands'.elementAt config dims variant cell = operands.elementAt config dims variant cell := by
  have hrows : ∀ i < dims.m * dims.k, operands'.xAt i = operands.xAt (0 * dims.k + i) := by
    intro i hi
    rw [Nat.zero_mul, Nat.zero_add]
    exact hx i hi
  have hshift := elementAt_shift variant 0 hrows hweights hcell
  rwa [Nat.zero_mul, Nat.zero_add] at hshift

/-! ## Operands cut to size -/

variable {dims : Dims} {transposed : Bool}

/-- The part of the operands that a product of the given extents reads. -/
def front (operands : Matrices F) (config : Config) (dims : Dims) (transposed : Bool) :
    Matrices F :=
  let rows := dims.rows transposed
  let inner := dims.inner transposed
  let groups := rows * (inner / config.group.size)
  ⟨operands.x.take (dims.m * dims.k), operands.w.take (rows * config.wordsOf inner),
    operands.scales.take groups, operands.biases.take groups⟩

theorem getD_take {α : Type} {xs : List α} {count i : Nat} (d : α) (h : i < count) :
    (xs.take count).getD i d = xs.getD i d := by
  rw [List.getD_eq_getElem?_getD, List.getD_eq_getElem?_getD, List.getElem?_take_of_lt h]

theorem getD_drop {α : Type} (xs : List α) (start i : Nat) (d : α) :
    (xs.drop start).getD i d = xs.getD (start + i) d := by
  rw [List.getD_eq_getElem?_getD, List.getD_eq_getElem?_getD, List.getElem?_drop]

theorem elementAt_take (operands : Matrices F) (config : Config) (dims : Dims) (variant : Variant)
    {cell : Nat} (hcell : cell < dims.m * dims.n) :
    Matrices.elementAt ⟨operands.x.take (dims.m * dims.k), operands.w, operands.scales,
        operands.biases⟩ config dims variant cell =
      operands.elementAt config dims variant cell := by
  refine elementAt_congr variant (fun i hi => ?_) (fun i _ => ?_) hcell
  · rw [xAt, xAt, getD_take _ hi]
  · rfl

theorem weightAt_front (operands : Matrices F)
    (hgroups : dims.inner transposed % config.group.size = 0) {i : Nat}
    (h : i < dims.rows transposed * dims.inner transposed) :
    (operands.front config dims transposed).weightAt config i = operands.weightAt config i := by
  have hinner := Nat.div_mul_cancel (Nat.dvd_of_mod_eq_zero hgroups)
  have hgroup : i / config.group.size <
      dims.rows transposed * (dims.inner transposed / config.group.size) := by
    rw [Nat.div_lt_iff_lt_mul config.group.size_pos, Nat.mul_assoc, hinner]
    exact h
  have hrows : dims.rows transposed * dims.inner transposed % config.group.size = 0 :=
    Nat.mod_eq_zero_of_dvd (Dvd.dvd.mul_left (Nat.dvd_of_mod_eq_zero hgroups) _)
  have hcode := Packing.codeAt_words (config.wordsOf_whole hrows).2 operands.w 0 h
  rw [config.wordsOf_mul hgroups, Nat.zero_mul, Nat.zero_mul, List.drop_zero, Nat.zero_add] at hcode
  simp only [weightAt, affineAt, front, getD_take _ hgroup, hcode]

/-- A cell does not see what lies behind the part that is read. -/
theorem elementAt_front (operands : Matrices F) (variant : Variant)
    (hgroups : dims.inner variant.isTransposed % config.group.size = 0) {cell : Nat}
    (hcell : cell < dims.m * dims.n) :
    (operands.front config dims variant.isTransposed).elementAt config dims variant cell =
      operands.elementAt config dims variant cell := by
  refine elementAt_congr variant (fun i hi => ?_)
    (fun _ hi => weightAt_front operands hgroups hi) hcell
  rw [xAt, xAt, front, getD_take _ hi]

end Matrices

end SubByte
