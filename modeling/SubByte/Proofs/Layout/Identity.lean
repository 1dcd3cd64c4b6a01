/-
# Identity — elements that lie at their own number

A layout is row contiguous exactly when every element lies at its own number
(`isRowContiguous_iff_identity`).  Read from the outermost dimension, the check says that
each stride is the number of elements behind its dimension; the element that it looks at
there is the first one behind those, at coordinate one of the dimension and zero of all
inner ones (`dense_iff_place`).  A dimension of one element has no such element, and its
stride is never looked at.
-/
import SubByte.Proofs.Layout.Dense
import SubByte.Proofs.Layout.Reach

namespace SubByte

namespace Layout

/-! ## Places of a dense tensor -/

theorem Dense.place {dims : List (Nat × Nat)} (h : Dense dims) {e : Nat}
    (he : e < (dims.map Prod.fst).prod) :
    placeOf (coordinates (dims.map Prod.fst) e) (dims.map Prod.snd) = e := by
  have hblocks : Dense (dims ++ []) := by rwa [List.append_nil]
  have hplace := hblocks.place_outer e
  rwa [List.map_nil, List.prod_nil, Nat.mul_one, Nat.mod_eq_of_lt he] at hplace

/-- Each stride counts the elements behind its dimension exactly when each element lies at
its own number. -/
theorem dense_iff_place : ∀ {dims : List (Nat × Nat)}, (∀ dim ∈ dims, 0 < dim.1) →
    (Dense dims ↔ ∀ e < (dims.map Prod.fst).prod,
      placeOf (coordinates (dims.map Prod.fst) e) (dims.map Prod.snd) = e)
  | [], _ => ⟨fun h _ he => h.place he, fun _ => trivial⟩
  | (d, s) :: inner, hpos => by
      refine ⟨fun h _ he => h.place he, fun h => ?_⟩
      have hinner : ∀ dim ∈ inner, 0 < dim.1 :=
        fun dim hdim => hpos dim (List.mem_cons_of_mem _ hdim)
      have hd : 0 < d := hpos _ List.mem_cons_self
      have hcount : 0 < (inner.map Prod.fst).prod := by
        refine List.prod_pos_iff_forall_pos_nat.mpr fun c hc => ?_
        obtain ⟨dim, hdim, rfl⟩ := List.mem_map.mp hc
        exact hinner dim hdim
      have hplace : ∀ e < d * (inner.map Prod.fst).prod,
          e / (inner.map Prod.fst).prod % d * s +
            placeOf (coordinates (inner.map Prod.fst) e) (inner.map Prod.snd) = e := by
        intro e he
        rw [← List.prod_cons] at he
        exact h e he
      -- The elements at coordinate zero of the dimension are those of the inner tensor.
      have hrest : ∀ e < (inner.map Prod.fst).prod,
          placeOf (coordinates (inner.map Prod.fst) e) (inner.map Prod.snd) = e := by
        intro e he
        have hfirst := hplace e (Nat.lt_of_lt_of_le he (Nat.le_mul_of_pos_left _ hd))
        rwa [Nat.div_eq_of_lt he, Nat.zero_mod, Nat.zero_mul, Nat.zero_add] at hfirst
      refine ⟨or_iff_not_imp_left.mpr fun hone => ?_, (dense_iff_place hinner).mpr hrest⟩
      -- The first element at coordinate one is as far on as the stride says.
      have hlt : 1 < d := by omega
      have hnext := Nat.mul_lt_mul_of_pos_right hlt hcount
      rw [Nat.one_mul] at hnext
      have hround := coordinates_mul_add (inner.map Prod.fst) 1 0
      rw [Nat.one_mul, Nat.add_zero] at hround
      have hsecond := hplace _ hnext
      rwa [Nat.div_self hcount, Nat.mod_eq_of_lt hlt, Nat.one_mul, hround, hrest 0 hcount,
        Nat.add_zero] at hsecond

variable {layout : Layout}

/-- A layout with elements is row contiguous exactly when each of them lies at its own number. -/
theorem isRowContiguous_iff_identity (hpos : ∀ d ∈ layout.shape, 0 < d) :
    layout.isRowContiguous = true ↔ ∀ e < layout.size, layout.location e = .ok e := by
  have hdims : ∀ dim ∈ layout.dimensions, 0 < dim.1 := fun dim hdim =>
    hpos dim.1 (List.of_mem_zip hdim).1
  rw [isRowContiguous_iff, dense_iff_place hdims, map_fst_dimensions, map_snd_dimensions, size,
    extentProduct_eq_prod]
  refine forall₂_congr fun e _ => ?_
  rw [location, locate_eq_ok e layout.rank_eq hpos, Except.ok.injEq]

end Layout

end SubByte
