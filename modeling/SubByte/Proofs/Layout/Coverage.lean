/-
# Coverage — a buffer of the required length holds every element

The required length is one more than the place of the last coordinates, and no
coordinates inside the shape have a later place (`place_lt_required`).  Where it is
found at all the number of elements is an address as well, so every extent and every
partial product of extents is one: `covered_prod_lt` is what the products need to form
their sizes.
-/
import SubByte.Proofs.Layout.Coordinates
import SubByte.Tensor.View

namespace SubByte

/-! ## Bounded sizes -/

theorem addressed_eq_some_iff {n p : Nat} : addressed n = some p ↔ p = n ∧ n < addressLimit := by
  simp only [addressed]
  split
  · next h =>
      constructor
      · intro heq
        cases heq
        exact ⟨rfl, h⟩
      · rintro ⟨rfl, _⟩
        rfl
  · next h =>
      constructor
      · intro heq
        cases heq
      · rintro ⟨_, hlt⟩
        exact absurd hlt h

theorem boundedProduct_eq_some : ∀ {extents : List Nat} {count p : Nat}, count < addressLimit →
    boundedProduct count extents = some p → p = count * extents.prod ∧ p < addressLimit
  | [], count, p, hcount, h => by
      cases h
      exact ⟨(Nat.mul_one count).symm, hcount⟩
  | d :: extents, count, p, _, h => by
      rw [boundedProduct, List.foldlM_cons] at h
      obtain ⟨next, hnext, hrest⟩ := Option.bind_eq_some_iff.mp h
      obtain ⟨rfl, hlt⟩ := addressed_eq_some_iff.mp hnext
      obtain ⟨hp, hlimit⟩ := boundedProduct_eq_some hlt hrest
      exact ⟨by rw [hp, List.prod_cons, Nat.mul_assoc], hlimit⟩

theorem boundedSpan_eq_some : ∀ {shape strides : List Nat} {acc len : Nat}, acc < addressLimit →
    (shape.zip strides).foldlM (fun acc dim => do
      let span ← addressed ((dim.1 - 1) * dim.2)
      addressed (span + acc)) acc = some len →
    len = acc + placeOf (shape.map (· - 1)) strides ∧ len < addressLimit
  | [], strides, acc, len, hacc, h => by
      cases h
      exact ⟨rfl, hacc⟩
  | d :: shape, [], acc, len, hacc, h => by
      cases h
      exact ⟨rfl, hacc⟩
  | d :: shape, s :: strides, acc, len, _, h => by
      rw [List.zip_cons_cons, List.foldlM_cons] at h
      obtain ⟨next, hnext, hrest⟩ := Option.bind_eq_some_iff.mp h
      obtain ⟨span, hspan, hsum⟩ := Option.bind_eq_some_iff.mp hnext
      obtain ⟨rfl, _⟩ := addressed_eq_some_iff.mp hspan
      obtain ⟨rfl, hlt⟩ := addressed_eq_some_iff.mp hsum
      obtain ⟨hlen, hlimit⟩ := boundedSpan_eq_some hlt hrest
      refine ⟨?_, hlimit⟩
      rw [hlen, List.map_cons, placeOf, ← Nat.add_assoc, Nat.add_comm acc]

theorem boundedProduct_of_lt : ∀ {extents : List Nat} {count : Nat}, (∀ d ∈ extents, 0 < d) →
    count * extents.prod < addressLimit → boundedProduct count extents = some (count * extents.prod)
  | [], count, _, _ => by
      rw [List.prod_nil, Nat.mul_one]
      rfl
  | d :: extents, count, hpos, h => by
      have hrest : 0 < extents.prod := List.prod_pos_iff_forall_pos_nat.mpr fun e he =>
        hpos e (List.mem_cons_of_mem d he)
      rw [List.prod_cons, ← Nat.mul_assoc] at h ⊢
      have hnext := Nat.lt_of_le_of_lt (Nat.le_mul_of_pos_right (count * d) hrest) h
      rw [boundedProduct, List.foldlM_cons, addressed_eq_some_iff.mpr ⟨rfl, hnext⟩]
      exact boundedProduct_of_lt (fun e he => hpos e (List.mem_cons_of_mem d he)) h

theorem boundedSpan_of_lt : ∀ {shape strides : List Nat} {acc : Nat},
    acc + placeOf (shape.map (· - 1)) strides < addressLimit →
    (shape.zip strides).foldlM (fun acc dim => do
      let span ← addressed ((dim.1 - 1) * dim.2)
      addressed (span + acc)) acc = some (acc + placeOf (shape.map (· - 1)) strides)
  | [], _, _, _ => rfl
  | _ :: _, [], _, _ => rfl
  | d :: shape, s :: strides, acc, h => by
      rw [List.map_cons, placeOf, ← Nat.add_assoc, Nat.add_comm acc] at h ⊢
      have hspan : addressed ((d - 1) * s) = some ((d - 1) * s) :=
        addressed_eq_some_iff.mpr ⟨rfl, by omega⟩
      have hsum : addressed ((d - 1) * s + acc) = some ((d - 1) * s + acc) :=
        addressed_eq_some_iff.mpr ⟨rfl, by omega⟩
      rw [List.zip_cons_cons, List.foldlM_cons]
      simp only [hspan, Option.bind_eq_bind, Option.bind_some, hsum]
      exact boundedSpan_of_lt h

/-! ## Places -/

theorem placeOf_le : ∀ {low high : List Nat} (strides : List Nat), List.Forall₂ (· ≤ ·) low high →
    placeOf low strides ≤ placeOf high strides
  | [], [], _, .nil => Nat.le_refl _
  | _ :: _, _ :: _, [], .cons _ _ => Nat.le_refl _
  | _ :: _, _ :: _, s :: strides, .cons h hrest =>
      Nat.add_le_add (Nat.mul_le_mul_right s h) (placeOf_le strides hrest)

theorem Within.le_last {coords shape : List Nat} (h : Within coords shape) :
    List.Forall₂ (· ≤ ·) coords (shape.map (· - 1)) := by
  rw [List.forall₂_map_right_iff]
  exact List.Forall₂.imp (fun _ _ hlt => Nat.le_sub_one_of_lt hlt) h

theorem pos_of_zero_not_mem {shape : List Nat} (h : 0 ∉ shape) : ∀ d ∈ shape, 0 < d := by
  intro d hd
  refine Nat.pos_of_ne_zero ?_
  rintro rfl
  exact h hd

theorem Within.pos : ∀ {coords shape : List Nat}, Within coords shape → ∀ d ∈ shape, 0 < d
  | _, _, .nil, _, hd => nomatch hd
  | _, _, .cons h hrest, d, hd => by
      rcases List.mem_cons.mp hd with rfl | hd
      · exact Nat.zero_lt_of_lt h
      · exact Within.pos hrest d hd

namespace Layout

variable {layout : Layout} {len : Nat}

theorem requiredLength?_eq_ok (hpos : ∀ d ∈ layout.shape, 0 < d)
    (h : layout.requiredLength? = .ok len) :
    layout.shape.prod < addressLimit ∧
      len = 1 + placeOf (layout.shape.map (· - 1)) layout.strides ∧ len < addressLimit := by
  have hnone : ¬ (layout.shape.any fun d => d = 0) = true := by
    rw [List.any_eq_true]
    rintro ⟨d, hd, hzero⟩
    exact Nat.ne_of_gt (hpos d hd) (of_decide_eq_true hzero)
  rw [requiredLength?, if_neg hnone] at h
  cases hproduct : boundedProduct 1 layout.shape with
  | none =>
      rw [hproduct, Option.isNone_none, if_pos rfl] at h
      cases h
  | some count =>
      obtain ⟨hcount, hlimit⟩ := boundedProduct_eq_some (by decide) hproduct
      rw [Nat.one_mul] at hcount
      cases hspan : boundedSpan layout.dimensions with
      | none =>
          rw [hproduct, hspan] at h
          cases h
      | some span =>
          rw [hproduct, hspan] at h
          cases h
          exact ⟨hcount ▸ hlimit, boundedSpan_eq_some (by decide) hspan⟩

theorem requiredLength?_of_lt (hpos : ∀ d ∈ layout.shape, 0 < d)
    (hprod : layout.shape.prod < addressLimit)
    (hplace : 1 + placeOf (layout.shape.map (· - 1)) layout.strides < addressLimit) :
    layout.requiredLength? = .ok (1 + placeOf (layout.shape.map (· - 1)) layout.strides) := by
  have hnone : ¬ (layout.shape.any fun d => d = 0) = true := by
    rw [List.any_eq_true]
    rintro ⟨d, hd, hzero⟩
    exact Nat.ne_of_gt (hpos d hd) (of_decide_eq_true hzero)
  have hproduct : boundedProduct 1 layout.shape = _ :=
    boundedProduct_of_lt hpos (by rwa [Nat.one_mul])
  have hspan : boundedSpan layout.dimensions = _ := boundedSpan_of_lt hplace
  rw [requiredLength?, if_neg hnone, hproduct, hspan]
  rfl

theorem requiredLength?_of_zero (h : 0 ∈ layout.shape) : layout.requiredLength? = .ok 0 :=
  if_pos (List.any_eq_true.mpr ⟨0, h, rfl⟩)

theorem requiredLength?_lt (h : layout.requiredLength? = .ok len) : len < addressLimit := by
  by_cases hzero : 0 ∈ layout.shape
  · rw [requiredLength?_of_zero hzero] at h
    cases h
    decide
  · exact (requiredLength?_eq_ok (pos_of_zero_not_mem hzero) h).2.2

/-- No coordinates inside the shape lead behind the required length. -/
theorem place_lt_required {coords : List Nat} (h : layout.requiredLength? = .ok len)
    (hcoords : Within coords layout.shape) : placeOf coords layout.strides < len := by
  obtain ⟨-, hlen, -⟩ := requiredLength?_eq_ok hcoords.pos h
  have hlast := placeOf_le layout.strides hcoords.le_last
  omega

end Layout

namespace View

theorem place_lt_length (view : View) {coords : List Nat} (h : Within coords view.layout.shape) :
    placeOf coords view.layout.strides < view.buffer.length := by
  obtain ⟨len, hlen, hle⟩ := view.covered
  exact Nat.lt_of_lt_of_le (Layout.place_lt_required hlen h) hle

/-- A view with elements does not have more of them than an address can count. -/
theorem covered_prod_lt (view : View) (hpos : ∀ d ∈ view.layout.shape, 0 < d) :
    view.layout.shape.prod < addressLimit := by
  obtain ⟨len, hlen, -⟩ := view.covered
  exact (Layout.requiredLength?_eq_ok hpos hlen).1

end View

end SubByte
