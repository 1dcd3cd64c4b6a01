/-
# Coordinates — the elements of a tensor by their place in each dimension

`locate` takes the number of an element apart from the innermost dimension outward.  The
digits it meets are the coordinates of the element (`coordinates`, the outermost first),
and what it adds up is their sum weighted by the strides (`placeOf`).  In this form the
dimensions can be split: the place of an element is that of its batch and its own within
the batch.

No extent may be zero, as a digit to base zero does not exist; a tensor with such an
extent has no elements to ask for.
-/
import Mathlib.Algebra.Group.Nat.Defs
import Mathlib.Data.List.Forall2
import SubByte.Layout.Basic
import SubByte.Proofs.Sequence

namespace SubByte

theorem extentProduct_eq_prod (shape : List Nat) : extentProduct shape = shape.prod :=
  List.prod_eq_foldl_nat.symm

theorem pos_of_lt_extentProduct {shape : List Nat} {e : Nat} (h : e < extentProduct shape) :
    ∀ d ∈ shape, 0 < d := by
  rw [extentProduct_eq_prod] at h
  exact List.prod_pos_iff_forall_pos_nat.mp (Nat.zero_lt_of_lt h)

/-! ## Digits -/

/-- The coordinates of element `e`, the outermost first. -/
def coordinates : List Nat → Nat → List Nat
  | [], _ => []
  | d :: inner, e => e / inner.prod % d :: coordinates inner e

/-- The place of coordinates in a buffer, by strides. -/
def placeOf : List Nat → List Nat → Nat
  | c :: coords, s :: strides => c * s + placeOf coords strides
  | _, _ => 0

/-- Coordinates inside a shape of their rank. -/
abbrev Within (coords shape : List Nat) : Prop :=
  List.Forall₂ (· < ·) coords shape

theorem coordinates_within : ∀ {shape : List Nat} (e : Nat), (∀ d ∈ shape, 0 < d) →
    Within (coordinates shape e) shape
  | [], _, _ => .nil
  | d :: _, e, h =>
      .cons (Nat.mod_lt _ (h d List.mem_cons_self))
        (coordinates_within e fun c hc => h c (List.mem_cons_of_mem d hc))

theorem placeOf_append : ∀ {outer outerStrides : List Nat} (inner innerStrides : List Nat),
    outer.length = outerStrides.length →
    placeOf (outer ++ inner) (outerStrides ++ innerStrides) =
      placeOf outer outerStrides + placeOf inner innerStrides
  | [], [], _, _, _ => (Nat.zero_add _).symm
  | c :: outer, s :: outerStrides, inner, innerStrides, h => by
      rw [List.cons_append, List.cons_append, placeOf, placeOf,
        placeOf_append inner innerStrides (Nat.succ.inj h), Nat.add_assoc]

theorem placeOf_replicate_zero : ∀ (coords strides : List Nat) (k : Nat),
    placeOf coords (List.replicate k 0 ++ strides) = placeOf (coords.drop k) strides
  | _, _, 0 => rfl
  | [], [], _ + 1 => rfl
  | [], _ :: _, _ + 1 => rfl
  | c :: coords, strides, k + 1 => by
      rw [List.replicate_succ, List.cons_append, placeOf, Nat.mul_zero, Nat.zero_add,
        placeOf_replicate_zero coords strides k, List.drop_succ_cons]

/-! ## Locations -/

theorem locateInward_append {outer : List (Nat × Nat)} {b : Nat} :
    ∀ {inner : List (Nat × Nat)} {e a : Nat}, (∀ dim ∈ inner, 0 < dim.1) →
      locateInward inner e = .ok a →
      locateInward outer (e / (inner.map Prod.fst).prod) = .ok b →
      locateInward (inner ++ outer) e = .ok (a + b)
  | [], e, a, _, hinner, houter => by
      cases hinner
      rw [List.map_nil, List.prod_nil, Nat.div_one] at houter
      rw [List.nil_append, houter, Nat.zero_add]
  | (extent, stride) :: inner, e, a, hpos, hinner, houter => by
      have hextent := Nat.ne_of_gt (hpos _ List.mem_cons_self)
      rw [locateInward, if_neg hextent, bind_eq_ok] at hinner
      obtain ⟨rest, hrest, hsum⟩ := hinner
      cases hsum
      rw [List.map_cons, List.prod_cons, ← Nat.div_div_eq_div_mul] at houter
      have hboth := locateInward_append (fun dim hdim => hpos dim (List.mem_cons_of_mem _ hdim))
        hrest houter
      rw [List.cons_append, locateInward, if_neg hextent, hboth, ok_bind, pure_eq_ok,
        Nat.add_assoc]

theorem locateInward_reverse : ∀ (dims : List (Nat × Nat)) (e : Nat), (∀ dim ∈ dims, 0 < dim.1) →
    locateInward dims.reverse e =
      .ok (placeOf (coordinates (dims.map Prod.fst) e) (dims.map Prod.snd))
  | [], _, _ => rfl
  | (extent, stride) :: dims, e, hpos => by
      have hinner := locateInward_reverse dims e fun dim hdim => hpos dim (List.mem_cons_of_mem _ hdim)
      have hextent := Nat.ne_of_gt (hpos _ List.mem_cons_self)
      have houter : locateInward [(extent, stride)] (e / (dims.reverse.map Prod.fst).prod) =
          .ok (e / (dims.map Prod.fst).prod % extent * stride) := by
        rw [List.map_reverse, List.prod_reverse_nat, locateInward, if_neg hextent]
        rfl
      rw [List.reverse_cons, locateInward_append (fun dim hdim =>
        hpos dim (List.mem_cons_of_mem _ (List.mem_reverse.mp hdim))) hinner houter, Nat.add_comm]
      rfl

theorem locate_eq_ok {shape strides : List Nat} (e : Nat) (hrank : strides.length = shape.length)
    (hpos : ∀ d ∈ shape, 0 < d) :
    locate shape strides e = .ok (placeOf (coordinates shape e) strides) := by
  have hlocate := locateInward_reverse (shape.zip strides) e fun dim hdim =>
    hpos dim.1 (List.of_mem_zip hdim).1
  rwa [List.map_fst_zip (Nat.le_of_eq hrank.symm), List.map_snd_zip (Nat.le_of_eq hrank)]
    at hlocate

end SubByte
