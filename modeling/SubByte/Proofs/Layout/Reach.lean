/-
# Reach — the last location of a layout

The locations of the elements of a layout have a largest one, that of the last element, whose
coordinates are the largest in each dimension (`isGreatest_locations`).  The required length
is one more than it, and is found exactly when it is an address and the number of elements
is one (`requiredLength?_tight`).  So the check that a view is made by asks for what the
elements take up, and for nothing else.

A location is formed step by step, from the innermost dimension outward.  None of these
steps passes a view's last location, so all of them are addresses (`boundedPlace_eq_some`).
-/
import Mathlib.Order.Bounds.Basic
import SubByte.Proofs.Layout.Coverage

namespace SubByte

/-! ## Elements by their coordinates -/

/-- The number of the element at coordinates, in row-major order. -/
def elementOf : List Nat → List Nat → Nat
  | _ :: inner, c :: coords => c * inner.prod + elementOf inner coords
  | _, _ => 0

theorem elementOf_lt : ∀ {shape coords : List Nat}, Within coords shape →
    elementOf shape coords < shape.prod
  | _, _, .nil => Nat.one_pos
  | d :: inner, c :: coords, .cons hc hcoords => by
      have hrest := elementOf_lt hcoords
      have hstep : (c + 1) * inner.prod ≤ d * inner.prod := Nat.mul_le_mul_right _ hc
      rw [Nat.succ_mul] at hstep
      rw [elementOf, List.prod_cons]
      omega

/-- Whole rounds through a shape do not change the coordinates. -/
theorem coordinates_mul_add : ∀ (shape : List Nat) (rounds e : Nat),
    coordinates shape (rounds * shape.prod + e) = coordinates shape e
  | [], _, _ => rfl
  | d :: inner, rounds, e => by
      have hrounds : rounds * (d :: inner).prod = rounds * d * inner.prod := by
        rw [List.prod_cons, Nat.mul_assoc]
      rw [hrounds, coordinates, coordinates, coordinates_mul_add inner (rounds * d) e]
      rcases Nat.eq_zero_or_pos inner.prod with hzero | hpos
      · rw [hzero, Nat.div_zero, Nat.div_zero]
      · rw [Nat.mul_comm _ inner.prod, Nat.mul_add_div hpos, Nat.mul_comm rounds,
          Nat.mul_add_mod]

theorem coordinates_elementOf : ∀ {shape coords : List Nat}, Within coords shape →
    coordinates shape (elementOf shape coords) = coords
  | _, _, .nil => rfl
  | d :: inner, c :: coords, .cons hc hcoords => by
      have hrest := elementOf_lt hcoords
      rw [elementOf, coordinates, coordinates_mul_add, coordinates_elementOf hcoords,
        Nat.mul_comm c, Nat.mul_add_div (Nat.zero_lt_of_lt hrest), Nat.div_eq_of_lt hrest,
        Nat.add_zero, Nat.mod_eq_of_lt hc]

theorem within_last {shape : List Nat} (hpos : ∀ d ∈ shape, 0 < d) :
    Within (shape.map (· - 1)) shape := by
  rw [Within, List.forall₂_map_left_iff, List.forall₂_same]
  exact fun d hd => Nat.sub_one_lt (Nat.ne_of_gt (hpos d hd))

/-! ## Locations -/

namespace Layout

/-- The locations of the elements. -/
def locations (layout : Layout) : Set Nat :=
  {place | ∃ e < layout.size, layout.location e = .ok place}

/-- The location of the largest coordinates. -/
def lastPlace (layout : Layout) : Nat :=
  placeOf (layout.shape.map (· - 1)) layout.strides

variable {layout : Layout}

/-- The last element is the furthest one. -/
theorem isGreatest_locations (hpos : ∀ d ∈ layout.shape, 0 < d) :
    IsGreatest layout.locations layout.lastPlace := by
  have hlast := within_last hpos
  constructor
  · refine ⟨elementOf layout.shape (layout.shape.map (· - 1)), ?_, ?_⟩
    · rw [size, extentProduct_eq_prod]
      exact elementOf_lt hlast
    · rw [location, locate_eq_ok _ layout.rank_eq hpos, coordinates_elementOf hlast]
      rfl
  · rintro place ⟨e, -, hplace⟩
    rw [location, locate_eq_ok _ layout.rank_eq hpos] at hplace
    cases hplace
    exact placeOf_le layout.strides (coordinates_within e hpos).le_last

end Layout

/-! ## Steps of a location -/

/-- The location of element `e`, added to what the dimensions further in have come to, unless
a product or a sum on the way passes the limit.  There is none where an extent is zero. -/
def boundedPlace : List (Nat × Nat) → Nat → Nat → Option Nat
  | [], _, place => some place
  | (extent, stride) :: outer, e, place =>
    if extent = 0 then none
    else do
      let offset ← addressed (e % extent * stride)
      let next ← addressed (place + offset)
      boundedPlace outer (e / extent) next

/-- No step passes the limit when the location does not. -/
theorem boundedPlace_eq_some : ∀ {dims : List (Nat × Nat)} {e place rest : Nat},
    locateInward dims e = .ok rest → place + rest < addressLimit →
    boundedPlace dims e place = some (place + rest)
  | [], _, _, _, h, _ => by
      cases h
      rfl
  | (extent, stride) :: outer, e, place, rest, h, hlimit => by
      rw [locateInward] at h
      split at h
      · cases h
      · next hextent =>
          obtain ⟨outerRest, houter, hsum⟩ := bind_eq_ok.mp h
          cases hsum
          have hoffset : addressed (e % extent * stride) = some (e % extent * stride) :=
            addressed_eq_some_iff.mpr ⟨rfl, by omega⟩
          have hnext : addressed (place + e % extent * stride) =
              some (place + e % extent * stride) :=
            addressed_eq_some_iff.mpr ⟨rfl, by omega⟩
          rw [boundedPlace, if_neg hextent]
          simp only [hoffset, hnext, Option.bind_eq_bind, Option.bind_some]
          rw [← Nat.add_assoc] at hlimit ⊢
          exact boundedPlace_eq_some houter hlimit

theorem boundedPlace_of_locate {shape strides : List Nat} {e place : Nat}
    (h : locate shape strides e = .ok place) (hlimit : place < addressLimit) :
    boundedPlace (shape.zip strides).reverse e 0 = some place := by
  rw [← Nat.zero_add place] at hlimit ⊢
  exact boundedPlace_eq_some h hlimit

/-! ## Views -/

theorem View.ofLayout_eq_ok_iff {buffer : Buffer} {layout : Layout} {view : View} :
    View.ofLayout buffer layout = .ok view ↔ view.buffer = buffer ∧ view.layout = layout := by
  constructor
  · intro h
    unfold View.ofLayout at h
    split at h
    · cases h
    · split at h
      · cases h
        exact ⟨rfl, rfl⟩
      · cases h
  · rintro ⟨rfl, rfl⟩
    obtain ⟨len, hlen, hroom⟩ := view.covered
    exact View.ofLayout_eq_ok hlen hroom

theorem View.location_bounded (view : View) {e : Nat} (he : e < view.layout.size) :
    ∃ place, view.layout.location e = .ok place ∧ place < view.buffer.length ∧
      boundedPlace view.layout.dimensions.reverse e 0 = some place := by
  have hpos := pos_of_lt_extentProduct he
  have hcoords := coordinates_within e hpos
  have hlocation : view.layout.location e = .ok _ := locate_eq_ok e view.layout.rank_eq hpos
  obtain ⟨len, hlen, -⟩ := view.covered
  have hlimit := Nat.lt_trans (Layout.place_lt_required hlen hcoords)
    (Layout.requiredLength?_lt hlen)
  exact ⟨_, hlocation, view.place_lt_length hcoords, boundedPlace_of_locate hlocation hlimit⟩

namespace Layout

/-- A layout without elements needs no buffer.  Any other one needs one element more than its
last location, if that and the number of elements are addresses, and else has no required
length.  So every element of a view is in its buffer, and no step of its location passes the
limit. -/
theorem requiredLength?_tight (layout : Layout) :
    (0 ∈ layout.shape → layout.requiredLength? = .ok 0) ∧
    (0 ∉ layout.shape → ∃ last, IsGreatest layout.locations last ∧
      (∀ len, layout.requiredLength? = .ok len ↔
        layout.size < addressLimit ∧ 1 + last < addressLimit ∧ len = 1 + last) ∧
      (¬ (layout.size < addressLimit ∧ 1 + last < addressLimit) →
        ∃ cause, layout.requiredLength? = .error cause)) ∧
    ∀ buffer view, View.ofLayout buffer layout = .ok view →
      view.buffer = buffer ∧ view.layout = layout ∧
      ∀ e < layout.size, ∃ place, layout.location e = .ok place ∧ place < buffer.length ∧
        boundedPlace layout.dimensions.reverse e 0 = some place := by
  refine ⟨requiredLength?_of_zero, fun hzero => ?_, fun buffer view hview => ?_⟩
  · have hpos := pos_of_zero_not_mem hzero
    -- The last location is found or refused for the two sizes alone.
    have hiff : ∀ len, layout.requiredLength? = .ok len ↔
        layout.size < addressLimit ∧ 1 + layout.lastPlace < addressLimit ∧
          len = 1 + layout.lastPlace := by
      intro len
      rw [size, extentProduct_eq_prod]
      constructor
      · intro hlen
        obtain ⟨hprod, hlast, hlimit⟩ := requiredLength?_eq_ok hpos hlen
        exact ⟨hprod, hlast ▸ hlimit, hlast⟩
      · rintro ⟨hprod, hlimit, rfl⟩
        exact requiredLength?_of_lt hpos hprod hlimit
    refine ⟨layout.lastPlace, isGreatest_locations hpos, hiff, fun hnot => ?_⟩
    cases hlen : layout.requiredLength? with
    | error cause => exact ⟨cause, rfl⟩
    | ok len =>
        obtain ⟨hsize, hlimit, -⟩ := (hiff len).mp hlen
        exact absurd ⟨hsize, hlimit⟩ hnot
  · obtain ⟨rfl, rfl⟩ := View.ofLayout_eq_ok_iff.mp hview
    exact ⟨rfl, rfl, fun e he => view.location_bounded he⟩

/-- The elements of an innermost dimension of one may have any stride between them, and those
of an outer one may overlap: three places, five apart, need eleven elements.  Two elements
at the largest distance there is need one too many. -/
theorem requiredLength?_tight_overlapping :
    IsGreatest (⟨[2, 3, 1], [0, 5, 2 ^ 64 - 1], rfl⟩ : Layout).locations 10 ∧
    (∀ view, View.ofLayout ⟨.u32, List.replicate 11 (0 : UInt32)⟩
        ⟨[2, 3, 1], [0, 5, 2 ^ 64 - 1], rfl⟩ = .ok view →
      ∀ e < 6, ∃ place, view.layout.location e = .ok place ∧ place < 11) ∧
    ∃ cause, (⟨[2], [2 ^ 64 - 1], rfl⟩ : Layout).requiredLength? = .error cause := by
  obtain ⟨-, hextents, hviews⟩ :=
    requiredLength?_tight ⟨[2, 3, 1], [0, 5, 2 ^ 64 - 1], rfl⟩
  refine ⟨?_, fun view hview e he => ?_, ?_⟩
  · obtain ⟨last, hlast, hlen, -⟩ := hextents (by decide)
    have hspan : (11 : Nat) = 1 + last := ((hlen 11).mp (by rfl)).2.2
    rwa [show last = 10 by omega] at hlast
  · obtain ⟨-, hlayout, hinside⟩ := hviews _ view hview
    obtain ⟨place, hplace, hroom, -⟩ := hinside e he
    exact ⟨place, hlayout ▸ hplace, hroom⟩
  · obtain ⟨last, hlast, -, herror⟩ :=
      (requiredLength?_tight ⟨[2], [2 ^ 64 - 1], rfl⟩).2.1 (by decide)
    have hfar : 2 ^ 64 - 1 ≤ last := hlast.2 ⟨1, by decide, rfl⟩
    refine herror fun hroom => ?_
    have := hroom.2
    simp only [addressLimit] at this
    omega

end Layout

end SubByte
