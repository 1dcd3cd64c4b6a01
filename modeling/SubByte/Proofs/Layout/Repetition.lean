/-
# Repetition — which element a broadcast reads

A shape that broadcasts to a target is read once for every element of the target, through
strides that stand still along the dimensions it lacks or has one element in.  Counted in
row-major order, element `e` of the target is element `repeated shape target e` of the
shape: the one at the coordinates of `e`, without the leading ones and with zero where
the shape has one element.  The numbers of the two elements are written to different
bases and of different lengths; what they share is their coordinates, and a location is
formed from coordinates alone (`locate_broadcast`).

So a broadcast has no locations of its own.  A buffer that holds the elements of the shape
holds all that is read of it, however large the target, and no step of a location passes
the limit (`Layout.broadcast_elements`).
-/
import SubByte.Proofs.Layout.Broadcast
import SubByte.Proofs.Layout.Reach

namespace SubByte

variable {shape strides target found : List Nat} {e : Nat}

/-- The element of a shape that element `e` of a target repeats, in row-major order. -/
def repeated (shape target : List Nat) (e : Nat) : Nat :=
  elementOf shape (pinned shape target e)

theorem repeated_lt (h : BroadcastsTo shape target) (he : e < extentProduct target) :
    repeated shape target e < extentProduct shape := by
  rw [extentProduct_eq_prod]
  exact elementOf_lt (pinned_within h (pos_of_lt_extentProduct he) e)

theorem coordinates_repeated (h : BroadcastsTo shape target) (he : e < extentProduct target) :
    coordinates shape (repeated shape target e) = pinned shape target e :=
  coordinates_elementOf (pinned_within h (pos_of_lt_extentProduct he) e)

theorem broadcastStrides_ok_iff (target : List Nat) (hrank : strides.length = shape.length) :
    (∃ found, broadcastStrides shape strides target = .ok found) ↔ BroadcastsTo shape target := by
  rcases broadcastStrides_cases target hrank with ⟨hto, found, hfound, -⟩ | ⟨hto, hreject⟩
  · exact ⟨fun _ => hto, fun _ => ⟨found, hfound⟩⟩
  · constructor
    · rintro ⟨found, hfound⟩
      rw [hreject] at hfound
      cases hfound
    · intro h
      exact absurd h hto

/-- An element of the target lies where the element that it repeats does. -/
theorem locate_broadcast (hrank : strides.length = shape.length)
    (hfound : broadcastStrides shape strides target = .ok found) (he : e < extentProduct target) :
    locate target found e = .ok (placeOf (pinned shape target e) strides) ∧
      locate shape strides (repeated shape target e) =
        .ok (placeOf (pinned shape target e) strides) := by
  rcases broadcastStrides_cases target hrank with ⟨hto, _, hfound', hplace⟩ | ⟨-, hreject⟩
  · rw [hfound] at hfound'
    cases hfound'
    have hpos := pos_of_lt_extentProduct he
    refine ⟨hplace e hpos, ?_⟩
    rw [locate_eq_ok _ hrank (pinned_within hto hpos e).pos, coordinates_repeated hto he]
  · rw [hfound] at hreject
    cases hreject

namespace Layout

/-- Strides are found for the targets that the shape broadcasts to, and for no other one.
Through them each element of the target lies where the element at its coordinates does;
and where the elements of the layout can be addressed, no location is behind the last of
them, and none passes the limit on the way. -/
theorem broadcast_elements (layout : Layout) (target : List Nat) :
    ((∃ found, broadcastStrides layout.shape layout.strides target = .ok found) ↔
      BroadcastsTo layout.shape target) ∧
    (∀ stop, broadcastStrides layout.shape layout.strides target = .error stop →
      stop = .rejected (.notBroadcastable layout.shape target)) ∧
    ∀ found, broadcastStrides layout.shape layout.strides target = .ok found →
      ∀ e < extentProduct target,
        repeated layout.shape target e < layout.size ∧
        coordinates layout.shape (repeated layout.shape target e) =
          pinned layout.shape target e ∧
        ∃ place, locate target found e = .ok place ∧
          layout.location (repeated layout.shape target e) = .ok place ∧
          ∀ len, layout.requiredLength? = .ok len →
            place < len ∧ boundedPlace (target.zip found).reverse e 0 = some place := by
  have hiff := broadcastStrides_ok_iff target layout.rank_eq
  refine ⟨hiff, fun stop hstop => ?_, fun found hfound e he => ?_⟩
  · rcases broadcastStrides_cases target layout.rank_eq with ⟨-, found, hfound, -⟩ | ⟨-, hreject⟩
    · rw [hfound] at hstop
      cases hstop
    · rw [hreject] at hstop
      cases hstop
      rfl
  · have hto := hiff.mp ⟨found, hfound⟩
    obtain ⟨hplace, hrepeated⟩ := locate_broadcast layout.rank_eq hfound he
    refine ⟨repeated_lt hto he, coordinates_repeated hto he, _, hplace, hrepeated, ?_⟩
    intro len hlen
    have hroom := place_lt_required hlen (pinned_within hto (pos_of_lt_extentProduct he) e)
    refine ⟨hroom, ?_⟩
    have hlimit := Nat.lt_trans hroom (requiredLength?_lt hlen)
    rw [← Nat.zero_add (placeOf _ _)] at hlimit ⊢
    exact boundedPlace_eq_some hplace hlimit

/-- A column of three read as two matrices of three by four: the last element of the second
one repeats the last of the column, and a dimension of two is not one of three. -/
theorem broadcast_elements_column :
    (∃ found, broadcastStrides [3, 1] [5, 7] [2, 3, 4] = .ok found ∧
      locate [2, 3, 4] found 23 = .ok 10 ∧ locate [3, 1] [5, 7] 2 = .ok 10) ∧
    ¬ ∃ found, broadcastStrides [3, 1] [5, 7] [2, 2, 4] = .ok found := by
  obtain ⟨hiff, -, helements⟩ := broadcast_elements ⟨[3, 1], [5, 7], rfl⟩ [2, 3, 4]
  have hto : BroadcastsTo [3, 1] [2, 3, 4] :=
    ⟨by decide, .cons (.inl rfl) (.cons (.inr rfl) .nil)⟩
  constructor
  · obtain ⟨found, hfound⟩ := hiff.mpr hto
    obtain ⟨-, -, place, hplace, hrepeated, -⟩ := helements found hfound 23 (by decide)
    have htwo : locate [3, 1] [5, 7] 2 = .ok 10 := by decide
    have hrepeated : locate [3, 1] [5, 7] 2 = .ok place := hrepeated
    rw [htwo] at hrepeated
    cases hrepeated
    exact ⟨found, hfound, hplace, htwo⟩
  · rw [(broadcast_elements ⟨[3, 1], [5, 7], rfl⟩ [2, 2, 4]).1]
    rintro ⟨-, hdims⟩
    have hdim := (List.forall₂_cons.mp hdims).1
    revert hdim
    decide

end Layout

end SubByte
