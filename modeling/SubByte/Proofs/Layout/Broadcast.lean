/-
# Broadcasting — the strides of another shape read the same elements

A shape broadcasts to a target when, aligned at the innermost dimension, each extent is
the target's or one (`Broadcasts`).  The strides found then lead every element of the
target to an element of the shape: the one at the same coordinates, without those of
dimensions that the shape lacks and with zero along its dimensions of one element
(`pinned`).

The strides of a layout are as many as its extents, so the alignment never reaches past
their end, and a failure is always a rejection.
-/
import SubByte.Layout.Broadcast
import SubByte.Proofs.Layout.Coverage

namespace SubByte

/-- Each extent is the target's, or one. -/
abbrev Broadcasts (shape target : List Nat) : Prop :=
  List.Forall₂ (fun s t => s = t ∨ s = 1) shape target

/-- Coordinates of a target along the dimensions of a shape of the same rank; dimensions
of one element have no other coordinate than zero. -/
def pin : List Nat → List Nat → List Nat
  | d :: shape, c :: coords => (if d = 1 then 0 else c) :: pin shape coords
  | _, _ => []

/-- The coordinates at which a shape is read for element `e` of a target. -/
def pinned (shape target : List Nat) (e : Nat) : List Nat :=
  pin shape ((coordinates target e).drop (target.length - shape.length))

theorem pin_within : ∀ {shape target coords : List Nat}, Broadcasts shape target →
    Within coords target → Within (pin shape coords) shape
  | _, _, _, .nil, .nil => .nil
  | _, _, _, .cons (a := s) hdim hdims, .cons (a := c) hc hcoords => by
      refine .cons ?_ (pin_within hdims hcoords)
      split
      · next hone =>
          rw [hone]
          exact Nat.one_pos
      · next hone =>
          rcases hdim with rfl | hone'
          · exact hc
          · exact absurd hone' hone

theorem pin_self : ∀ {shape coords : List Nat}, Within coords shape → pin shape coords = coords
  | _, _, .nil => rfl
  | _, _, .cons (a := c) (b := d) hc hcoords => by
      rw [pin, pin_self hcoords]
      split
      · next hone =>
          rw [hone, Nat.lt_one_iff] at hc
          rw [hc]
      · rfl

theorem pinned_self {shape : List Nat} (hpos : ∀ d ∈ shape, 0 < d) (e : Nat) :
    pinned shape shape e = coordinates shape e := by
  rw [pinned, Nat.sub_self, List.drop_zero]
  exact pin_self (coordinates_within e hpos)

/-! ## Aligned strides -/

theorem alignedStrides_cons (failure : ShapeError) (s stride t : Nat)
    (shape strides target : List Nat) :
    alignedStrides failure (s :: shape) (stride :: strides) (t :: target) =
      if s = t ∨ s = 1 then do
        let rest ← alignedStrides failure shape strides target
        return (if s = t then stride else 0) :: rest
      else Checked.reject failure := by
  rw [alignedStrides]
  by_cases heq : s = t
  · rw [if_pos heq, if_pos (.inl heq), if_pos heq]
    rfl
  · by_cases hone : s = 1
    · rw [if_neg heq, if_pos hone, if_pos (.inr hone), if_neg heq]
      rfl
    · rw [if_neg heq, if_neg hone, if_neg (not_or.mpr ⟨heq, hone⟩)]
      rfl

/-- A dimension of the target moves a place as far as its dimension of the shape does. -/
theorem mul_stride_eq {s t c : Nat} (stride : Nat) (hdim : s = t ∨ s = 1) (hc : c < t) :
    c * (if s = t then stride else 0) = (if s = 1 then 0 else c) * stride := by
  by_cases hone : s = 1
  · rw [if_pos hone, Nat.zero_mul]
    split
    · next heq =>
        rw [← heq, hone, Nat.lt_one_iff] at hc
        rw [hc, Nat.zero_mul]
    · exact Nat.mul_zero c
  · rw [if_neg hone, if_pos (hdim.resolve_right hone)]

theorem alignedStrides_cases (failure : ShapeError) : ∀ {shape strides target : List Nat},
    strides.length = shape.length → target.length = shape.length →
    (Broadcasts shape target ∧ ∃ aligned, alignedStrides failure shape strides target = .ok aligned ∧
      aligned.length = target.length ∧
      ∀ coords, Within coords target → placeOf coords aligned = placeOf (pin shape coords) strides) ∨
    (¬ Broadcasts shape target ∧
      alignedStrides failure shape strides target = Checked.reject failure)
  | [], [], [], _, _ => .inl ⟨.nil, [], rfl, rfl, fun _ hcoords => by cases hcoords; rfl⟩
  | s :: shape, stride :: strides, t :: target, hstrides, htarget => by
      have hrest := alignedStrides_cases failure (Nat.succ.inj hstrides) (Nat.succ.inj htarget)
      rw [alignedStrides_cons]
      by_cases hdim : s = t ∨ s = 1
      · rw [if_pos hdim]
        rcases hrest with ⟨hdims, aligned, haligned, hlength, hplace⟩ | ⟨hdims, hreject⟩
        · rw [haligned]
          refine .inl ⟨.cons hdim hdims, _, rfl, congrArg (· + 1) hlength, ?_⟩
          intro coords hcoords
          obtain _ | ⟨hc, hcoords⟩ := hcoords
          rw [placeOf, pin, placeOf, hplace _ hcoords, mul_stride_eq stride hdim hc]
        · rw [hreject]
          exact .inr ⟨fun h => hdims (List.forall₂_cons.mp h).2, rfl⟩
      · rw [if_neg hdim]
        exact .inr ⟨fun h => hdim (List.forall₂_cons.mp h).1, rfl⟩

/-! ## Broadcast strides -/

variable {shape strides target : List Nat}

/-- A shape of no more dimensions than the target, the last of which it broadcasts to. -/
def BroadcastsTo (shape target : List Nat) : Prop :=
  shape.length ≤ target.length ∧ Broadcasts shape (target.drop (target.length - shape.length))

theorem BroadcastsTo.refl (shape : List Nat) : BroadcastsTo shape shape := by
  refine ⟨Nat.le_refl _, ?_⟩
  rw [Nat.sub_self, List.drop_zero]
  exact List.forall₂_same.mpr fun _ _ => .inl rfl

theorem BroadcastsTo.nil (target : List Nat) : BroadcastsTo [] target := by
  refine ⟨Nat.zero_le _, ?_⟩
  rw [List.length_nil, Nat.sub_zero, List.drop_length]
  exact .nil

theorem pinned_within (h : BroadcastsTo shape target) (hpos : ∀ d ∈ target, 0 < d) (e : Nat) :
    Within (pinned shape target e) shape :=
  pin_within h.2 (List.forall₂_drop _ (coordinates_within e hpos))

/-- Broadcast strides are found for a shape that broadcasts to the target, and lead each
element of the target to the place of its element of the shape. -/
theorem broadcastStrides_cases (target : List Nat) (hrank : strides.length = shape.length) :
    (BroadcastsTo shape target ∧ ∃ found, broadcastStrides shape strides target = .ok found ∧
      ∀ e, (∀ d ∈ target, 0 < d) →
        locate target found e = .ok (placeOf (pinned shape target e) strides)) ∨
    (¬ BroadcastsTo shape target ∧ broadcastStrides shape strides target =
      Checked.reject (.notBroadcastable shape target)) := by
  rw [broadcastStrides]
  by_cases hle : target.length < shape.length
  · rw [if_pos hle]
    exact .inr ⟨fun h => Nat.not_lt_of_le h.1 hle, rfl⟩
  · rw [if_neg hle]
    have hle := Nat.le_of_not_lt hle
    have hlength : (target.drop (target.length - shape.length)).length = shape.length := by
      rw [List.length_drop, Nat.sub_sub_self hle]
    have haligned := alignedStrides_cases (.notBroadcastable shape target) hrank hlength
    rcases haligned with ⟨hdims, aligned, haligned, hlength, hplace⟩ | ⟨hdims, hreject⟩
    · simp only [haligned, ok_bind, pure_eq_ok]
      refine .inl ⟨⟨hle, hdims⟩, _, rfl, ?_⟩
      intro e hpos
      have hrank : (List.replicate (target.length - shape.length) 0 ++ aligned).length =
          target.length := by
        rw [List.length_append, List.length_replicate, hlength, List.length_drop]
        omega
      have hcoords := List.forall₂_drop (target.length - shape.length) (coordinates_within e hpos)
      rw [locate_eq_ok e hrank hpos, placeOf_replicate_zero, hplace _ hcoords]
      rfl
    · simp only [hreject]
      exact .inr ⟨fun h => hdims h.2, rfl⟩

end SubByte
