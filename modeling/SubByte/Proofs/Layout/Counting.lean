/-
# Counting — the products that extents make on the way

Counting the elements of a layout multiplies its extents, the outermost first; the check for
density multiplies them from the innermost outward, for as long as it goes on; and a broadcast
product multiplies the leading extents of its output to count the batches.  None of the
three looks at the size of what it multiplies.

The products on the way grow until a zero is met, and are zero from there on, so the last one
in front of the first zero decides (`stepsAddressed_iff`).  A required length bounds the
product of all extents only where none of them is zero.  With a zero among them it is found
without a look at the others, and then the order of the extents matters: a zero that comes
first stops the growth, and one that comes last does not (`steps_addressed_iff`).
-/
import Mathlib.Algebra.BigOperators.Group.List.Lemmas
import Mathlib.Data.List.TakeWhile
import SubByte.Proofs.Layout.Dense
import SubByte.Proofs.Product.Settled

namespace SubByte

/-! ## Products on the way -/

/-- The products that are formed when extents are multiplied to `count`, the first one first. -/
def stepProducts (count : Nat) : List Nat → List Nat
  | [] => []
  | d :: rest => count * d :: stepProducts (count * d) rest

/-- The number of elements is the last of the products. -/
theorem extentProduct_eq_last (extents : List Nat) :
    extentProduct extents = (stepProducts 1 extents).getLastD 1 := by
  have hlast : ∀ count, extents.foldl (fun count d => count * d) count =
      (stepProducts count extents).getLastD count := by
    induction extents with
    | nil =>
        intro count
        rfl
    | cons d rest ih =>
        intro count
        rw [List.foldl_cons, stepProducts, List.getLastD_cons]
        exact ih (count * d)
  exact hlast 1

/-- Every product on the way is an address. -/
def StepsAddressed (extents : List Nat) : Prop :=
  ∀ p ∈ stepProducts 1 extents, p < addressLimit

/-- The extents in front of the first zero. -/
def beforeZero (extents : List Nat) : List Nat :=
  extents.takeWhile (· ≠ 0)

theorem pos_of_mem_beforeZero {extents : List Nat} : ∀ d ∈ beforeZero extents, 0 < d := by
  intro d hd
  have hne : decide (d ≠ 0) = true := List.mem_takeWhile_imp (p := fun d => decide (d ≠ 0)) hd
  exact Nat.pos_of_ne_zero (of_decide_eq_true hne)

theorem beforeZero_eq_self {extents : List Nat} (h : 0 ∉ extents) : beforeZero extents = extents :=
  List.takeWhile_eq_self_iff.mpr fun d hd =>
    decide_eq_true (Nat.ne_of_gt (pos_of_zero_not_mem h d hd))

theorem eq_zero_of_mem_stepProducts {extents : List Nat} :
    ∀ p ∈ stepProducts 0 extents, p = 0 := by
  induction extents with
  | nil => exact fun _ h => absurd h List.not_mem_nil
  | cons d rest ih =>
      intro p hp
      rw [stepProducts, Nat.zero_mul] at hp
      rcases List.mem_cons.mp hp with rfl | hp
      · rfl
      · exact ih p hp

theorem stepProducts_lt_iff (extents : List Nat) : ∀ count, count < addressLimit →
    ((∀ p ∈ stepProducts count extents, p < addressLimit) ↔
      count * (beforeZero extents).prod < addressLimit) := by
  induction extents with
  | nil =>
      intro count hcount
      exact ⟨fun _ => by rwa [beforeZero, List.takeWhile_nil, List.prod_nil, Nat.mul_one],
        fun _ _ h => absurd h List.not_mem_nil⟩
  | cons d rest ih =>
      intro count hcount
      rw [stepProducts, List.forall_mem_cons, beforeZero, List.takeWhile_cons]
      by_cases hd : d = 0
      · subst hd
        simp only [ne_eq, not_true_eq_false, decide_false, Bool.false_eq_true, if_false,
          List.prod_nil, Nat.mul_one, Nat.mul_zero]
        refine ⟨fun _ => hcount, fun _ => ⟨by decide, fun p hp => ?_⟩⟩
        rw [eq_zero_of_mem_stepProducts p hp]
        decide
      · have hrest : 0 < (beforeZero rest).prod :=
          List.prod_pos_iff_forall_pos_nat.mpr pos_of_mem_beforeZero
        simp only [ne_eq, hd, not_false_eq_true, decide_true, if_true, List.prod_cons,
          ← Nat.mul_assoc]
        constructor
        · rintro ⟨hfirst, hlater⟩
          exact (ih _ hfirst).mp hlater
        · intro hall
          -- what is still to come only makes the product larger
          have hfirst : count * d < addressLimit :=
            Nat.lt_of_le_of_lt (Nat.le_mul_of_pos_right (count * d) hrest) hall
          exact ⟨hfirst, (ih _ hfirst).mpr hall⟩

/-- The products on the way are addresses exactly when the one in front of the first zero is. -/
theorem stepsAddressed_iff (extents : List Nat) :
    StepsAddressed extents ↔ (beforeZero extents).prod < addressLimit := by
  have hsteps := stepProducts_lt_iff extents 1 (by decide)
  rwa [Nat.one_mul] at hsteps

/-- Some of the extents of a shape make no larger products than all of them do, when none is
zero. -/
theorem stepsAddressed_of_sublist {part shape : List Nat} (hpart : part.Sublist shape)
    (hzero : 0 ∉ shape) (hprod : shape.prod < addressLimit) : StepsAddressed part := by
  have hnone : 0 ∉ part := fun h => hzero (hpart.subset h)
  rw [stepsAddressed_iff, beforeZero_eq_self hnone]
  have hpos : 0 < shape.prod :=
    List.prod_pos_iff_forall_pos_nat.mpr (pos_of_zero_not_mem hzero)
  exact Nat.lt_of_le_of_lt (Nat.le_of_dvd hpos hpart.prod_dvd_prod) hprod

/-! ## The check for density -/

namespace Layout

/-- The dimensions that the check for density gets past, the innermost first. -/
def densePart (expected : Nat) : List (Nat × Nat) → List (Nat × Nat)
  | [] => []
  | (d, s) :: outer => if d = 1 || s = expected then (d, s) :: densePart (expected * d) outer else []

/-- The extents that the check for density multiplies, the innermost first. -/
def denseExtents (layout : Layout) : List Nat :=
  (densePart 1 layout.dimensions.reverse).map Prod.fst

theorem densePart_isPrefix (dims : List (Nat × Nat)) :
    ∀ expected, densePart expected dims <+: dims := by
  induction dims with
  | nil => exact fun _ => List.prefix_rfl
  | cons dim outer ih =>
      intro expected
      rw [densePart]
      split
      · exact List.cons_prefix_cons.mpr ⟨rfl, ih _⟩
      · exact List.nil_prefix

/-- The check holds when it gets past every dimension. -/
theorem isRowContiguous_iff_densePart (layout : Layout) :
    layout.isRowContiguous = true ↔
      densePart 1 layout.dimensions.reverse = layout.dimensions.reverse := by
  have hdense : ∀ expected, denseInward expected layout.dimensions.reverse = true ↔
      densePart expected layout.dimensions.reverse = layout.dimensions.reverse := by
    induction layout.dimensions.reverse with
    | nil => exact fun _ => ⟨fun _ => rfl, fun _ => rfl⟩
    | cons dim outer ih =>
        intro expected
        rw [denseInward, densePart, Bool.and_eq_true, ih]
        by_cases hdim : (dim.1 = 1 || dim.2 = expected) = true
        · rw [if_pos hdim, List.cons.injEq]
          exact ⟨fun h => ⟨rfl, h.2⟩, fun h => ⟨hdim, h.2⟩⟩
        · rw [if_neg hdim]
          exact ⟨fun h => absurd h.1 hdim, fun h => by cases h⟩
  exact hdense 1

theorem denseExtents_sublist (layout : Layout) :
    ∃ extents, layout.denseExtents.Sublist extents ∧ extents.Perm layout.shape := by
  refine ⟨layout.dimensions.reverse.map Prod.fst,
    (densePart_isPrefix _ 1).sublist.map Prod.fst, ?_⟩
  rw [List.map_reverse, map_fst_dimensions]
  exact List.reverse_perm layout.shape

end Layout

/-! ## Accepted layouts -/

theorem outBatchShape_sublist (out : View) : (outBatchShape out).Sublist out.shape := by
  rw [outBatchShape]
  split
  · next matrix hmatrix =>
      rw [← (MatrixShape.ofShape?_eq_some hmatrix).1]
      exact List.take_sublist _ _
  · exact List.nil_sublist _

namespace Layout

/-- What bounds the products where no extent of the layout is zero leaves one condition for the
layouts that have such an extent. -/
theorem stepsAddressed_iff_of {layout : Layout} {part : List Nat}
    (h : 0 ∉ layout.shape → StepsAddressed part) :
    StepsAddressed part ↔ (0 ∈ layout.shape → (beforeZero part).prod < addressLimit) := by
  constructor
  · intro hsteps _
    exact (stepsAddressed_iff part).mp hsteps
  · intro hfront
    by_cases hzero : 0 ∈ layout.shape
    · exact (stepsAddressed_iff part).mpr (hfront hzero)
    · exact h hzero

/-- Where a layout is accepted, the products on the way are addresses if no extent is zero: those
of counting its elements, of checking its density, and of counting the batches of an output
that has it.  If an extent is zero they are addresses exactly when the one in front of the
first zero is, in the order in which each of the three goes through the extents. -/
theorem steps_addressed_iff {layout : Layout} {len : Nat} (h : layout.requiredLength? = .ok len) :
    (StepsAddressed layout.shape ↔
      (0 ∈ layout.shape → (beforeZero layout.shape).prod < addressLimit)) ∧
    (StepsAddressed layout.denseExtents ↔
      (0 ∈ layout.shape → (beforeZero layout.denseExtents).prod < addressLimit)) ∧
    ∀ out : View, out.layout = layout →
      (StepsAddressed (outBatchShape out) ↔
        (0 ∈ layout.shape → (beforeZero (outBatchShape out)).prod < addressLimit)) := by
  have hprod : 0 ∉ layout.shape → layout.shape.prod < addressLimit := fun hzero =>
    (requiredLength?_eq_ok (pos_of_zero_not_mem hzero) h).1
  refine ⟨stepsAddressed_iff_of ?_, stepsAddressed_iff_of ?_, ?_⟩
  · intro hzero
    exact stepsAddressed_of_sublist (List.Sublist.refl _) hzero (hprod hzero)
  · intro hzero
    obtain ⟨extents, hpart, hperm⟩ := layout.denseExtents_sublist
    exact stepsAddressed_of_sublist hpart (fun hmem => hzero (hperm.mem_iff.mp hmem))
      (by rw [hperm.prod_eq]; exact hprod hzero)
  · rintro out rfl
    refine stepsAddressed_iff_of fun hzero => ?_
    exact stepsAddressed_of_sublist (outBatchShape_sublist out) hzero (hprod hzero)

/-- A layout of as many elements as half the limit, and one whose zero comes first. -/
theorem steps_addressed_iff_half :
    (StepsAddressed [2 ^ 32, 2 ^ 31, 1] ∧
      StepsAddressed (contiguous [2 ^ 32, 2 ^ 31, 1]).denseExtents) ∧
    StepsAddressed [0, 2 ^ 63, 2] := by
  have hhalf : (contiguous [2 ^ 32, 2 ^ 31, 1]).requiredLength? = .ok (2 ^ 63) := by rfl
  have hzero : (contiguous [0, 2 ^ 63, 2]).requiredLength? = .ok 0 := by rfl
  have hnone : 0 ∉ (contiguous [2 ^ 32, 2 ^ 31, 1]).shape := by decide
  obtain ⟨hsize, hdense, -⟩ := steps_addressed_iff hhalf
  exact ⟨⟨hsize.mpr fun h => absurd h hnone, hdense.mpr fun h => absurd h hnone⟩,
    (steps_addressed_iff hzero).1.mpr fun _ => by decide⟩

/-- A zero that comes last is met too late.  The first layout is accepted, and dense, and
counting its elements passes the limit, as does counting the batches of an output that has it;
the second is accepted, and checking its density passes the limit. -/
theorem steps_pass_limit :
    ((contiguous [2 ^ 63, 2, 0, 1, 1]).requiredLength? = .ok 0 ∧
      (contiguous [2 ^ 63, 2, 0, 1, 1]).isRowContiguous = true ∧
      ¬ StepsAddressed (contiguous [2 ^ 63, 2, 0, 1, 1]).shape ∧
      ∃ out : View, out.layout = contiguous [2 ^ 63, 2, 0, 1, 1] ∧
        ¬ StepsAddressed (outBatchShape out)) ∧
    (contiguous [0, 2 ^ 32, 2 ^ 32]).requiredLength? = .ok 0 ∧
      ¬ StepsAddressed (contiguous [0, 2 ^ 32, 2 ^ 32]).denseExtents := by
  have hlength : (contiguous [2 ^ 63, 2, 0, 1, 1]).requiredLength? = .ok 0 := by rfl
  have hpast : ∀ extents, addressLimit ∈ stepProducts 1 extents → ¬ StepsAddressed extents :=
    fun _ hmem hsteps => Nat.lt_irrefl addressLimit (hsteps _ hmem)
  refine ⟨⟨hlength, by decide, hpast _ (by decide), ?_⟩, by rfl, hpast _ (by decide)⟩
  refine ⟨⟨⟨.float .f32, []⟩, contiguous [2 ^ 63, 2, 0, 1, 1], 0, hlength, Nat.le_refl 0⟩, rfl, ?_⟩
  exact hpast [2 ^ 63, 2, 0] (by decide)

end Layout

end SubByte
