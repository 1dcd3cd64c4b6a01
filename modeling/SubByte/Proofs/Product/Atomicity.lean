/-
# Atomicity — a call writes all of its blocks or nothing

Both products plan first and write afterwards, and a plan that stands is ready
(`Plan.Prepared`): nothing can fail between its first block and its last.  So a call that
fails has written nothing, and a call that succeeds has written the blocks of the output
and nothing behind them, however much longer the buffer is.

What is left to fail is rejection.  No call reads past the end of its operands or divides
by zero; the one fault there is comes before the first write as well, when a plan has more
entries than there is storage for.
-/
import SubByte.Proofs.Product.Planned

namespace SubByte

/-- What a call leaves in the buffer of `out`: the buffer as it was when it fails, and
when it succeeds the old elements from the end of the blocks on. -/
structure Framed (result : Written Buffer) (out : View) : Prop where
  failed : ∀ stop, result.1 = .error stop → result.2 = out.buffer
  written : result.1 = .ok () →
    ∃ matrix, MatrixShape.ofShape? out.shape = some matrix ∧
      ∃ data : List out.buffer.dtype.Elem, result.2 = ⟨out.buffer.dtype, data⟩ ∧
        data.length = out.buffer.length ∧
        ∀ i, extentProduct matrix.batch * matrix.rows * matrix.cols ≤ i →
          data[i]? = out.buffer.data[i]?

namespace Plan

variable {operands : Operands} {out : View}

theorem Prepared.execute {plan : Plan} (h : plan.Prepared operands out) (simd : Bool) :
    ∃ data, operands.Reads plan.type data ∧ ∃ old, out.buffer = ⟨.float plan.type, old⟩ ∧
      plan.batches.length * (plan.dims.m * plan.dims.n) ≤ old.length ∧
      plan.execute simd operands out.buffer =
        (.ok (), ⟨.float plan.type, overlay (plan.products simd data) old⟩) := by
  obtain ⟨data, hdata, hready⟩ := h.ready
  obtain ⟨old, hold⟩ := View.as?_of_dtype h.type
  have hroom := hready.room
  rw [← Buffer.length_of_as? hold] at hroom
  exact ⟨data, hdata, old, Buffer.eq_of_as? hold, hroom, execute_eq_ok simd hready hold⟩

theorem Prepared.size_le {plan : Plan} (h : plan.Prepared operands out) {matrix : MatrixShape}
    (hmatrix : MatrixShape.ofShape? out.shape = some matrix) :
    plan.batches.length * (plan.dims.m * plan.dims.n) ≤
      extentProduct matrix.batch * matrix.rows * matrix.cols := by
  obtain ⟨batch, hshape⟩ := h.shape
  have hblocks := h.blocks
  rw [outBatchShape, hshape] at hblocks
  rw [hmatrix] at hshape
  cases hshape
  rw [Nat.mul_assoc]
  exact Nat.mul_le_mul_right _ hblocks

theorem perform_framed {planned : Checked QuantError Plan}
    (h : ∀ plan, planned = .ok plan → plan.Prepared operands out) (simd : Bool) :
    Framed (perform planned simd operands out.buffer) out := by
  cases planned with
  | error stop =>
      constructor
      · intro _ _
        rfl
      · intro hok
        cases hok
  | ok plan =>
      have hprepared := h plan rfl
      obtain ⟨matrix, hmatrix⟩ := hprepared.shape
      obtain ⟨data, -, old, hold, hroom, hexecute⟩ := hprepared.execute simd
      have hsize := hprepared.size_le hmatrix
      rw [← length_products plan simd data] at hroom hsize
      rw [perform, hexecute]
      constructor
      · intro _ herror
        cases herror
      · intro _
        refine ⟨_, hmatrix, ?_⟩
        rw [hold]
        refine ⟨_, rfl, length_overlay hroom, ?_⟩
        intro i hi
        exact getElem?_overlay (Nat.le_trans hsize hi)

theorem perform_faults {planned : Checked QuantError Plan}
    (h : ∀ plan, planned = .ok plan → plan.Prepared operands out) (simd : Bool)
    {allowed : Fault → Prop} (hplanned : Checked.FaultsOnly allowed planned) :
    Checked.FaultsOnly allowed (perform planned simd operands out.buffer).1 := by
  intro f hf
  cases planned with
  | error stop =>
      cases hf
      exact hplanned f rfl
  | ok plan =>
      obtain ⟨data, -, old, -, -, hexecute⟩ := (h plan rfl).execute simd
      rw [perform, hexecute] at hf
      cases hf

end Plan

/-- Neither product reads past the end of its operands or divides by zero, and both write
all of their blocks or nothing.  What either can lack is storage for its plan. -/
theorem products_all_or_nothing (simd : Bool) (operands : Operands) (indices : GatherIndices)
    (out : View) (bits groupSize : Nat) (transposed : Bool) :
    (Checked.FaultsOnly
        (fun f => f = .outOfStorage ∧
          storageLimit < extentProduct (outBatchShape out) * Offsets.bytes)
        (quantizedMatmul simd operands out bits groupSize transposed).1 ∧
      Framed (quantizedMatmul simd operands out bits groupSize transposed) out) ∧
    (Checked.FaultsOnly
        (fun f => f = .outOfStorage ∧
          storageLimit < extentProduct (outBatchShape out) * Offsets.bytes)
        (gatheredMatmul simd operands indices out bits groupSize transposed).1 ∧
      Framed (gatheredMatmul simd operands indices out bits groupSize transposed) out) := by
  have hbatched : ∀ plan, Plan.batched operands out bits groupSize transposed = .ok plan →
      plan.Prepared operands out := by
    intro plan hplan
    exact Plan.batched_prepared hplan
  have hgathered : ∀ plan, Plan.gathered operands indices out bits groupSize transposed =
      .ok plan → plan.Prepared operands out := by
    intro plan hplan
    exact Plan.gathered_prepared hplan
  refine ⟨⟨?_, Plan.perform_framed hbatched simd⟩, ⟨?_, Plan.perform_framed hgathered simd⟩⟩
  · exact Plan.perform_faults hbatched simd (Plan.batched_faults _ _ _ _ _)
  · exact Plan.perform_faults hgathered simd (Plan.gathered_faults _ _ _ _ _ _)

end SubByte
