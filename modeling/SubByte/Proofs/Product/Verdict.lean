/-
# Verdicts — which calls return, and what stops the others

Behind the checks of its parameters and operands a product asks for room for its blocks,
for the element types of its buffers once more, and, in every block, for whole groups, for
sizes that are addresses, for operands that are long enough and for a kernel that decodes
the width.  None of these has anything left to find.  What is, is how the batches come
together: they broadcast (`BroadcastStop`), or the indices name them (`GatherStop`), and in
either case their plan fits one allocation.  Both products return when that is in order as
well, and only then (`products_verdict`).

The verdict of a call is that of its plan, since a plan that stands is carried out
(`Plan.perform_eq_ok_iff`), so all of this is about planning.
-/
import SubByte.Proofs.Product.Accepted

namespace SubByte

/-! ## Causes -/

namespace Checked

variable {ε α β : Type}

theorem not_of_check {P : Prop} [Decidable P] {cause : ε} {stop : Stop ε}
    (h : (if P then .ok () else Checked.reject cause : Checked ε Unit) = .error stop) :
    ¬ P ∧ stop = .rejected cause := by
  split at h
  · cases h
  · next hP =>
      cases h
      exact ⟨hP, rfl⟩

/-- A computation rejects for no other causes than the allowed ones. -/
def CausesOnly (allowed : ε → Prop) (x : Checked ε α) : Prop :=
  ∀ cause, x = .error (.rejected cause) → allowed cause

namespace CausesOnly

variable {allowed : ε → Prop}

theorem ok (a : α) : CausesOnly allowed (.ok a : Checked ε α) := by
  intro cause h
  cases h

theorem reject {cause : ε} (hcause : allowed cause) :
    CausesOnly allowed (Checked.reject cause : Checked ε α) := by
  intro _ h
  cases h
  exact hcause

theorem check {P : Prop} [Decidable P] (a : α) {cause : ε} (hcause : allowed cause) :
    CausesOnly allowed (if P then .ok a else Checked.reject cause : Checked ε α) := by
  split
  · exact ok a
  · exact reject hcause

theorem bind {x : Checked ε α} {g : α → Checked ε β} (hx : CausesOnly allowed x)
    (hg : ∀ a, CausesOnly allowed (g a)) : CausesOnly allowed (x >>= g) := by
  intro cause h
  rcases bind_eq_error.mp h with hfirst | ⟨a, -, hrest⟩
  · exact hx cause hfirst
  · exact hg a cause hrest

theorem ofShape {allowed : QuantError → Prop} (hshape : ∀ cause, allowed (.shapeMismatch cause))
    (x : Checked ShapeError α) : CausesOnly allowed (Checked.ofShape x) := by
  intro cause h
  cases x with
  | ok a => cases h
  | error stop =>
      cases stop with
      | rejected inner =>
          cases h
          exact hshape inner
      | fault f => cases h

end CausesOnly

end Checked

/-- The causes that are found before a plan is made: all but too little room for an operand
and a width without lanes. -/
def QuantError.Early : QuantError → Prop
  | .bufferTooSmall _ _ _ => False
  | .unsupportedSimd _ => False
  | _ => True

theorem Config.ofParameters_early (bits groupSize : Nat) :
    Checked.CausesOnly QuantError.Early
      (Checked.ofExcept (Config.ofParameters bits groupSize)) := by
  intro cause h
  cases hconfig : Config.ofParameters bits groupSize with
  | ok config =>
      rw [hconfig] at h
      cases h
  | error found =>
      rw [hconfig] at h
      cases h
      rcases bind_eq_error.mp hconfig with hwidth | ⟨width, -, hrest⟩
      · unfold CodeWidth.ofBits at hwidth
        split at hwidth <;> cases hwidth
        trivial
      · rcases bind_eq_error.mp hrest with hgroup | ⟨group, -, hrest⟩
        · unfold GroupSize.ofSize at hgroup
          split at hgroup <;> cases hgroup
          trivial
        · cases hrest

theorem Operands.validate_early (operands : Operands) (out : View) (config : Config)
    (transposed : Bool) :
    Checked.CausesOnly QuantError.Early (operands.validate out config transposed) := by
  have htype : Checked.CausesOnly QuantError.Early (requireFloatType operands.x) := by
    simp only [requireFloatType]
    split
    · exact .ok _
    · exact .reject trivial
  refine .bind htype fun _ => ?_
  refine .bind (.check _ trivial) fun _ => ?_
  refine .bind (.check _ trivial) fun _ => ?_
  refine .bind (.check _ trivial) fun _ => ?_
  refine .bind (.check _ trivial) fun _ => ?_
  refine .bind (.ofShape (fun _ => trivial) _) fun _ => ?_
  refine .bind (.check _ trivial) fun _ => ?_
  refine .bind (.check _ trivial) fun _ => ?_
  refine .bind (.check _ trivial) fun _ => ?_
  refine .bind (.check _ trivial) fun _ => ?_
  refine .bind (.check _ trivial) fun _ => ?_
  exact .ok _

/-! ## Plans carried out -/

variable {operands : Operands} {indices : GatherIndices} {out : View} {bits groupSize : Nat}
  {config : Config} {transposed : Bool} {settled : FloatType × Dims} {stop : Stop QuantError}

namespace Plan

variable {planned : Checked QuantError Plan}

/-- A call returns when its plan stands. -/
theorem perform_eq_ok_iff (h : ∀ plan, planned = .ok plan → plan.Prepared operands out)
    (simd : Bool) :
    (perform planned simd operands out.buffer).1 = .ok () ↔ ∃ plan, planned = .ok plan := by
  cases planned with
  | error stop =>
      constructor
      · intro hok
        cases hok
      · rintro ⟨plan, hplan⟩
        cases hplan
  | ok plan =>
      obtain ⟨data, -, old, -, -, hexecute⟩ := (h plan rfl).execute simd
      rw [perform, hexecute]
      exact ⟨fun _ => ⟨plan, rfl⟩, fun _ => rfl⟩

theorem perform_eq_error_iff (h : ∀ plan, planned = .ok plan → plan.Prepared operands out)
    (simd : Bool) :
    (perform planned simd operands out.buffer).1 = .error stop ↔ planned = .error stop := by
  cases planned with
  | error stop' =>
      constructor
      · intro herror
        cases herror
        rfl
      · intro herror
        cases herror
        rfl
  | ok plan =>
      obtain ⟨data, -, old, -, -, hexecute⟩ := (h plan rfl).execute simd
      rw [perform, hexecute]
      constructor
      · intro herror
        cases herror
      · intro herror
        cases herror

end Plan

/-! ## Broadcast batches -/

/-- What stops a broadcast product whose parameters and operands are in order: an operand
whose batches do not broadcast, or more batches than one allocation has entries for. -/
inductive BroadcastStop (operands : Operands) (target : List Nat) : Stop QuantError → Prop where
  | apart (view : View) (hview : view ∈ [operands.x, operands.w, operands.scales, operands.biases])
      (hto : ¬ BroadcastsTo (view.layout.batchShape 2) target) :
      BroadcastStop operands target
        (.rejected (.shapeMismatch (.notBroadcastable (view.layout.batchShape 2) target)))
  | storage (hlimit : storageLimit < extentProduct target * Offsets.bytes) :
      BroadcastStop operands target (.fault .outOfStorage)

theorem requireBroadcast_eq_error {view : View} {target : List Nat}
    (h : requireBroadcast view target = .error stop) :
    ¬ BroadcastsTo (view.layout.batchShape 2) target ∧
      stop = .rejected (.shapeMismatch (.notBroadcastable (view.layout.batchShape 2) target)) := by
  rcases broadcastStrides_cases target view.layout.length_batchStrides with
    ⟨-, found, hfound, -⟩ | ⟨hto, hreject⟩
  · rw [requireBroadcast, hfound, Checked.ofShape_ok] at h
    cases h
  · rw [requireBroadcast, hreject] at h
    cases h
    exact ⟨hto, rfl⟩

theorem BroadcastStop.not_accepted {target : List Nat} (h : BroadcastStop operands target stop) :
    ¬ (operands.BroadcastTo target ∧
      extentProduct target * Offsets.bytes ≤ storageLimit) := by
  rintro ⟨hto, hstorage⟩
  cases h with
  | apart view hview hnot =>
      simp only [List.mem_cons, List.not_mem_nil, or_false] at hview
      rcases hview with rfl | rfl | rfl | rfl
      · exact hnot hto.x
      · exact hnot hto.w
      · exact hnot hto.scales
      · exact hnot hto.biases
  | storage hlimit => exact Nat.not_le_of_lt hlimit hstorage

/-- Nothing else stops a broadcast plan. -/
theorem Plan.batched_stops (hconfig : Config.ofParameters bits groupSize = .ok config)
    (hvalidate : operands.validate out config transposed = .ok settled)
    (h : Plan.batched operands out bits groupSize transposed = .error stop) :
    BroadcastStop operands (outBatchShape out) stop := by
  by_cases hto : operands.BroadcastTo (outBatchShape out)
  · rw [Plan.batched_eq hconfig hvalidate hto] at h
    rcases bind_eq_error.mp h with hstorage | ⟨_, -, hrest⟩
    · obtain ⟨f, hf, rfl⟩ := Checked.ofFault_eq_error.mp hstorage
      obtain ⟨rfl, hlimit⟩ := requireStorage_eq_error_iff.mp hf
      exact .storage hlimit
    · cases hrest
  · have hsettled := Operands.validate_eq_ok hvalidate
    have hblocks := requireBlocks_of_dense hsettled.outDense hsettled.fitted.out
    simp only [Plan.batched, hconfig, Checked.ofExcept_ok, ok_bind, hvalidate, hblocks] at h
    have hstop : ∀ view ∈ [operands.x, operands.w, operands.scales, operands.biases],
        requireBroadcast view (outBatchShape out) = .error stop →
        BroadcastStop operands (outBatchShape out) stop := by
      intro view hview herror
      obtain ⟨hapart, rfl⟩ := requireBroadcast_eq_error herror
      exact .apart view hview hapart
    rcases bind_eq_error.mp h with hx | ⟨x, hx, h⟩
    · exact hstop _ (by simp) hx
    rcases bind_eq_error.mp h with hw | ⟨w, hw, h⟩
    · exact hstop _ (by simp) hw
    rcases bind_eq_error.mp h with hscales | ⟨scales, hscales, h⟩
    · exact hstop _ (by simp) hscales
    rcases bind_eq_error.mp h with hbiases | ⟨biases, hbiases, h⟩
    · exact hstop _ (by simp) hbiases
    exact absurd ⟨(requireBroadcast_eq_ok hx).1, (requireBroadcast_eq_ok hw).1,
      (requireBroadcast_eq_ok hscales).1, (requireBroadcast_eq_ok hbiases).1⟩ hto

theorem Plan.batched_ok_iff (hconfig : Config.ofParameters bits groupSize = .ok config)
    (hvalidate : operands.validate out config transposed = .ok settled) :
    (∃ plan, Plan.batched operands out bits groupSize transposed = .ok plan) ↔
      operands.BroadcastTo (outBatchShape out) ∧
        extentProduct (outBatchShape out) * Offsets.bytes ≤ storageLimit := by
  constructor
  · rintro ⟨plan, hplan⟩
    obtain ⟨-, -, -, -, -, -, hto, -⟩ := Plan.batched_eq_ok hplan
    refine ⟨hto, ?_⟩
    rw [Plan.batched_eq hconfig hvalidate hto] at hplan
    obtain ⟨_, hstorage, -⟩ := bind_eq_ok.mp hplan
    exact requireStorage_eq_ok_iff.mp (Checked.ofFault_eq_ok.mp hstorage)
  · intro haccepted
    cases hplan : Plan.batched operands out bits groupSize transposed with
    | ok plan => exact ⟨plan, rfl⟩
    | error stop =>
        exact absurd haccepted (Plan.batched_stops hconfig hvalidate hplan).not_accepted

/-! ## Batches by index -/

/-- All elements of an index view name batches. -/
def View.Names (view : View) (batches : Nat) : Prop :=
  ∀ i < view.layout.size, ∃ index, view.IndexAt batches i index

theorem View.element?_of_single {view : View} {word : UInt32}
    (hbuffer : view.buffer = ⟨.u32, [word]⟩) {coords : List Nat}
    (hcoords : Within coords view.layout.shape) : view.element? .u32 coords = some word := by
  have hdata : view.as? .u32 = some [word] := by
    rw [View.as?, hbuffer]
    rfl
  have hplace := view.place_lt_length hcoords
  rw [← Buffer.length_of_as? hdata] at hplace
  rw [View.element?, hdata, Option.bind_eq_bind, Option.bind_some, View.shape, if_pos hcoords,
    Nat.lt_one_iff.mp hplace]
  rfl

theorem View.names_of_single {view : View} {word : UInt32}
    (hbuffer : view.buffer = ⟨.u32, [word]⟩) {batches : Nat} (hword : word.toNat < batches) :
    view.Names batches := by
  intro i hi
  have hcoords := coordinates_within i (pos_of_lt_extentProduct hi)
  exact ⟨word.toNat, word, View.element?_of_single hbuffer hcoords, rfl, hword⟩

/-- What a gathered product needs of its indices. -/
structure Operands.GatheredBy (operands : Operands) (indices : GatherIndices) (out : View) :
    Prop where
  lhsType : indices.lhs.dtype = .u32
  rhsType : indices.rhs.dtype = .u32
  shape : indices.lhs.shape = indices.rhs.shape
  count : extentProduct (outBatchShape out) = indices.lhs.layout.size
  alike : operands.BatchedAlike
  lhs : indices.lhs.Names (extentProduct (operands.x.layout.batchShape 2))
  rhs : indices.rhs.Names (extentProduct (operands.w.layout.batchShape 2))

/-- What is wrong with indices: one of them names no batch. -/
inductive IndexStop (operand : Operand) (view : View) (batches : Nat) : Stop QuantError → Prop where
  | outside (i : Nat) (hi : i < view.layout.size) (word : UInt32)
      (hword : view.element? .u32 (coordinates view.shape i) = some word)
      (hbatches : batches ≤ word.toNat) :
      IndexStop operand view batches
        (.rejected (.indexOutOfBounds operand word.toNat batches))

/-- What stops a gathered product whose parameters and operands are in order: its indices, how
they go with the output and the weights, or more pairs than one allocation has entries for. -/
inductive GatherStop (operands : Operands) (indices : GatherIndices) (out : View) :
    Stop QuantError → Prop where
  | lhsType (h : indices.lhs.dtype ≠ .u32) :
      GatherStop operands indices out
        (.rejected (.dtypeMismatch .lhsIndices .u32 indices.lhs.dtype))
  | rhsType (h : indices.rhs.dtype ≠ .u32) :
      GatherStop operands indices out
        (.rejected (.dtypeMismatch .rhsIndices .u32 indices.rhs.dtype))
  | shapes (h : indices.lhs.shape ≠ indices.rhs.shape) :
      GatherStop operands indices out
        (.rejected (.shapeMismatch (.indexMismatch indices.lhs.shape indices.rhs.shape)))
  | count (h : extentProduct (outBatchShape out) ≠ indices.lhs.layout.size) :
      GatherStop operands indices out
        (.rejected (.shapeMismatch (.gatherCount (outBatchShape out) indices.lhs.layout.size)))
  | scales (h : operands.scales.layout.batchShape 2 ≠ operands.w.layout.batchShape 2) :
      GatherStop operands indices out
        (.rejected (.shapeMismatch (.batchMismatch .scales (operands.scales.layout.batchShape 2)
          (operands.w.layout.batchShape 2))))
  | biases (h : operands.biases.layout.batchShape 2 ≠ operands.w.layout.batchShape 2) :
      GatherStop operands indices out
        (.rejected (.shapeMismatch (.batchMismatch .biases (operands.biases.layout.batchShape 2)
          (operands.w.layout.batchShape 2))))
  | lhs {stop : Stop QuantError}
      (h : IndexStop .lhsIndices indices.lhs
        (extentProduct (operands.x.layout.batchShape 2)) stop) :
      GatherStop operands indices out stop
  | rhs {stop : Stop QuantError}
      (h : IndexStop .rhsIndices indices.rhs
        (extentProduct (operands.w.layout.batchShape 2)) stop) :
      GatherStop operands indices out stop
  | storage (hlimit : storageLimit < extentProduct (outBatchShape out) * Offsets.bytes) :
      GatherStop operands indices out (.fault .outOfStorage)

theorem IndexStop.not_names {operand : Operand} {view : View} {batches : Nat}
    (h : IndexStop operand view batches stop) : ¬ view.Names batches := by
  intro hnames
  obtain ⟨i, hi, word, hword, hbatches⟩ := h
  obtain ⟨index, word', hword', rfl, hlt⟩ := hnames i hi
  rw [hword] at hword'
  cases hword'
  exact Nat.not_lt_of_le hbatches hlt

/-- What stops a product whose indices are in order is that there is no storage. -/
theorem GatherStop.lacks_storage (h : GatherStop operands indices out stop)
    (hgathered : operands.GatheredBy indices out) :
    stop = .fault .outOfStorage ∧
      storageLimit < extentProduct (outBatchShape out) * Offsets.bytes := by
  cases h with
  | lhsType h => exact absurd hgathered.lhsType h
  | rhsType h => exact absurd hgathered.rhsType h
  | shapes h => exact absurd hgathered.shape h
  | count h => exact absurd hgathered.count h
  | scales h => exact absurd hgathered.alike.scales h
  | biases h => exact absurd hgathered.alike.biases h
  | lhs h => exact absurd hgathered.lhs h.not_names
  | rhs h => exact absurd hgathered.rhs h.not_names
  | storage hlimit => exact ⟨rfl, hlimit⟩

theorem requireIndices_stops {operand : Operand} {view : View} {batches : Nat}
    (hdtype : view.dtype = .u32) (h : requireIndices operand view batches = .error stop) :
    IndexStop operand view batches stop ∨
      (stop = .fault .outOfStorage ∧ storageLimit < view.layout.size * Offsets.bytes) := by
  obtain ⟨data, hdata⟩ := View.as?_of_dtype hdtype
  obtain ⟨i, word, hi, hword, ⟨hbatches, rfl⟩ | ⟨rfl, hlimit⟩⟩ :=
    exists_of_requireIndices_error hdata h
  · exact .inl (.outside i hi word hword hbatches)
  · exact .inr ⟨rfl, storage_of_indices hi hlimit⟩

/-- Nothing else stops a gathered plan. -/
theorem Plan.gathered_stops (hconfig : Config.ofParameters bits groupSize = .ok config)
    (hvalidate : operands.validate out config transposed = .ok settled)
    (h : Plan.gathered operands indices out bits groupSize transposed = .error stop) :
    GatherStop operands indices out stop := by
  have hsettled := Operands.validate_eq_ok hvalidate
  have hblocks := requireBlocks_of_dense hsettled.outDense hsettled.fitted.out
  simp only [Plan.gathered, hconfig, Checked.ofExcept_ok, ok_bind, hvalidate] at h
  rcases bind_eq_error.mp h with hstop | ⟨_, hlhsType, h⟩
  · obtain ⟨hne, rfl⟩ := Checked.not_of_check hstop
    exact .lhsType hne
  rcases bind_eq_error.mp h with hstop | ⟨_, hrhsType, h⟩
  · obtain ⟨hne, rfl⟩ := Checked.not_of_check hstop
    exact .rhsType hne
  rcases bind_eq_error.mp h with hstop | ⟨_, hshape, h⟩
  · obtain ⟨hne, rfl⟩ := Checked.not_of_check hstop
    exact .shapes hne
  rcases bind_eq_error.mp h with hstop | ⟨_, hcount, h⟩
  · obtain ⟨hne, rfl⟩ := Checked.not_of_check hstop
    exact .count hne
  have hshape := Checked.of_check hshape
  have hcount := Checked.of_check hcount
  have hsize : indices.rhs.layout.size = indices.lhs.layout.size :=
    congrArg extentProduct hshape.symm
  rw [← hcount, hblocks, ok_bind] at h
  rcases bind_eq_error.mp h with hstop | ⟨_, hscales, h⟩
  · obtain ⟨hne, rfl⟩ := Checked.not_of_check hstop
    exact .scales hne
  rcases bind_eq_error.mp h with hstop | ⟨_, hbiases, h⟩
  · obtain ⟨hne, rfl⟩ := Checked.not_of_check hstop
    exact .biases hne
  rcases bind_eq_error.mp h with hstop | ⟨lhs, hlhs, h⟩
  · rcases requireIndices_stops (Checked.of_check hlhsType) hstop with hindex | ⟨rfl, hlimit⟩
    · exact .lhs hindex
    · exact .storage (by rwa [hcount])
  rcases bind_eq_error.mp h with hstop | ⟨rhs, hrhs, h⟩
  · rcases requireIndices_stops (Checked.of_check hrhsType) hstop with hindex | ⟨rfl, hlimit⟩
    · exact .rhs hindex
    · exact .storage (by rwa [hcount, ← hsize])
  -- The indices name batches that exist, so their matrices have places, and all that can be
  -- missing is the storage to list them in.
  rw [Offsets.ofPairs_eq ⟨Checked.of_check hscales, Checked.of_check hbiases⟩
    (requireIndices_eq_ok hlhs) (requireIndices_eq_ok hrhs) hshape, ← hcount] at h
  rcases bind_eq_error.mp h with hstop | ⟨_, -, hrest⟩
  · obtain ⟨f, hf, rfl⟩ := Checked.ofFault_eq_error.mp hstop
    rcases bind_eq_error.mp hf with hf | ⟨_, -, hrest⟩
    · obtain ⟨rfl, hlimit⟩ := requireStorage_eq_error_iff.mp hf
      exact .storage hlimit
    · cases hrest
  · cases hrest

theorem names_of_forall₂ {view : View} {batches : Nat} {found : List Nat}
    (h : List.Forall₂ (view.IndexAt batches) (List.range view.layout.size) found) :
    view.Names batches := by
  intro i hi
  have hfound : i < found.length := by
    rw [← h.length_eq, List.length_range]
    exact hi
  have hat := h.get (by rwa [List.length_range]) hfound
  rw [List.get_eq_getElem, List.getElem_range] at hat
  exact ⟨_, hat⟩

/-- A gathered product is planned when the indices name a pair of batches for every block and
the plan of these has storage. -/
theorem Plan.gathered_ok_iff (hconfig : Config.ofParameters bits groupSize = .ok config)
    (hvalidate : operands.validate out config transposed = .ok settled) :
    (∃ plan, Plan.gathered operands indices out bits groupSize transposed = .ok plan) ↔
      operands.GatheredBy indices out ∧
        extentProduct (outBatchShape out) * Offsets.bytes ≤ storageLimit := by
  constructor
  · rintro ⟨plan, hplan⟩
    have hdtypes : indices.lhs.dtype = .u32 ∧ indices.rhs.dtype = .u32 := by
      obtain ⟨_, -, h⟩ := bind_eq_ok.mp hplan
      obtain ⟨_, -, h⟩ := bind_eq_ok.mp h
      obtain ⟨_, hlhs, h⟩ := bind_eq_ok.mp h
      obtain ⟨_, hrhs, -⟩ := bind_eq_ok.mp h
      exact ⟨Checked.of_check hlhs, Checked.of_check hrhs⟩
    obtain ⟨-, -, -, -, lhs, rhs, -, -, halike, hshape, hcount, -, -, hlhs, hrhs, hstorage, -⟩ :=
      Plan.gathered_eq_ok hplan
    rw [← hcount] at hstorage
    exact ⟨⟨hdtypes.1, hdtypes.2, hshape, hcount, halike, names_of_forall₂ hlhs,
      names_of_forall₂ hrhs⟩, hstorage⟩
  · rintro ⟨hgathered, hstorage⟩
    cases hplan : Plan.gathered operands indices out bits groupSize transposed with
    | ok plan => exact ⟨plan, rfl⟩
    | error stop =>
        obtain ⟨-, hlimit⟩ := (Plan.gathered_stops hconfig hvalidate hplan).lacks_storage hgathered
        exact absurd hstorage (Nat.not_le_of_lt hlimit)

theorem Plan.gathered_eq_outOfStorage (hconfig : Config.ofParameters bits groupSize = .ok config)
    (hvalidate : operands.validate out config transposed = .ok settled)
    (hgathered : operands.GatheredBy indices out)
    (hlimit : storageLimit < extentProduct (outBatchShape out) * Offsets.bytes) :
    Plan.gathered operands indices out bits groupSize transposed =
      .error (.fault .outOfStorage) := by
  cases hplan : Plan.gathered operands indices out bits groupSize transposed with
  | ok plan =>
      obtain ⟨-, hstorage⟩ := (Plan.gathered_ok_iff hconfig hvalidate).mp ⟨plan, hplan⟩
      exact absurd hstorage (Nat.not_le_of_lt hlimit)
  | error stop =>
      obtain ⟨rfl, -⟩ := (Plan.gathered_stops hconfig hvalidate hplan).lacks_storage hgathered
      rfl

/-! ## Calls -/

theorem exists_validate {α : Type} {rest : Config → FloatType × Dims → Checked QuantError α}
    {a : α}
    (h : (do
      let config ← Checked.ofExcept (Config.ofParameters bits groupSize)
      let settled ← operands.validate out config transposed
      rest config settled) = .ok a) :
    ∃ config settled, Config.ofParameters bits groupSize = .ok config ∧
      operands.validate out config transposed = .ok settled := by
  obtain ⟨config, hconfig, h⟩ := bind_eq_ok.mp h
  obtain ⟨settled, hvalidate, -⟩ := bind_eq_ok.mp h
  exact ⟨config, settled, Checked.ofExcept_eq_ok.mp hconfig, hvalidate⟩

theorem early_or_validate {α : Type} {rest : Config → FloatType × Dims → Checked QuantError α}
    {cause : QuantError}
    (h : (do
      let config ← Checked.ofExcept (Config.ofParameters bits groupSize)
      let settled ← operands.validate out config transposed
      rest config settled) = .error (.rejected cause)) :
    cause.Early ∨ ∃ config settled, Config.ofParameters bits groupSize = .ok config ∧
      operands.validate out config transposed = .ok settled := by
  rcases bind_eq_error.mp h with hstop | ⟨config, hconfig, h⟩
  · exact .inl (Config.ofParameters_early bits groupSize cause hstop)
  rcases bind_eq_error.mp h with hstop | ⟨settled, hvalidate, -⟩
  · exact .inl (Operands.validate_early operands out config transposed cause hstop)
  exact .inr ⟨config, settled, Checked.ofExcept_eq_ok.mp hconfig, hvalidate⟩

theorem Plan.batched_early (operands : Operands) (out : View) (bits groupSize : Nat)
    (transposed : Bool) :
    Checked.CausesOnly QuantError.Early
      (Plan.batched operands out bits groupSize transposed) := by
  intro cause h
  rcases early_or_validate h with hearly | ⟨config, settled, hconfig, hvalidate⟩
  · exact hearly
  · cases Plan.batched_stops hconfig hvalidate h
    trivial

theorem Plan.gathered_early (operands : Operands) (indices : GatherIndices) (out : View)
    (bits groupSize : Nat) (transposed : Bool) :
    Checked.CausesOnly QuantError.Early
      (Plan.gathered operands indices out bits groupSize transposed) := by
  intro cause h
  rcases early_or_validate h with hearly | ⟨config, settled, hconfig, hvalidate⟩
  · exact hearly
  · cases Plan.gathered_stops hconfig hvalidate h with
    | lhs hindex =>
        cases hindex
        trivial
    | rhs hindex =>
        cases hindex
        trivial
    | _ => trivial

theorem quantizedMatmul_ok_iff (simd : Bool) :
    (quantizedMatmul simd operands out bits groupSize transposed).1 = .ok () ↔
      ∃ plan, Plan.batched operands out bits groupSize transposed = .ok plan :=
  Plan.perform_eq_ok_iff (fun _ hplan => Plan.batched_prepared hplan) simd

theorem quantizedMatmul_error_iff (simd : Bool) :
    (quantizedMatmul simd operands out bits groupSize transposed).1 = .error stop ↔
      Plan.batched operands out bits groupSize transposed = .error stop :=
  Plan.perform_eq_error_iff (fun _ hplan => Plan.batched_prepared hplan) simd

theorem gatheredMatmul_ok_iff (simd : Bool) :
    (gatheredMatmul simd operands indices out bits groupSize transposed).1 = .ok () ↔
      ∃ plan, Plan.gathered operands indices out bits groupSize transposed = .ok plan :=
  Plan.perform_eq_ok_iff (fun _ hplan => Plan.gathered_prepared hplan) simd

theorem gatheredMatmul_error_iff (simd : Bool) :
    (gatheredMatmul simd operands indices out bits groupSize transposed).1 = .error stop ↔
      Plan.gathered operands indices out bits groupSize transposed = .error stop :=
  Plan.perform_eq_error_iff (fun _ hplan => Plan.gathered_prepared hplan) simd

/-- A broadcast product returns exactly when its parameters and operands are in order, their
batches broadcast to those of the output, and the plan fits one allocation; a gathered
product when they are, the indices name a pair of batches for every block, and the plan fits
one allocation.  Behind the checks of parameters and operands nothing but these is found
wrong, and neither product is ever rejected for too little room or for a width without
lanes. -/
theorem products_verdict (simd : Bool) (operands : Operands) (indices : GatherIndices) (out : View)
    (bits groupSize : Nat) (transposed : Bool) :
    let dense := (quantizedMatmul simd operands out bits groupSize transposed).1
    let gathered := (gatheredMatmul simd operands indices out bits groupSize transposed).1
    (dense = .ok () ↔ ∃ config settled, Config.ofParameters bits groupSize = .ok config ∧
      operands.validate out config transposed = .ok settled ∧
      operands.BroadcastTo (outBatchShape out) ∧
      extentProduct (outBatchShape out) * Offsets.bytes ≤ storageLimit) ∧
    (gathered = .ok () ↔ ∃ config settled, Config.ofParameters bits groupSize = .ok config ∧
      operands.validate out config transposed = .ok settled ∧
      operands.GatheredBy indices out ∧
      extentProduct (outBatchShape out) * Offsets.bytes ≤ storageLimit) ∧
    (∀ config settled, Config.ofParameters bits groupSize = .ok config →
      operands.validate out config transposed = .ok settled → ∀ stop,
      (dense = .error stop → BroadcastStop operands (outBatchShape out) stop) ∧
      (gathered = .error stop → GatherStop operands indices out stop)) ∧
    Checked.CausesOnly QuantError.Early dense ∧
    Checked.CausesOnly QuantError.Early gathered := by
  intro dense gathered
  refine ⟨?_, ?_, fun config settled hconfig hvalidate stop => ⟨fun hstop => ?_, fun hstop => ?_⟩,
    fun cause hstop => ?_, fun cause hstop => ?_⟩
  · rw [quantizedMatmul_ok_iff simd]
    constructor
    · rintro ⟨plan, hplan⟩
      obtain ⟨config, settled, hconfig, hvalidate⟩ := exists_validate hplan
      exact ⟨config, settled, hconfig, hvalidate,
        (Plan.batched_ok_iff hconfig hvalidate).mp ⟨plan, hplan⟩⟩
    · rintro ⟨config, settled, hconfig, hvalidate, hbatches⟩
      exact (Plan.batched_ok_iff hconfig hvalidate).mpr hbatches
  · rw [gatheredMatmul_ok_iff simd]
    constructor
    · rintro ⟨plan, hplan⟩
      obtain ⟨config, settled, hconfig, hvalidate⟩ := exists_validate hplan
      exact ⟨config, settled, hconfig, hvalidate,
        (Plan.gathered_ok_iff hconfig hvalidate).mp ⟨plan, hplan⟩⟩
    · rintro ⟨config, settled, hconfig, hvalidate, hgathered⟩
      exact (Plan.gathered_ok_iff hconfig hvalidate).mpr hgathered
  · exact Plan.batched_stops hconfig hvalidate ((quantizedMatmul_error_iff simd).mp hstop)
  · exact Plan.gathered_stops hconfig hvalidate ((gatheredMatmul_error_iff simd).mp hstop)
  · exact Plan.batched_early _ _ _ _ _ cause ((quantizedMatmul_error_iff simd).mp hstop)
  · exact Plan.gathered_early _ _ _ _ _ _ cause ((gatheredMatmul_error_iff simd).mp hstop)

/-- One row repeated by a stride of zero, and weights without batches: the one weight batch
has the index zero, and no other. -/
theorem products_verdict_repeated_row :
    let x : View := ⟨⟨.float .f32, List.replicate 32 0⟩, ⟨[2, 1, 32], [0, 32, 1], rfl⟩,
      32, rfl, Nat.le_refl 32⟩
    let w : View := ⟨⟨.u32, [0, 0, 0, 0]⟩, .contiguous [1, 4], 4, rfl, Nat.le_refl 4⟩
    let scales : View := ⟨⟨.float .f32, [0]⟩, .contiguous [1, 1], 1, rfl, Nat.le_refl 1⟩
    let out : View := ⟨⟨.float .f32, [.nan, .nan]⟩, .contiguous [2, 1, 1], 2, rfl, Nat.le_refl 2⟩
    let operands : Operands := ⟨x, w, scales, scales⟩
    let twice (word : UInt32) : View := ⟨⟨.u32, [word]⟩, ⟨[2], [0], rfl⟩, 1, rfl, Nat.le_refl 1⟩
    (quantizedMatmul true operands out 4 32 true).1 = .ok () ∧
    (gatheredMatmul true operands ⟨twice 1, twice 0⟩ out 4 32 true).1 = .ok () ∧
    ∃ stop, (gatheredMatmul true operands ⟨twice 0, twice 1⟩ out 4 32 true).1 = .error stop ∧
      GatherStop operands ⟨twice 0, twice 1⟩ out stop := by
  intro x w scales out operands twice
  have hvalidate : operands.validate out ⟨.four, .g32⟩ true = .ok (.f32, ⟨1, 1, 32⟩) := rfl
  have hverdict := fun lhs rhs =>
    products_verdict true operands ⟨twice lhs, twice rhs⟩ out 4 32 true
  have hnames : ∀ word batches, UInt32.toNat word < batches → (twice word).Names batches :=
    fun word _ hword => View.names_of_single rfl hword
  obtain ⟨hdense, -⟩ := hverdict 0 0
  obtain ⟨-, hgathered, -⟩ := hverdict 1 0
  obtain ⟨-, hrejected, hstops, -⟩ := hverdict 0 1
  refine ⟨hdense.mpr ⟨_, _, rfl, hvalidate, ?_, by decide⟩,
    hgathered.mpr ⟨_, _, rfl, hvalidate, ⟨rfl, rfl, rfl, rfl, ⟨rfl, rfl⟩,
      hnames 1 2 (by decide), hnames 0 1 (by decide)⟩, by decide⟩, ?_⟩
  · have hnone : BroadcastsTo [] [2] := ⟨Nat.zero_le 1, .nil⟩
    exact ⟨.refl [2], hnone, hnone, hnone⟩
  · cases hcall : (gatheredMatmul true operands ⟨twice 0, twice 1⟩ out 4 32 true).1 with
    | error stop => exact ⟨stop, rfl, (hstops _ _ rfl hvalidate stop).2 hcall⟩
    | ok _ =>
        obtain ⟨-, -, -, -, hneeds, -⟩ := hrejected.mp hcall
        obtain ⟨index, word, hword, rfl, hlt⟩ := hneeds.rhs 0 (by decide)
        have hshown : (twice 1).element? .u32 (coordinates [2] 0) = some 1 :=
          View.element?_of_single rfl (by decide)
        have hword : some 1 = some word := hshown.symm.trans hword
        cases hword
        exact absurd hlt (by decide)

/-- Views of `2 ^ 58` batches without elements: the parameters and the operands are in order, the
batches broadcast, and one index repeated by a stride of zero names a pair of batches for
every block, yet neither call returns. -/
theorem products_verdict_not_storage :
    let x : View :=
      ⟨⟨.float .f32, []⟩, .contiguous [288230376151711744, 0, 32], 0, rfl, Nat.le_refl 0⟩
    let w : View := ⟨⟨.u32, []⟩, .contiguous [0, 4], 0, rfl, Nat.le_refl 0⟩
    let scales : View := ⟨⟨.float .f32, []⟩, .contiguous [0, 1], 0, rfl, Nat.le_refl 0⟩
    let out : View :=
      ⟨⟨.float .f32, []⟩, .contiguous [288230376151711744, 0, 0], 0, rfl, Nat.le_refl 0⟩
    let operands : Operands := ⟨x, w, scales, scales⟩
    let first : View :=
      ⟨⟨.u32, [0]⟩, ⟨[288230376151711744], [0], rfl⟩, 1, rfl, Nat.le_refl 1⟩
    View.contiguous ⟨.float .f32, []⟩ [288230376151711744, 0, 32] = .ok x ∧
    View.contiguous ⟨.u32, []⟩ [0, 4] = .ok w ∧
    View.contiguous ⟨.float .f32, []⟩ [0, 1] = .ok scales ∧
    View.contiguous ⟨.float .f32, []⟩ [288230376151711744, 0, 0] = .ok out ∧
    View.strided ⟨.u32, [0]⟩ [288230376151711744] [0] = .ok first ∧
    Config.ofParameters 4 32 = .ok ⟨.four, .g32⟩ ∧
    operands.validate out ⟨.four, .g32⟩ true = .ok (.f32, ⟨0, 0, 32⟩) ∧
    operands.BroadcastTo (outBatchShape out) ∧
    (quantizedMatmul true operands out 4 32 true).1 = .error (.fault .outOfStorage) ∧
    operands.GatheredBy ⟨first, first⟩ out ∧
    (gatheredMatmul true operands ⟨first, first⟩ out 4 32 true).1 =
      .error (.fault .outOfStorage) := by
  intro x w scales out operands first
  have hnone : BroadcastsTo [] [288230376151711744] := ⟨Nat.zero_le 1, .nil⟩
  have hto : operands.BroadcastTo (outBatchShape out) :=
    ⟨.refl [288230376151711744], hnone, hnone, hnone⟩
  have hvalidate : operands.validate out ⟨.four, .g32⟩ true = .ok (.f32, ⟨0, 0, 32⟩) := rfl
  have hstorage : storageLimit < extentProduct (outBatchShape out) * Offsets.bytes := by
    have hbatches : extentProduct (outBatchShape out) = 288230376151711744 := rfl
    rw [hbatches]
    decide
  have hfirst : View.ofLayout first.buffer first.layout = .ok first :=
    View.ofLayout_eq_ok rfl (Nat.le_refl 1)
  have hnames : ∀ batches, 0 < batches → first.Names batches :=
    fun batches hpos => View.names_of_single rfl (show (0 : UInt32).toNat < batches from hpos)
  have hgathered : operands.GatheredBy ⟨first, first⟩ out :=
    ⟨rfl, rfl, rfl, rfl, ⟨rfl, rfl⟩, hnames _ (by decide), hnames _ (by decide)⟩
  refine ⟨View.ofLayout_eq_ok rfl (Nat.zero_le _), View.ofLayout_eq_ok rfl (Nat.zero_le _),
    View.ofLayout_eq_ok rfl (Nat.zero_le _), View.ofLayout_eq_ok rfl (Nat.zero_le _),
    hfirst, rfl, hvalidate, hto, ?_, hgathered, ?_⟩
  · rw [quantizedMatmul_error_iff]
    exact Plan.batched_eq_outOfStorage rfl hvalidate hto hstorage
  · rw [gatheredMatmul_error_iff]
    exact Plan.gathered_eq_outOfStorage rfl hvalidate hgathered hstorage

end SubByte
