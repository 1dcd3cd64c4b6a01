/-
# Plans — what planning gives, and where it can stop

Both plans are made of the same pieces: parameters, operands that pass their checks, an
output that is long enough, and one entry for every batch.  The entries are places of
batches of the operands (`Operands.AtBatch`), found by broadcasting in the one plan
(`batched_eq_ok`) and by index in the other (`gathered_eq_ok`), so that either plan is
ready to be carried out (`batched_prepared`, `gathered_prepared`).

Planning rejects calls, and meets no fault but one: the entries of a plan need storage, of
which there may be too little (`batched_faults`, `gathered_faults`).  The indices of a
gathered plan need storage as well, but less of it than the entries that are made of them,
so where the entries have room the indices have had it (`storage_of_indices`).
-/
import SubByte.Product.Batched
import SubByte.Product.Gathered
import SubByte.Proofs.Product.Batches

namespace SubByte

/-! ## Broadcast batches -/

/-- The place of the matrix that a view shows at batch `b` of a target. -/
def View.placeAt (view : View) (target : List Nat) (b : Nat) : Nat :=
  placeOf (pinned (view.layout.batchShape 2) target b) (view.layout.batchStrides 2)

namespace Operands

/-- The places of the matrices that the operands show at batch `b` of a target. -/
def broadcastAt (operands : Operands) (target : List Nat) (b : Nat) : Offsets :=
  ⟨operands.x.placeAt target b, operands.w.placeAt target b, operands.scales.placeAt target b,
    operands.biases.placeAt target b⟩

/-- The batches of every operand broadcast to the target. -/
structure BroadcastTo (operands : Operands) (target : List Nat) : Prop where
  x : BroadcastsTo (operands.x.layout.batchShape 2) target
  w : BroadcastsTo (operands.w.layout.batchShape 2) target
  scales : BroadcastsTo (operands.scales.layout.batchShape 2) target
  biases : BroadcastsTo (operands.biases.layout.batchShape 2) target

end Operands

variable {view : View} {operands : Operands} {out : View} {config : Config} {dims : Dims}
  {shape target : List Nat} {b : Nat}

theorem View.batchAt_pinned (h : BroadcastsTo (view.layout.batchShape 2) target)
    (hb : b < extentProduct target) :
    view.BatchAt (pinned (view.layout.batchShape 2) target b) (view.placeAt target b) :=
  ⟨pinned_within h (pos_of_lt_extentProduct hb) b, rfl⟩

theorem Operands.atBatch_broadcastAt (h : operands.BroadcastTo target)
    (hb : b < extentProduct target) : operands.AtBatch (operands.broadcastAt target b) where
  x := ⟨_, View.batchAt_pinned h.x hb⟩
  w := ⟨_, View.batchAt_pinned h.w hb⟩
  scales := ⟨_, View.batchAt_pinned h.scales hb⟩
  biases := ⟨_, View.batchAt_pinned h.biases hb⟩

/-- Strides lead to the batches that a view shows. -/
def View.LedBy (view : View) (target found : List Nat) : Prop :=
  ∀ b, (∀ d ∈ target, 0 < d) → locate target found b = .ok (view.placeAt target b)

theorem requireBroadcast_cases (view : View) (target : List Nat) :
    (BroadcastsTo (view.layout.batchShape 2) target ∧
      ∃ found, requireBroadcast view target = .ok found ∧ view.LedBy target found) ∨
    (¬ BroadcastsTo (view.layout.batchShape 2) target ∧
      ∃ cause, requireBroadcast view target = Checked.reject cause) := by
  rcases broadcastStrides_cases target view.layout.length_batchStrides with
    ⟨hbroadcast, found, hfound, hled⟩ | ⟨hbroadcast, hreject⟩
  · exact .inl ⟨hbroadcast, found, by rw [requireBroadcast, hfound, Checked.ofShape_ok], hled⟩
  · exact .inr ⟨hbroadcast, _, by rw [requireBroadcast, hreject]; rfl⟩

theorem requireBroadcast_eq_ok {found : List Nat} (h : requireBroadcast view target = .ok found) :
    BroadcastsTo (view.layout.batchShape 2) target ∧ view.LedBy target found := by
  rcases requireBroadcast_cases view target with ⟨hbroadcast, found', hfound, hled⟩ | ⟨-, _, hreject⟩
  · rw [h] at hfound
    cases hfound
    exact ⟨hbroadcast, hled⟩
  · rw [h] at hreject
    cases hreject

theorem requireBroadcast_faults (allowed : Fault → Prop) (view : View) (target : List Nat) :
    Checked.FaultsOnly allowed (requireBroadcast view target) := by
  rcases requireBroadcast_cases view target with ⟨-, found, hfound, -⟩ | ⟨-, cause, hreject⟩
  · rw [hfound]
    exact .ok _
  · rw [hreject]
    exact .reject _

theorem Offsets.ofBatches_eq {x w scales biases : List Nat} (hx : operands.x.LedBy shape x)
    (hw : operands.w.LedBy shape w) (hscales : operands.scales.LedBy shape scales)
    (hbiases : operands.biases.LedBy shape biases) :
    Offsets.ofBatches dims shape x w scales biases = (do
      requireStorage (extentProduct shape) Offsets.bytes
      return if dims.m = 0 ∨ dims.n = 0 then []
        else (List.range (extentProduct shape)).map (operands.broadcastAt shape)) := by
  have htable : tabulate (Offsets.ofBatch shape x w scales biases) 0 (extentProduct shape) =
      .ok ((List.range (extentProduct shape)).map (operands.broadcastAt shape)) := by
    rw [List.range_eq_range']
    refine tabulate_eq_ok fun b _ hb => ?_
    rw [Nat.zero_add] at hb
    have hpos := pos_of_lt_extentProduct hb
    rw [Offsets.ofBatch, hx b hpos, ok_bind, hw b hpos, ok_bind, hscales b hpos, ok_bind,
      hbiases b hpos, ok_bind]
    rfl
  simp only [Offsets.ofBatches]
  cases requireStorage (extentProduct shape) Offsets.bytes with
  | error f => rfl
  | ok _ =>
      rw [ok_bind, ok_bind, htable]
      split <;> rfl

theorem requireBlocks_faults (allowed : Fault → Prop) (out : View) (count : Nat) (dims : Dims) :
    Checked.FaultsOnly allowed (requireBlocks out count dims) := by
  refine .bind (.ofShape (.ofExcept _)) fun _ _ => ?_
  simp only [requireRoom]
  split
  · exact .reject _
  · exact .ok _

/-! ## Batches by index -/

/-- An index is the logical element of its view, and names a batch. -/
def View.IndexAt (view : View) (batches i index : Nat) : Prop :=
  ∃ word, view.element? .u32 (coordinates view.shape i) = some word ∧ word.toNat = index ∧
    index < batches

theorem requireIndex_eq (operand : Operand) {data : List UInt32} (hdata : view.as? .u32 = some data)
    (batches : Nat) {i : Nat} (hi : i < view.layout.size) :
    ∃ word, view.element? .u32 (coordinates view.shape i) = some word ∧
      requireIndex operand view.layout data batches i =
        if word.toNat < batches then .ok word.toNat
        else Checked.reject (.indexOutOfBounds operand word.toNat batches) := by
  have hpos := pos_of_lt_extentProduct hi
  have hcoords := coordinates_within i hpos
  have hplace := view.place_lt_length hcoords
  rw [← Buffer.length_of_as? hdata] at hplace
  refine ⟨data[placeOf (coordinates view.layout.shape i) view.layout.strides], ?_, ?_⟩
  · rw [View.element?, hdata, Option.bind_eq_bind, Option.bind_some, View.shape,
      if_pos hcoords, List.getElem?_eq_getElem hplace]
  · rw [requireIndex, Layout.location, locate_eq_ok i view.layout.rank_eq hpos,
      Checked.ofFault_ok, ok_bind, fetch_eq_ok hplace, Checked.ofFault_ok, ok_bind]

/-- An index that is accepted is kept unless the storage of those before it cannot grow. -/
theorem keepIndex_eq (operand : Operand) {data : List UInt32} (hdata : view.as? .u32 = some data)
    (batches : Nat) {i : Nat} (hi : i < view.layout.size) :
    ∃ word, view.element? .u32 (coordinates view.shape i) = some word ∧
      keepIndex operand view.layout data batches i =
        if word.toNat < batches then (do
          Checked.ofFault (requireStorage (2 * i) indexBytes)
          return word.toNat)
        else Checked.reject (.indexOutOfBounds operand word.toNat batches) := by
  obtain ⟨word, hword, hread⟩ := requireIndex_eq operand hdata batches hi
  refine ⟨word, hword, ?_⟩
  rw [keepIndex, hread]
  split <;> rfl

theorem requireElements_eq_ok {operand : Operand} {d : DType} {data : List d.Elem}
    (h : requireElements operand d view = .ok data) : view.as? d = some data := by
  simp only [requireElements] at h
  split at h
  · next hdata =>
      cases h
      exact hdata
  · cases h

theorem requireIndices_eq_ok {operand : Operand} {batches : Nat} {indices : List Nat}
    (h : requireIndices operand view batches = .ok indices) :
    List.Forall₂ (view.IndexAt batches) (List.range view.layout.size) indices := by
  obtain ⟨data, hdata, h⟩ := bind_eq_ok.mp h
  have hdata := requireElements_eq_ok hdata
  have htable := forall₂_of_tabulate h
  rw [← List.range_eq_range'] at htable
  refine List.forall₂_iff_zip.mpr ⟨htable.length_eq, fun {i index} hmem => ?_⟩
  have hi := List.mem_range.mp (List.of_mem_zip hmem).1
  obtain ⟨word, hword, hindex⟩ := keepIndex_eq operand hdata batches hi
  have hkept := List.forall₂_zip htable hmem
  rw [hindex] at hkept
  split at hkept
  · next hlt =>
      obtain ⟨_, -, hkept⟩ := bind_eq_ok.mp hkept
      cases hkept
      exact ⟨word, hword, rfl, hlt⟩
  · cases hkept

theorem View.lt_of_mem_indices {batches count index : Nat} {indices : List Nat}
    (h : List.Forall₂ (view.IndexAt batches) (List.range count) indices)
    (hindex : index ∈ indices) : index < batches := by
  obtain ⟨i, -, word, -, -, hlt⟩ := exists_of_mem_right h hindex
  exact hlt

/-- Reading stops at an index that names no batch, or at one that there is no storage for. -/
theorem exists_of_requireIndices_error {operand : Operand} {batches : Nat}
    {stop : Stop QuantError} {data : List UInt32} (hdata : view.as? .u32 = some data)
    (h : requireIndices operand view batches = .error stop) :
    ∃ i word, i < view.layout.size ∧
      view.element? .u32 (coordinates view.shape i) = some word ∧
      ((batches ≤ word.toNat ∧
          stop = .rejected (.indexOutOfBounds operand word.toNat batches)) ∨
        (stop = .fault .outOfStorage ∧ storageLimit < 2 * i * indexBytes)) := by
  have helements : requireElements operand .u32 view = .ok data := by
    rw [requireElements, hdata]
  rw [requireIndices, helements, ok_bind] at h
  obtain ⟨i, -, hi, hindex⟩ := exists_of_tabulate_error h
  rw [Nat.zero_add] at hi
  obtain ⟨word, hword, hkept⟩ := keepIndex_eq operand hdata batches hi
  refine ⟨i, word, hi, hword, ?_⟩
  rw [hkept] at hindex
  split at hindex
  · rcases bind_eq_error.mp hindex with hstorage | ⟨_, -, hrest⟩
    · obtain ⟨f, hf, rfl⟩ := Checked.ofFault_eq_error.mp hstorage
      obtain ⟨rfl, hlimit⟩ := requireStorage_eq_error_iff.mp hf
      exact .inr ⟨rfl, hlimit⟩
    · cases hrest
  · next hbatches =>
      cases hindex
      exact .inl ⟨Nat.le_of_not_lt hbatches, rfl⟩

/-- Indices that there is no storage for are too many for the entries of their plan. -/
theorem storage_of_indices {i count : Nat} (hi : i < count)
    (h : storageLimit < 2 * i * indexBytes) : storageLimit < count * Offsets.bytes := by
  have hbytes : 2 * i * indexBytes ≤ count * Offsets.bytes := by
    rw [indexBytes, Offsets.bytes]
    omega
  exact Nat.lt_of_lt_of_le h hbytes

theorem requireIndices_faults (operand : Operand) (view : View) (batches : Nat) :
    Checked.FaultsOnly
      (fun f => f = .outOfStorage ∧ storageLimit < view.layout.size * Offsets.bytes)
      (requireIndices operand view batches) := by
  intro f hf
  cases hdata : view.as? .u32 with
  | none =>
      rw [requireIndices, requireElements, hdata] at hf
      cases hf
  | some data =>
      obtain ⟨i, word, hi, -, ⟨-, hstop⟩ | ⟨hstop, hlimit⟩⟩ :=
        exists_of_requireIndices_error hdata hf
      · cases hstop
      · cases hstop
        exact ⟨rfl, storage_of_indices hi hlimit⟩

/-- The places of the matrices of a pair of batches. -/
def Operands.pairAt (operands : Operands) (pair : Nat × Nat) : Offsets :=
  let weights := coordinates (operands.w.layout.batchShape 2) pair.2
  ⟨placeOf (coordinates (operands.x.layout.batchShape 2) pair.1)
      (operands.x.layout.batchStrides 2),
    placeOf weights (operands.w.layout.batchStrides 2),
    placeOf weights (operands.scales.layout.batchStrides 2),
    placeOf weights (operands.biases.layout.batchStrides 2)⟩

/-- Scales and biases are batched as the weights are. -/
structure Operands.BatchedAlike (operands : Operands) : Prop where
  scales : operands.scales.layout.batchShape 2 = operands.w.layout.batchShape 2
  biases : operands.biases.layout.batchShape 2 = operands.w.layout.batchShape 2

theorem View.batchAt_coordinates {batch : List Nat} (hshape : view.layout.batchShape 2 = batch)
    {i : Nat} (hi : i < extentProduct batch) :
    view.BatchAt (coordinates batch i)
        (placeOf (coordinates batch i) (view.layout.batchStrides 2)) ∧
      locate batch (view.layout.batchStrides 2) i =
        .ok (placeOf (coordinates batch i) (view.layout.batchStrides 2)) := by
  have hpos := pos_of_lt_extentProduct hi
  have hrank := view.layout.length_batchStrides
  rw [hshape] at hrank
  exact ⟨⟨by rw [hshape]; exact coordinates_within i hpos, rfl⟩, locate_eq_ok i hrank hpos⟩

theorem Offsets.ofPair_eq_ok (halike : operands.BatchedAlike) {pair : Nat × Nat}
    (hx : pair.1 < extentProduct (operands.x.layout.batchShape 2))
    (hw : pair.2 < extentProduct (operands.w.layout.batchShape 2)) :
    operands.AtBatch (operands.pairAt pair) ∧
      Offsets.ofPair operands pair = .ok (operands.pairAt pair) := by
  obtain ⟨hxBatch, hxPlace⟩ := View.batchAt_coordinates rfl hx
  obtain ⟨hwBatch, hwPlace⟩ := View.batchAt_coordinates rfl hw
  obtain ⟨hscalesBatch, hscalesPlace⟩ := View.batchAt_coordinates halike.scales hw
  obtain ⟨hbiasesBatch, hbiasesPlace⟩ := View.batchAt_coordinates halike.biases hw
  refine ⟨⟨⟨_, hxBatch⟩, ⟨_, hwBatch⟩, ⟨_, hscalesBatch⟩, ⟨_, hbiasesBatch⟩⟩, ?_⟩
  simp only [Offsets.ofPair]
  rw [hxPlace, ok_bind, hwPlace, ok_bind, hscalesPlace, ok_bind, hbiasesPlace, ok_bind]
  rfl

theorem Offsets.ofPairs_eq (halike : operands.BatchedAlike) {l r : View} {lhs rhs : List Nat}
    (hlhs : List.Forall₂ (l.IndexAt (extentProduct (operands.x.layout.batchShape 2)))
      (List.range l.layout.size) lhs)
    (hrhs : List.Forall₂ (r.IndexAt (extentProduct (operands.w.layout.batchShape 2)))
      (List.range r.layout.size) rhs) (hshape : l.shape = r.shape) :
    Offsets.ofPairs operands (lhs.zip rhs) = (do
      requireStorage l.layout.size Offsets.bytes
      return (lhs.zip rhs).map operands.pairAt) := by
  have hlength : (lhs.zip rhs).length = l.layout.size := by
    have hsize : r.layout.size = l.layout.size := congrArg extentProduct hshape.symm
    rw [List.length_zip, ← hlhs.length_eq, ← hrhs.length_eq, List.length_range,
      List.length_range, hsize, Nat.min_self]
  have hpairs : (lhs.zip rhs).mapM (Offsets.ofPair operands) =
      .ok ((lhs.zip rhs).map operands.pairAt) :=
    mapM_eq_ok fun _ hpair =>
      (Offsets.ofPair_eq_ok halike (View.lt_of_mem_indices hlhs (List.of_mem_zip hpair).1)
        (View.lt_of_mem_indices hrhs (List.of_mem_zip hpair).2)).2
  rw [Offsets.ofPairs, hlength, hpairs]
  rfl

namespace Plan

variable {bits groupSize : Nat} {transposed : Bool} {plan : Plan}

/-- The plan of a product for every batch of a target.  There are no entries for blocks
without elements. -/
def broadcast (operands : Operands) (type : FloatType) (dims : Dims) (config : Config)
    (transposed : Bool) (target : List Nat) : Plan :=
  ⟨type, dims, config, transposed, if dims.m = 0 ∨ dims.n = 0 then []
    else (List.range (extentProduct target)).map (operands.broadcastAt target)⟩

theorem execute_of_empty (plan : Plan) (h : plan.dims.m = 0 ∨ plan.dims.n = 0) (simd : Bool)
    (operands : Operands) (out : Buffer) : plan.execute simd operands out = (.ok (), out) := by
  have hempty : plan.dims.m = 0 ∨ plan.dims.n = 0 ∨ plan.batches = [] := by
    rcases h with hm | hn
    · exact .inl hm
    · exact .inr (.inl hn)
  exact if_pos hempty

/-- The entries that are left out make no difference: with one for every batch of the target,
whether its blocks have elements or not, the plan is carried out in the same way. -/
theorem execute_broadcast (operands : Operands) (type : FloatType) (dims : Dims) (config : Config)
    (transposed : Bool) (target : List Nat) (simd : Bool) (out : Buffer) :
    (broadcast operands type dims config transposed target).execute simd operands out =
      execute ⟨type, dims, config, transposed,
        (List.range (extentProduct target)).map (operands.broadcastAt target)⟩ simd operands out := by
  by_cases h : dims.m = 0 ∨ dims.n = 0
  · rw [execute_of_empty (broadcast operands type dims config transposed target) h]
    exact (execute_of_empty _ h simd operands out).symm
  · rw [broadcast, if_neg h]

/-- What a broadcast plan is made of. -/
theorem batched_eq_ok (h : Plan.batched operands out bits groupSize transposed = .ok plan) :
    ∃ config type dims len, Config.ofParameters bits groupSize = .ok config ∧
      operands.Settled out config transposed type dims ∧
      operands.BroadcastTo (outBatchShape out) ∧ out.layout.requiredLength? = .ok len ∧
      extentProduct (outBatchShape out) * (dims.m * dims.n) ≤ len ∧
      plan = Plan.broadcast operands type dims config transposed (outBatchShape out) := by
  obtain ⟨config, hconfig, h⟩ := bind_eq_ok.mp h
  obtain ⟨settled, hsettled, h⟩ := bind_eq_ok.mp h
  obtain ⟨_, hblocks, h⟩ := bind_eq_ok.mp h
  obtain ⟨x, hx, h⟩ := bind_eq_ok.mp h
  obtain ⟨w, hw, h⟩ := bind_eq_ok.mp h
  obtain ⟨scales, hscales, h⟩ := bind_eq_ok.mp h
  obtain ⟨biases, hbiases, h⟩ := bind_eq_ok.mp h
  obtain ⟨batches, hbatches, h⟩ := bind_eq_ok.mp h
  cases h
  obtain ⟨hxTo, hxLed⟩ := requireBroadcast_eq_ok hx
  obtain ⟨hwTo, hwLed⟩ := requireBroadcast_eq_ok hw
  obtain ⟨hscalesTo, hscalesLed⟩ := requireBroadcast_eq_ok hscales
  obtain ⟨hbiasesTo, hbiasesLed⟩ := requireBroadcast_eq_ok hbiases
  obtain ⟨len, hlen, hroom⟩ := Operands.requireBlocks_eq_ok hblocks
  have hbatches := Checked.ofFault_eq_ok.mp hbatches
  rw [Offsets.ofBatches_eq hxLed hwLed hscalesLed hbiasesLed] at hbatches
  obtain ⟨_, -, hbatches⟩ := bind_eq_ok.mp hbatches
  cases hbatches
  exact ⟨config, settled.1, settled.2, len, Checked.ofExcept_eq_ok.mp hconfig,
    Operands.validate_eq_ok hsettled, ⟨hxTo, hwTo, hscalesTo, hbiasesTo⟩, hlen, hroom, rfl⟩

/-- The one fault of a broadcast plan is that there is no storage for its entries. -/
theorem batched_faults (operands : Operands) (out : View) (bits groupSize : Nat)
    (transposed : Bool) :
    Checked.FaultsOnly
      (fun f => f = .outOfStorage ∧
        storageLimit < extentProduct (outBatchShape out) * Offsets.bytes)
      (Plan.batched operands out bits groupSize transposed) := by
  refine .bind (.ofExcept _) fun config _ => ?_
  refine .bind (Operands.validate_faults _ _ _ _ _) fun settled _ => ?_
  refine .bind (requireBlocks_faults _ _ _ _) fun _ _ => ?_
  refine .bind (requireBroadcast_faults _ _ _) fun x hx => ?_
  refine .bind (requireBroadcast_faults _ _ _) fun w hw => ?_
  refine .bind (requireBroadcast_faults _ _ _) fun scales hscales => ?_
  refine .bind (requireBroadcast_faults _ _ _) fun biases hbiases => ?_
  refine .bind (.ofFault ?_) fun _ _ => .ok _
  -- All that is left are the entries, whose strides have been found.
  intro f hf
  rw [Offsets.ofBatches_eq (requireBroadcast_eq_ok hx).2 (requireBroadcast_eq_ok hw).2
    (requireBroadcast_eq_ok hscales).2 (requireBroadcast_eq_ok hbiases).2] at hf
  rcases bind_eq_error.mp hf with hstorage | ⟨_, -, hrest⟩
  · exact requireStorage_eq_error_iff.mp hstorage
  · cases hrest

/-- What a gathered plan is made of. -/
theorem gathered_eq_ok {indices : GatherIndices}
    (h : Plan.gathered operands indices out bits groupSize transposed = .ok plan) :
    ∃ config type dims len lhs rhs, Config.ofParameters bits groupSize = .ok config ∧
      operands.Settled out config transposed type dims ∧ operands.BatchedAlike ∧
      indices.lhs.shape = indices.rhs.shape ∧
      extentProduct (outBatchShape out) = indices.lhs.layout.size ∧
      out.layout.requiredLength? = .ok len ∧
      indices.lhs.layout.size * (dims.m * dims.n) ≤ len ∧
      List.Forall₂ (indices.lhs.IndexAt (extentProduct (operands.x.layout.batchShape 2)))
        (List.range indices.lhs.layout.size) lhs ∧
      List.Forall₂ (indices.rhs.IndexAt (extentProduct (operands.w.layout.batchShape 2)))
        (List.range indices.rhs.layout.size) rhs ∧
      indices.lhs.layout.size * Offsets.bytes ≤ storageLimit ∧
      plan = ⟨type, dims, config, transposed, (lhs.zip rhs).map operands.pairAt⟩ := by
  obtain ⟨config, hconfig, h⟩ := bind_eq_ok.mp h
  obtain ⟨settled, hsettled, h⟩ := bind_eq_ok.mp h
  obtain ⟨_, -, h⟩ := bind_eq_ok.mp h
  obtain ⟨_, -, h⟩ := bind_eq_ok.mp h
  obtain ⟨_, hsame, h⟩ := bind_eq_ok.mp h
  obtain ⟨_, hcount, h⟩ := bind_eq_ok.mp h
  obtain ⟨_, hblocks, h⟩ := bind_eq_ok.mp h
  obtain ⟨_, hscales, h⟩ := bind_eq_ok.mp h
  obtain ⟨_, hbiases, h⟩ := bind_eq_ok.mp h
  obtain ⟨lhs, hlhs, h⟩ := bind_eq_ok.mp h
  obtain ⟨rhs, hrhs, h⟩ := bind_eq_ok.mp h
  obtain ⟨batches, hbatches, h⟩ := bind_eq_ok.mp h
  cases h
  have halike : operands.BatchedAlike := ⟨Checked.of_check hscales, Checked.of_check hbiases⟩
  obtain ⟨len, hlen, hroom⟩ := Operands.requireBlocks_eq_ok hblocks
  have hlhs := requireIndices_eq_ok hlhs
  have hrhs := requireIndices_eq_ok hrhs
  have hbatches := Checked.ofFault_eq_ok.mp hbatches
  rw [Offsets.ofPairs_eq halike hlhs hrhs (Checked.of_check hsame)] at hbatches
  obtain ⟨_, hstorage, hbatches⟩ := bind_eq_ok.mp hbatches
  cases hbatches
  exact ⟨config, settled.1, settled.2, len, lhs, rhs, Checked.ofExcept_eq_ok.mp hconfig,
    Operands.validate_eq_ok hsettled, halike, Checked.of_check hsame, Checked.of_check hcount,
    hlen, hroom, hlhs, hrhs, requireStorage_eq_ok_iff.mp hstorage, rfl⟩

/-- The one fault of a gathered plan is that there is no storage for its entries, or none for
the indices that they are made of. -/
theorem gathered_faults (operands : Operands) (indices : GatherIndices) (out : View)
    (bits groupSize : Nat) (transposed : Bool) :
    Checked.FaultsOnly
      (fun f => f = .outOfStorage ∧
        storageLimit < extentProduct (outBatchShape out) * Offsets.bytes)
      (Plan.gathered operands indices out bits groupSize transposed) := by
  refine .bind (.ofExcept _) fun config _ => ?_
  refine .bind (Operands.validate_faults _ _ _ _ _) fun settled _ => ?_
  refine .bind (.check _ _) fun _ _ => ?_
  refine .bind (.check _ _) fun _ _ => ?_
  refine .bind (.check _ _) fun _ hsame => ?_
  refine .bind (.check _ _) fun _ hcount => ?_
  refine .bind (requireBlocks_faults _ _ _ _) fun _ _ => ?_
  refine .bind (.check _ _) fun _ hscales => ?_
  refine .bind (.check _ _) fun _ hbiases => ?_
  -- From here on all storage is counted in pairs of indices, one for each block.
  have hsame := Checked.of_check hsame
  have hsize : indices.rhs.layout.size = indices.lhs.layout.size :=
    congrArg extentProduct hsame.symm
  rw [Checked.of_check hcount]
  refine .bind (requireIndices_faults _ _ _) fun lhs hlhs => ?_
  refine .bind (by rw [← hsize]; exact requireIndices_faults _ _ _) fun rhs hrhs => ?_
  refine .bind (.ofFault ?_) fun _ _ => .ok _
  have halike : operands.BatchedAlike := ⟨Checked.of_check hscales, Checked.of_check hbiases⟩
  intro f hf
  rw [Offsets.ofPairs_eq halike (requireIndices_eq_ok hlhs) (requireIndices_eq_ok hrhs) hsame]
    at hf
  rcases bind_eq_error.mp hf with hstorage | ⟨_, -, hrest⟩
  · exact requireStorage_eq_error_iff.mp hstorage
  · cases hrest

/-! ## Readiness -/

/-- A plan that can be carried out over the output it has been made for. -/
structure Prepared (plan : Plan) (operands : Operands) (out : View) : Prop where
  ready : ∃ data, operands.Reads plan.type data ∧ plan.Ready operands data out.buffer.length
  type : out.dtype = .float plan.type
  blocks : plan.batches.length ≤ extentProduct (outBatchShape out)
  shape : HasMatrix out.shape plan.dims.m plan.dims.n

theorem batched_prepared (h : Plan.batched operands out bits groupSize transposed = .ok plan) :
    plan.Prepared operands out := by
  obtain ⟨config, type, dims, len, -, hsettled, hto, hlen, hroom, rfl⟩ := batched_eq_ok h
  obtain ⟨data, hdata⟩ := hsettled.reads
  have hcount : (Plan.broadcast operands type dims config transposed
      (outBatchShape out)).batches.length ≤ extentProduct (outBatchShape out) := by
    simp only [Plan.broadcast]
    split
    · exact Nat.zero_le _
    · rw [List.length_map, List.length_range]
  refine ⟨⟨data, hdata, hsettled.ready hdata hlen ?_ ?_⟩, hsettled.outType, hcount,
    hsettled.fitted.out⟩
  · exact Nat.le_trans (Nat.mul_le_mul_right _ hcount) hroom
  · intro batch hbatch
    split at hbatch
    · cases hbatch
    · obtain ⟨b, hb, rfl⟩ := List.mem_map.mp hbatch
      exact Operands.atBatch_broadcastAt hto (List.mem_range.mp hb)

theorem gathered_prepared {indices : GatherIndices}
    (h : Plan.gathered operands indices out bits groupSize transposed = .ok plan) :
    plan.Prepared operands out := by
  obtain ⟨config, type, dims, len, lhs, rhs, -, hsettled, halike, -, hcount, hlen, hroom, hlhs,
    hrhs, -, rfl⟩ := gathered_eq_ok h
  obtain ⟨data, hdata⟩ := hsettled.reads
  have hpairs : ((lhs.zip rhs).map operands.pairAt).length ≤ indices.lhs.layout.size := by
    rw [List.length_map, List.length_zip, ← hlhs.length_eq, List.length_range]
    exact Nat.min_le_left _ _
  refine ⟨⟨data, hdata, hsettled.ready hdata hlen ?_ ?_⟩, hsettled.outType,
    by rwa [hcount], hsettled.fitted.out⟩
  · exact Nat.le_trans (Nat.mul_le_mul_right _ hpairs) hroom
  · intro batch hbatch
    obtain ⟨pair, hpair, rfl⟩ := List.mem_map.mp hbatch
    exact (Offsets.ofPair_eq_ok halike
      (View.lt_of_mem_indices hlhs (List.of_mem_zip hpair).1)
      (View.lt_of_mem_indices hrhs (List.of_mem_zip hpair).2)).1

end Plan

end SubByte
