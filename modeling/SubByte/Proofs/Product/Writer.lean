/-
# Writer — one product as its kernel writes it

`Config.multiplyInto` gives a product as a whole.  Here is the same call as it runs, with
the output buffer at every point where it can stop (`Config.writeProduct`): the checks,
then a kernel that writes row after row — the plain one a row at a time, once all sums of
the row are known, the other two element by element — onto as many complete rows as the
activations and the output have, and no more than `m`.  A row that is short, a place that
is not there, a width without a decode, a row of no elements would each stop it half way.

None of these can come up behind the checks (`Kernel.write_eq_ok`), so the two are the
same call (`writeProduct_eq`), and that a rejected call leaves the output alone is said of
the buffer that the kernel writes to (`writeProduct_total`).

What the checks ask for (`Config.Accepts`) is the sizes of the five buffers and nothing
about what is in them; a buffer may be longer, and then its end is not looked at.
-/
import SubByte.Proofs.Product.Prefixes
import SubByte.Proofs.Product.Settled
import SubByte.Proofs.Written

namespace SubByte

variable {F : Format}

/-! ## Kernels -/

namespace Kernel

/-- Complete rows of the activations, no more than `m`, each onto a complete row of the output.
Rows of no elements are not counted. -/
def writeRows (dims : Dims) (row : List (Binary F) → List (Binary F) → Written (List (Binary F)))
    (x out : List (Binary F)) : Written (List (Binary F)) :=
  if dims.k = 0 ∨ dims.n = 0 then (.error (.fault .zeroDivisor), out)
  else writeBlocks dims.n (((wholeBlocks dims.k x).take dims.m).map row) out

/-- The product, written row after row. -/
def write (config : Config) (variant : Variant) (dims : Dims) (operands : Matrices F)
    (out : List (Binary F)) : Written (List (Binary F)) :=
  let packed := Packing.bytesOfWords operands.w
  match variant with
  | .plain =>
    writeRows dims (fun xs old => Written.ofResult (Checked.ofFault
      (plainRow config dims.n packed operands.scales operands.biases xs)) old) operands.x out
  | .transposed =>
    writeRows dims (fun xs => writeElements (fun j => Checked.ofFault
      (transposedElement config dims.k packed operands.scales operands.biases xs j)) 0)
      operands.x out
  | .lanes =>
    if Packing.hasLaneDecode config.width.bits then
      writeRows dims (fun xs => writeElements
        (lanesElement config dims.k operands.w operands.scales operands.biases xs) 0)
        operands.x out
    else (Checked.reject (.unsupportedSimd config.width.bits), out)

variable {operands : Matrices F} {config : Config} {dims : Dims} {variant : Variant}
  {out : List (Binary F)}

theorem writeRows_eq_ok {row : List (Binary F) → List (Binary F) → Written (List (Binary F))}
    {value : Nat → Binary F} (hk : 0 < dims.k) (hn : 0 < dims.n)
    (hx : dims.m * dims.k ≤ operands.x.length) (hout : dims.m * dims.n ≤ out.length)
    (hrow : ∀ r, ∀ old : List (Binary F), old.length = dims.n →
      row (operands.xRow dims.k r) old =
        (.ok (), (List.range dims.n).map fun j => value (r * dims.n + j))) :
    writeRows dims row operands.x out =
      (.ok (), overlay ((List.range (dims.m * dims.n)).map value) out) := by
  have hcount : dims.m ≤ operands.x.length / dims.k := (Nat.le_div_iff_mul_le hk).mpr hx
  have hrows : (wholeBlocks dims.k operands.x).take dims.m =
      (List.range dims.m).map (operands.xRow dims.k) := by
    rw [wholeBlocks, take_blocks _ hcount, blocks_x hx]
  rw [writeRows, if_neg (not_or.mpr ⟨Nat.ne_of_gt hk, Nat.ne_of_gt hn⟩), hrows, List.map_map,
    ← flatMap_range_mul, List.flatMap_def]
  refine writeBlocks_eq_ok ?_ fun r _ => ⟨?_, hrow r⟩
  · rwa [List.length_range]
  · rw [List.length_map, List.length_range]

theorem writeElements_row {element : Nat → Checked QuantError (Binary F)} {n : Nat}
    {old : List (Binary F)} (value : Nat → Binary F) (hold : old.length = n)
    (helement : ∀ j < n, element j = .ok (value j)) :
    writeElements element 0 old = (.ok (), (List.range n).map value) := by
  subst hold
  refine writeElements_eq_ok value fun j hj => ?_
  rw [Nat.zero_add]
  exact helement j hj

/-- A kernel that has the operands it needs writes all rows and does not stop. -/
theorem write_eq_ok (hvariant : variant = .lanes → Variant.lanesFit config.width = true)
    (hgroups : dims.inner variant.isTransposed % config.group.size = 0)
    (hcovers : operands.Covers config dims variant.isTransposed) (hk : 0 < dims.k)
    (hn : 0 < dims.n) (hout : dims.m * dims.n ≤ out.length) :
    write config variant dims operands out =
      (.ok (), overlay ((List.range (dims.m * dims.n)).map fun cell =>
        (operands.elementAt config dims variant cell).narrow F) out) := by
  cases variant with
  | plain =>
      refine writeRows_eq_ok hk hn hcovers.x hout fun r old _ => ?_
      rw [plainRow_covered hgroups hcovers r]
      rfl
  | transposed =>
      refine writeRows_eq_ok hk hn hcovers.x hout fun r old hold => ?_
      refine writeElements_row (fun j =>
        (operands.elementAt config dims .transposed (r * dims.n + j)).narrow F) hold fun j hj => ?_
      rw [transposedElement_covered hgroups hcovers r hj]
      rfl
  | lanes =>
      have hdecode : Packing.hasLaneDecode config.width.bits = true := by
        rw [← Variant.lanesFit_iff]
        exact hvariant rfl
      rw [write, if_pos hdecode]
      refine writeRows_eq_ok hk hn hcovers.x hout fun r old hold => ?_
      exact writeElements_row (fun j =>
        (operands.elementAt config dims .lanes (r * dims.n + j)).narrow F) hold
        fun j hj => lanesElement_covered hdecode hgroups hcovers r hj

end Kernel

/-! ## Checks -/

theorem boundedProduct_pair_iff {a b p : Nat} :
    boundedProduct 1 [a, b] = some p ↔ p = a * b ∧ a < addressLimit ∧ a * b < addressLimit := by
  constructor
  · intro h
    have hproduct := boundedProduct_eq_some (by decide) h
    rw [List.prod_cons, List.prod_cons, List.prod_nil, Nat.mul_one, Nat.one_mul] at hproduct
    obtain ⟨rfl, hlimit⟩ := hproduct
    simp only [boundedProduct, List.foldlM_cons, Nat.one_mul] at h
    obtain ⟨_, hfirst, -⟩ := Option.bind_eq_some_iff.mp h
    exact ⟨rfl, (addressed_eq_some_iff.mp hfirst).2, hlimit⟩
  · rintro ⟨rfl, ha, hab⟩
    exact boundedProduct_pair ha hab

namespace Config

/-- What a product asks of its operands and of the output: whole groups, a width that the
kernel decodes, sizes that are addresses, and buffers of at least these sizes. -/
structure Accepts (config : Config) (variant : Variant) (dims : Dims) (operands : Matrices F)
    (outLength : Nat) : Prop where
  groups : dims.inner variant.isTransposed % config.group.size = 0
  width : variant = .lanes → config.width = .four ∨ config.width = .eight
  fits : dims.Fits config variant.isTransposed
  covers : operands.Covers config dims variant.isTransposed
  out : dims.m * dims.n ≤ outLength

/-- All that a product checks before it writes. -/
def requireProduct (config : Config) (variant : Variant) (dims : Dims) (operands : Matrices F)
    (outLength : Nat) : Checked QuantError Unit := do
  let transposed := variant.isTransposed
  Checked.ofShape (requireWholeGroups "weight" (dims.inner transposed) config.group.size)
  config.requireVariant variant
  config.requireOperands dims transposed operands outLength

/-- The product written over the front of `out`, step by step. -/
def writeProduct (config : Config) (variant : Variant) (dims : Dims) (operands : Matrices F)
    (out : List (Binary F)) : Written (List (Binary F)) :=
  match config.requireProduct variant dims operands out.length with
  | .error stop => (.error stop, out)
  | .ok () =>
    let size := dims.m * dims.n
    if dims.m = 0 ∨ dims.n = 0 then (.ok (), out)
    else if dims.k = 0 then
      if size ≤ out.length then (.ok (), overlay (List.replicate size 0) out)
      else (.error (.fault .outOfBounds), out)
    else Kernel.write config variant dims operands out

variable {config : Config} {variant : Variant} {dims : Dims} {operands operands' : Matrices F}
  {outLength : Nat} {out : List (Binary F)}

theorem requireSize_eq_ok_iff {name : String} {a b size : Nat} :
    requireSize name [a, b] = .ok size ↔
      size = a * b ∧ a < addressLimit ∧ a * b < addressLimit := by
  rw [← boundedProduct_pair_iff, requireSize, sizeProduct]
  cases boundedProduct 1 [a, b] with
  | none =>
      constructor
      · intro h
        cases h
      · intro h
        cases h
  | some p =>
      constructor
      · intro h
        cases h
        rfl
      · intro h
        cases h
        rfl

theorem lanesFit_eq_true_iff {width : CodeWidth} :
    Variant.lanesFit width = true ↔ width = .four ∨ width = .eight := by
  cases width <;> decide

theorem requireVariant_eq_ok_iff : config.requireVariant variant = .ok () ↔
    (variant = .lanes → config.width = .four ∨ config.width = .eight) := by
  constructor
  · intro h hlanes
    rw [← lanesFit_eq_true_iff]
    rw [requireVariant] at h
    split at h
    · cases h
    · next hfit => exact Bool.of_not_eq_false fun hnone => hfit ⟨hlanes, hnone⟩
  · intro h
    exact requireVariant_eq_ok fun hlanes => lanesFit_eq_true_iff.mpr (h hlanes)

theorem requireOperands_eq_ok_iff {transposed : Bool} :
    config.requireOperands dims transposed operands outLength = .ok () ↔
      dims.Fits config transposed ∧ operands.Covers config dims transposed ∧
        dims.m * dims.n ≤ outLength := by
  constructor
  · intro h
    obtain ⟨_, hx, h⟩ := bind_eq_ok.mp h
    obtain ⟨_, hout, h⟩ := bind_eq_ok.mp h
    obtain ⟨_, hw, h⟩ := bind_eq_ok.mp h
    obtain ⟨_, hscales, h⟩ := bind_eq_ok.mp h
    obtain ⟨_, hbiases, h⟩ := bind_eq_ok.mp h
    obtain ⟨rfl, hm, hx⟩ := requireSize_eq_ok_iff.mp hx
    obtain ⟨rfl, -, hout⟩ := requireSize_eq_ok_iff.mp hout
    obtain ⟨rfl, hrows, hw⟩ := requireSize_eq_ok_iff.mp hw
    obtain ⟨rfl, -, hgroups⟩ := requireSize_eq_ok_iff.mp hscales
    obtain ⟨rfl, -, -⟩ := requireSize_eq_ok_iff.mp hbiases
    obtain ⟨_, hxRoom, h⟩ := bind_eq_ok.mp h
    obtain ⟨_, houtRoom, h⟩ := bind_eq_ok.mp h
    obtain ⟨_, hwRoom, h⟩ := bind_eq_ok.mp h
    obtain ⟨_, hscalesRoom, hbiasesRoom⟩ := bind_eq_ok.mp h
    exact ⟨⟨hm, hrows, hx, hout, hw, hgroups⟩,
      ⟨requireRoom_eq_ok_iff.mp hxRoom, requireRoom_eq_ok_iff.mp hwRoom,
        requireRoom_eq_ok_iff.mp hscalesRoom, requireRoom_eq_ok_iff.mp hbiasesRoom⟩,
      requireRoom_eq_ok_iff.mp houtRoom⟩
  · rintro ⟨hfits, hcovers, hout⟩
    exact requireOperands_eq_ok hfits hcovers hout

theorem requireProduct_eq_ok_iff :
    config.requireProduct variant dims operands outLength = .ok () ↔
      config.Accepts variant dims operands outLength := by
  constructor
  · intro h
    obtain ⟨_, hgroups, h⟩ := bind_eq_ok.mp h
    obtain ⟨_, hvariant, h⟩ := bind_eq_ok.mp h
    obtain ⟨hfits, hcovers, hout⟩ := requireOperands_eq_ok_iff.mp h
    exact ⟨Dims.requireWholeGroups_mod (Checked.ofShape_eq_ok.mp hgroups),
      requireVariant_eq_ok_iff.mp hvariant, hfits, hcovers, hout⟩
  · intro h
    simp only [requireProduct]
    rw [requireWholeGroups_eq_ok _ h.groups, Checked.ofShape_ok, ok_bind,
      requireVariant_eq_ok_iff.mpr h.width, ok_bind]
    exact requireOperands_eq_ok h.fits h.covers h.out

/-- The checks divide by the size of a group, which is not zero, and look at no element. -/
theorem requireProduct_faults (allowed : Fault → Prop) :
    Checked.FaultsOnly allowed (config.requireProduct variant dims operands outLength) := by
  have hsize : ∀ name extents, Checked.FaultsOnly allowed (requireSize name extents) :=
    fun name extents => .ofShape (.ofExcept (sizeProduct name extents))
  have hroom := requireRoom_faults allowed
  have hvariant : Checked.FaultsOnly allowed (config.requireVariant variant) := by
    rw [requireVariant]
    split
    · exact .reject _
    · exact .ok ()
  refine .bind (.ofShape (requireWholeGroups_faults allowed _ _ _)) fun _ _ => ?_
  refine .bind hvariant fun _ _ => ?_
  refine .bind (hsize _ _) fun _ _ => ?_
  refine .bind (hsize _ _) fun _ _ => ?_
  refine .bind (hsize _ _) fun _ _ => ?_
  refine .bind (hsize _ _) fun _ _ => ?_
  refine .bind (hsize _ _) fun _ _ => ?_
  refine .bind (hroom _ _ _) fun _ _ => ?_
  refine .bind (hroom _ _ _) fun _ _ => ?_
  refine .bind (hroom _ _ _) fun _ _ => ?_
  exact .bind (hroom _ _ _) fun _ _ => hroom _ _ _

/-! ## Products -/

theorem writeProduct_of_accepts (h : config.Accepts variant dims operands out.length) :
    config.writeProduct variant dims operands out =
      (.ok (), overlay ((List.range (dims.m * dims.n)).map fun cell =>
        (operands.elementAt config dims variant cell).narrow F) out) := by
  have hvariant : variant = .lanes → Variant.lanesFit config.width = true :=
    fun hlanes => lanesFit_eq_true_iff.mpr (h.width hlanes)
  rw [writeProduct, requireProduct_eq_ok_iff.mpr h]
  simp only
  split
  · next hempty =>
      rw [Nat.mul_eq_zero.mpr hempty]
      rfl
  · next hfull =>
      split
      · next hk =>
          simp only [if_pos h.out, Matrices.elementAt_empty operands config dims variant _ hk,
            Binary.narrow_zero, List.map_const', List.length_range]
      · next hk =>
          exact Kernel.write_eq_ok hvariant h.groups h.covers (Nat.pos_of_ne_zero hk)
            (Nat.pos_of_ne_zero (not_or.mp hfull).2) h.out

theorem writeProduct_cases (config : Config) (variant : Variant) (dims : Dims)
    (operands : Matrices F) (out : List (Binary F)) :
    config.Accepts variant dims operands out.length ∨
      ∃ cause, config.requireProduct variant dims operands out.length =
          .error (.rejected cause) ∧
        config.writeProduct variant dims operands out = (.error (.rejected cause), out) := by
  cases hchecks : config.requireProduct variant dims operands out.length with
  | ok _ => exact .inl (requireProduct_eq_ok_iff.mp hchecks)
  | error stop =>
      cases stop with
      | rejected cause =>
          refine .inr ⟨cause, rfl, ?_⟩
          rw [writeProduct, hchecks]
      | fault f => exact (requireProduct_faults (fun _ => False) f hchecks).elim

theorem writeProduct_ok_iff : (config.writeProduct variant dims operands out).1 = .ok () ↔
    config.Accepts variant dims operands out.length := by
  constructor
  · intro hok
    rcases writeProduct_cases config variant dims operands out with h | ⟨cause, -, hwritten⟩
    · exact h
    · rw [hwritten] at hok
      cases hok
  · intro h
    rw [writeProduct_of_accepts h]

/-- The product as a whole is what is written step by step. -/
theorem writeProduct_eq (config : Config) (variant : Variant) (dims : Dims)
    (operands : Matrices F) (out : List (Binary F)) :
    config.writeProduct variant dims operands out =
      Written.ofResult (config.multiplyInto variant dims operands out) out := by
  have hsequence : config.multiplyInto variant dims operands out =
      (config.requireProduct variant dims operands out.length >>= fun _ =>
        config.productOf variant dims operands >>= fun product => .ok (overlay product out)) := by
    simp only [multiplyInto, requireProduct, bind_assoc, pure_eq_ok]
  rcases writeProduct_cases config variant dims operands out with h | ⟨cause, hchecks, hwritten⟩
  · rw [writeProduct_of_accepts h, multiplyInto_eq_ok config dims variant
      (fun hlanes => lanesFit_eq_true_iff.mpr (h.width hlanes)) h.groups h.fits h.covers h.out]
    rfl
  · rw [hwritten, hsequence, hchecks]
    rfl

theorem Accepts.framed (h : config.Accepts variant dims operands out.length) :
    let written := config.writeProduct variant dims operands out
    written.2.length = out.length ∧
      written.2.drop (dims.m * dims.n) = out.drop (dims.m * dims.n) := by
  have hlength : ((List.range (dims.m * dims.n)).map fun cell =>
      (operands.elementAt config dims variant cell).narrow F).length = dims.m * dims.n := by
    rw [List.length_map, List.length_range]
  simp only [writeProduct_of_accepts h]
  refine ⟨length_overlay (by rw [hlength]; exact h.out), ?_⟩
  rw [overlay, List.drop_left' hlength, hlength]

theorem Accepts.take_eq {out' : List (Binary F)}
    (h : config.Accepts variant dims operands out.length)
    (h' : config.Accepts variant dims operands' out'.length)
    (hfront : operands'.front config dims variant.isTransposed =
      operands.front config dims variant.isTransposed) :
    (config.writeProduct variant dims operands' out').2.take (dims.m * dims.n) =
      (config.writeProduct variant dims operands out).2.take (dims.m * dims.n) := by
  have htake : ∀ {value : Nat → Binary F} {old : List (Binary F)},
      (overlay ((List.range (dims.m * dims.n)).map value) old).take (dims.m * dims.n) =
        (List.range (dims.m * dims.n)).map value :=
    fun {value} {_} => List.take_left' (by rw [List.length_map, List.length_range])
  rw [writeProduct_of_accepts h, writeProduct_of_accepts h', htake, htake]
  refine List.map_congr_left fun cell hcell => congrArg (Binary.narrow F) ?_
  have hcell := List.mem_range.mp hcell
  calc operands'.elementAt config dims variant cell
      = (operands'.front config dims variant.isTransposed).elementAt config dims variant cell :=
        (Matrices.elementAt_front operands' variant h.groups hcell).symm
    _ = (operands.front config dims variant.isTransposed).elementAt config dims variant cell := by
        rw [hfront]
    _ = operands.elementAt config dims variant cell :=
        Matrices.elementAt_front operands variant h.groups hcell

/-- A product is written in full or not begun, and which of the two depends on sizes alone.
No step of the kernel can fail, the output behind the product stays as it was, and the
product depends on nothing behind the sizes that have been checked. -/
theorem writeProduct_total (config : Config) (variant : Variant) (dims : Dims)
    (operands : Matrices F) (out : List (Binary F)) :
    let written := config.writeProduct variant dims operands out
    written = Written.ofResult (config.multiplyInto variant dims operands out) out ∧
    Checked.FaultsOnly (fun _ => False) written.1 ∧
    (written.1 = .ok () ↔ config.Accepts variant dims operands out.length) ∧
    (∀ stop, written.1 = .error stop → written.2 = out) ∧
    (written.1 = .ok () → written.2.length = out.length ∧
      written.2.drop (dims.m * dims.n) = out.drop (dims.m * dims.n)) ∧
    ∀ operands' out', written.1 = .ok () →
      (config.writeProduct variant dims operands' out').1 = .ok () →
      operands'.front config dims variant.isTransposed =
        operands.front config dims variant.isTransposed →
      (config.writeProduct variant dims operands' out').2.take (dims.m * dims.n) =
        written.2.take (dims.m * dims.n) := by
  intro written
  refine ⟨writeProduct_eq config variant dims operands out, ?_, writeProduct_ok_iff, ?_, ?_, ?_⟩
  · intro f hfault
    rcases writeProduct_cases config variant dims operands out with h | ⟨cause, -, hwritten⟩
    · simp only [written, writeProduct_of_accepts h, reduceCtorEq] at hfault
    · simp only [written, hwritten, Except.error.injEq, reduceCtorEq] at hfault
  · intro stop hstop
    rcases writeProduct_cases config variant dims operands out with h | ⟨cause, -, hwritten⟩
    · simp only [written, writeProduct_of_accepts h, reduceCtorEq] at hstop
    · exact congrArg Prod.snd hwritten
  · intro hok
    exact (writeProduct_ok_iff.mp hok).framed
  · intro operands' out' hok hok' hfront
    exact (writeProduct_ok_iff.mp hok).take_eq (writeProduct_ok_iff.mp hok') hfront

/-- One element by lanes: the operands may be longer than it takes, the output keeps what is
behind it, and a width without a decode is rejected with the output as it was. -/
theorem writeProduct_total_surplus :
    let operands : Matrices .single :=
      ⟨List.replicate 32 (.ofNat .single 2), List.replicate 4 0x11111111, [.ofNat .single 1], [0]⟩
    let longer : Matrices .single := ⟨operands.x ++ [.nan], operands.w ++ [0xffffffff],
      operands.scales ++ [.nan], operands.biases ++ [.nan]⟩
    let product (width : CodeWidth) (operands : Matrices .single) :=
      writeProduct ⟨width, .g32⟩ .lanes ⟨1, 1, 32⟩ operands [.nan, 0]
    (product .four operands).1 = .ok () ∧ (product .four operands).2.drop 1 = [0] ∧
      (product .four longer).1 = .ok () ∧
      (product .four longer).2.take 1 = (product .four operands).2.take 1 ∧
      (product .five operands).1 ≠ .ok () ∧ (product .five operands).2 = [.nan, 0] := by
  intro operands longer product
  have haccepts : Accepts ⟨.four, .g32⟩ .lanes ⟨1, 1, 32⟩ operands 2 :=
    ⟨by decide, fun _ => .inl rfl, ⟨by decide, by decide, by decide, by decide, by decide, by decide⟩,
      ⟨by decide, by decide, by decide, by decide⟩, by decide⟩
  have hlonger : Accepts ⟨.four, .g32⟩ .lanes ⟨1, 1, 32⟩ longer 2 :=
    ⟨by decide, fun _ => .inl rfl, ⟨by decide, by decide, by decide, by decide, by decide, by decide⟩,
      ⟨by decide, by decide, by decide, by decide⟩, by decide⟩
  obtain ⟨-, -, hiff, -, hframe, hread⟩ :=
    writeProduct_total ⟨.four, .g32⟩ .lanes ⟨1, 1, 32⟩ operands [.nan, 0]
  obtain ⟨-, -, hiffLonger, -⟩ :=
    writeProduct_total ⟨.four, .g32⟩ .lanes ⟨1, 1, 32⟩ longer [.nan, 0]
  obtain ⟨-, hfaults, hiffFive, hkept, -⟩ :=
    writeProduct_total ⟨.five, .g32⟩ .lanes ⟨1, 1, 32⟩ operands [.nan, 0]
  have hok := hiff.mpr haccepts
  have hokLonger := hiffLonger.mpr hlonger
  have hrejected : (product .five operands).1 ≠ .ok () := by
    intro h
    rcases (hiffFive.mp h).width rfl with hwidth | hwidth
    · cases hwidth
    · cases hwidth
  refine ⟨hok, (hframe hok).2, hokLonger, hread longer [.nan, 0] hok hokLonger rfl, hrejected, ?_⟩
  cases hstop : (product .five operands).1 with
  | error stop => exact hkept stop hstop
  | ok _ => exact absurd hstop hrejected

end Config

end SubByte
