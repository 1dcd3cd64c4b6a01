/-
# Orientation — a matrix and its transpose give one product

Weights may be stored as they are or transposed, and then other codes are neighbours, share
a group and stand in a word.  None of that is left in a product.  The plain kernel walks
over stored rows and the transposed kernel along one of them, but each adds up an output
element along the shared dimension, ascending from zero, and narrows it once; so the two
agree in every bit where the weights that they meet are the same singles.

The hypothesis is on entries (`Quantized.entry`): an entry is found by its row and column,
its code bit by bit, with no look at how rows are cut up.  The widths and the group sizes
of the two matrices have nothing to do with each other.  Only the transposed kernel that
adds in this order is meant; the one by lanes adds in another.
-/
import SubByte.Proofs.Product.Regrouping
import SubByte.Proofs.Product.Writer

namespace SubByte

variable {F : Format}

namespace Quantized

/-- Quantized weights as operands of a product. -/
def matrices (stored : Quantized F) (x : List (Binary F)) : Matrices F :=
  ⟨x, stored.packed, stored.scales, stored.biases⟩

/-- The weight in row `r` and column `c` of a stored matrix of `cols` columns. -/
def entry (stored : Quantized F) (config : Config) (cols r c : Nat) : Except Fault Single := do
  let group := r * (cols / config.group.size) + c / config.group.size
  let code ← Packing.readCode stored.packed config.width.bits (r * cols + c)
  let scale ← fetch stored.scales group
  let bias ← fetch stored.biases group
  return scale.widen * .ofNat .single code + bias.widen

theorem entry_eq_ok {stored : Quantized F} {config : Config} {x : List (Binary F)}
    {rows cols r c : Nat}
    (hstored : (stored.matrices x).Stores config rows (cols / config.group.size))
    (hgroups : cols % config.group.size = 0) (hr : r < rows) (hc : c < cols) :
    stored.entry config cols r c = .ok ((stored.matrices x).weightAt config (r * cols + c)) := by
  obtain ⟨hgroup, hcode, hscale, hbias⟩ := hstored.read_eq_ok hgroups hr hc
  rw [matrices] at hcode hscale hbias
  rw [entry, hcode, ok_bind, hscale, ok_bind, hbias, ok_bind, pure_eq_ok, hgroup,
    Matrices.weightAt, Affine.weight]
  rfl

end Quantized

namespace Config

variable {config config' : Config} {dims : Dims} {stored swapped : Quantized F}
  {x : List (Binary F)}

theorem elementAt_swapped (hgroups : dims.n % config.group.size = 0)
    (hgroups' : dims.k % config'.group.size = 0)
    (hcovers : (stored.matrices x).Covers config dims false)
    (hcovers' : (swapped.matrices x).Covers config' dims true)
    (hentries : ∀ t < dims.k, ∀ j < dims.n,
      stored.entry config dims.n t j = swapped.entry config' dims.k j t)
    {cell : Nat} (hcell : cell < dims.m * dims.n) :
    (swapped.matrices x).elementAt config' dims .transposed cell =
      (stored.matrices x).elementAt config dims .plain cell := by
  have hcol := (Dense.cell_bounds hcell).2
  have hrows : (stored.matrices x).Stores config dims.k (dims.n / config.group.size) :=
    hcovers.stores hgroups
  have hrows' : (swapped.matrices x).Stores config' dims.n (dims.k / config'.group.size) :=
    hcovers'.stores hgroups'
  refine Matrices.dotAt_congr fun t ht => ?_
  have hentry := hentries t ht (cell % dims.n) hcol
  rw [Quantized.entry_eq_ok hrows hgroups ht hcol,
    Quantized.entry_eq_ok hrows' hgroups' hcol ht] at hentry
  have hweight := Except.ok.inj hentry
  rw [hweight]
  rfl

/-- The plain product with a stored matrix and the transposed product with its transpose are
both written where their sizes are accepted, and are the same list, whatever the widths and
the groups that the two matrices are stored in. -/
theorem orientations_agree (x : List (Binary F)) (stored swapped : Quantized F)
    (config config' : Config) (dims : Dims) (out out' : List (Binary F))
    (haccepts : config.Accepts .plain dims (stored.matrices x) out.length)
    (haccepts' : config'.Accepts .transposed dims (swapped.matrices x) out'.length)
    (hentries : ∀ t < dims.k, ∀ j < dims.n,
      stored.entry config dims.n t j = swapped.entry config' dims.k j t) :
    ∃ product : List (Binary F), product.length = dims.m * dims.n ∧
      config.multiplyInto .plain dims (stored.matrices x) out = .ok (overlay product out) ∧
      config'.multiplyInto .transposed dims (swapped.matrices x) out' =
        .ok (overlay product out') := by
  refine ⟨(List.range (dims.m * dims.n)).map fun cell =>
    ((stored.matrices x).elementAt config dims .plain cell).narrow F, ?_, ?_, ?_⟩
  · rw [List.length_map, List.length_range]
  · exact multiplyInto_eq_ok config dims .plain (fun h => nomatch h) haccepts.groups haccepts.fits
      haccepts.covers haccepts.out
  · rw [multiplyInto_eq_ok config' dims .transposed (fun h => nomatch h) haccepts'.groups
      haccepts'.fits haccepts'.covers haccepts'.out]
    refine congrArg (fun product => Except.ok (overlay product out')) ?_
    refine List.map_congr_left fun cell hcell => congrArg (Binary.narrow F) ?_
    exact elementAt_swapped haccepts.groups haccepts'.groups haccepts.covers haccepts'.covers
      hentries (List.mem_range.mp hcell)

/-- A row of ones above rows of twos: once as biases of codes of three bits that are all zero,
and once, transposed, as codes of two bits. -/
theorem orientations_agree_two_widths :
    let x : List (Binary .half) := List.replicate 31 (.ofNat .half 3) ++ [.infinite true]
    let stored : Quantized .half := ⟨List.replicate 96 0, List.replicate 32 0,
      .ofNat .half 1 :: List.replicate 31 (.ofNat .half 2)⟩
    let swapped : Quantized .half := ⟨(List.replicate 32 [0xAAAAAAA9, 0xAAAAAAAA]).flatten,
      List.replicate 32 (.ofNat .half 1), List.replicate 32 0⟩
    let out : List (Binary .half) := List.replicate 33 .nan
    ∃ product : List (Binary .half), product.length = 32 ∧
      multiplyInto ⟨.three, .g32⟩ .plain ⟨1, 32, 32⟩ (stored.matrices x) out =
        .ok (overlay product out) ∧
      multiplyInto ⟨.two, .g32⟩ .transposed ⟨1, 32, 32⟩ (swapped.matrices x) out =
        .ok (overlay product out) := by
  intro x stored swapped out
  let weight (t : Nat) : Single := if t = 0 then .ofNat .single 1 else .ofNat .single 2
  have hgroup : ∀ r, ∀ c < 32, r * (32 / GroupSize.g32.size) + c / GroupSize.g32.size = r := by
    intro r c hc
    rw [show GroupSize.g32.size = 32 from rfl]
    omega
  have hstored : ∀ t < 32, ∀ j < 32,
      stored.entry ⟨.three, .g32⟩ 32 t j = .ok (weight t) := by
    have hcode : ∀ i < 1024, Packing.readCode stored.packed 3 i = .ok 0 := by decide +kernel
    have hscale : ∀ r < 32, fetch stored.scales r = .ok 0 := by decide +kernel
    have hbias : ∀ r < 32, fetch stored.biases r =
        .ok (if r = 0 then .ofNat .half 1 else .ofNat .half 2) := by decide +kernel
    intro t ht j hj
    simp only [Quantized.entry, hgroup t j hj, CodeWidth.bits, hcode (t * 32 + j) (by omega),
      hscale t ht, hbias t ht, ok_bind, pure_eq_ok, weight]
    split <;> decide +kernel
  have hswapped : ∀ t < 32, ∀ j < 32,
      swapped.entry ⟨.two, .g32⟩ 32 j t = .ok (weight t) := by
    have hcode : ∀ j < 32, ∀ t < 32, Packing.readCode swapped.packed 2 (j * 32 + t) =
        .ok (if t = 0 then 1 else 2) := by decide +kernel
    have hscale : ∀ r < 32, fetch swapped.scales r = .ok (.ofNat .half 1) := by decide +kernel
    have hbias : ∀ r < 32, fetch swapped.biases r = .ok 0 := by decide +kernel
    intro t ht j hj
    simp only [Quantized.entry, hgroup j t ht, CodeWidth.bits, hcode j hj t ht, hscale j hj,
      hbias j hj, ok_bind, pure_eq_ok, weight]
    split <;> decide +kernel
  refine orientations_agree x stored swapped ⟨.three, .g32⟩ ⟨.two, .g32⟩ ⟨1, 32, 32⟩ out out
    ⟨by decide, nofun, ⟨by decide, by decide, by decide, by decide, by decide, by decide⟩,
      ⟨by decide, by decide, by decide, by decide⟩, by decide⟩
    ⟨by decide, nofun, ⟨by decide, by decide, by decide, by decide, by decide, by decide⟩,
      ⟨by decide, by decide, by decide, by decide⟩, by decide⟩ ?_
  intro t ht j hj
  exact (hstored t ht j hj).trans (hswapped t ht j hj).symm

end Config

end SubByte
