/-
# Agreement — the kernels against the dense references

A kernel decodes group by group and forgets what it has decoded; a reference reads single
bits at flat positions, keeps all weights, and multiplies as if they had never been
packed.  Both add the same terms in the same order, so their elements are the same
singles, and the kernel's are the reference's narrowed to the element type.  Nothing is
used of the arithmetic but that a product does not depend on the order of its factors:
the kernels multiply a scale by a code, the references a code by a scale.

Neither side looks behind its operands or its front of the output, and the reference
returns whenever there is storage for the expanded weights.
-/
import SubByte.Proofs.Dense.Affine
import SubByte.Proofs.Product.Whole

namespace SubByte

variable {F : Format} {operands : Matrices F} {config : Config} {dims : Dims}

namespace Dense

theorem total_eq_dotAt (x : Nat) {place : Nat → Nat} {k count : Nat}
    (hplace : ∀ t < k, place t < count) :
    total (fun t => (operands.x.map fun x => x.widen).getD (x + t) .nan *
        ((List.range count).map (operands.weightAt config)).getD (place t) .nan) k =
      operands.dotAt config x place k := by
  refine List.foldl_ext _ _ _ fun sum t ht => ?_
  have hweight := hplace t (List.mem_range.mp ht)
  have hx : (operands.x.map fun x => x.widen).getD (x + t) .nan = operands.xAt (x + t) :=
    List.getD_map operands.x .nan fun x => x.widen
  beta_reduce
  rw [hx, List.getD_eq_getElem _ _ (by rwa [List.length_map, List.length_range]),
    List.getElem_map, List.getElem_range]

theorem multiply_weights (operands : Matrices F) (config : Config) {c : List Single} (hx : dims.m * dims.k ≤ operands.x.length)
    (hc : dims.m * dims.n ≤ c.length) :
    multiply (operands.x.map fun x => x.widen)
        ((List.range (dims.k * dims.n)).map (operands.weightAt config)) c dims.m dims.n dims.k =
      .ok (overlay ((List.range (dims.m * dims.n)).map
        (operands.elementAt config dims .plain)) c) := by
  rw [multiply_eq_ok (by rwa [List.length_map])
    (by rw [List.length_map, List.length_range]) hc]
  refine congrArg (fun cells => Except.ok (overlay cells c))
    (List.map_congr_left fun cell hcell => ?_)
  have hcol := (cell_bounds (List.mem_range.mp hcell)).2
  exact total_eq_dotAt _ fun t ht => place_lt ht hcol

theorem multiplyTransposed_weights (operands : Matrices F) (config : Config) {c : List Single}
    (hx : dims.m * dims.k ≤ operands.x.length)
    (hc : dims.m * dims.n ≤ c.length) :
    multiplyTransposed (operands.x.map fun x => x.widen)
        ((List.range (dims.n * dims.k)).map (operands.weightAt config)) c dims.m dims.n dims.k =
      .ok (overlay ((List.range (dims.m * dims.n)).map
        (operands.elementAt config dims .transposed)) c) := by
  rw [multiplyTransposed_eq_ok (by rwa [List.length_map])
    (by rw [List.length_map, List.length_range]) hc]
  refine congrArg (fun cells => Except.ok (overlay cells c))
    (List.map_congr_left fun cell hcell => ?_)
  have hcol := (cell_bounds (List.mem_range.mp hcell)).2
  exact total_eq_dotAt _ fun t ht => place_lt hcol ht

theorem expand_bind (transposed : Bool)
    (hgroups : dims.inner transposed % config.group.size = 0)
    (hcovers : operands.Covers config dims transposed)
    {product : List Single → Except Fault (List Single)} {result : List Single}
    (h : product ((List.range (dims.rows transposed * dims.inner transposed)).map
      (operands.weightAt config)) = .ok result) :
    (expand operands.w (operands.scales.map fun s => s.widen)
        (operands.biases.map fun b => b.widen) config.width.bits config.group.size
        (dims.rows transposed * dims.inner transposed) >>= product) = (do
      requireStorage (dims.rows transposed * dims.inner transposed) Format.single.bytes
      return result) := by
  have hexpand := expand_eq (hcovers.stores hgroups)
  rw [Nat.mul_assoc, Nat.div_mul_cancel (Nat.dvd_of_mod_eq_zero hgroups)] at hexpand
  rw [hexpand]
  cases requireStorage (dims.rows transposed * dims.inner transposed) Format.single.bytes with
  | error f => rfl
  | ok _ => exact h

theorem multiplyAffineTransposed_eq {c : List Single} (hgroups : dims.k % config.group.size = 0)
    (hcovers : operands.Covers config dims true) (hc : dims.m * dims.n ≤ c.length) :
    multiplyAffineTransposed (operands.x.map fun x => x.widen) operands.w
        (operands.scales.map fun s => s.widen) (operands.biases.map fun b => b.widen) c
        dims.m dims.n dims.k config.width.bits config.group.size = (do
      requireStorage (dims.n * dims.k) Format.single.bytes
      return overlay ((List.range (dims.m * dims.n)).map
        (operands.elementAt config dims .transposed)) c) :=
  expand_bind true (show dims.inner true % _ = 0 from hgroups) hcovers
    (multiplyTransposed_weights operands config hcovers.x hc)

theorem multiplyAffine_eq {c : List Single} (hgroups : dims.n % config.group.size = 0)
    (hcovers : operands.Covers config dims false) (hc : dims.m * dims.n ≤ c.length) :
    multiplyAffine (operands.x.map fun x => x.widen) operands.w
        (operands.scales.map fun s => s.widen) (operands.biases.map fun b => b.widen) c
        dims.m dims.n dims.k config.width.bits config.group.size = (do
      requireStorage (dims.k * dims.n) Format.single.bytes
      return overlay ((List.range (dims.m * dims.n)).map
        (operands.elementAt config dims .plain)) c) :=
  expand_bind false (show dims.inner false % _ = 0 from hgroups) hcovers
    (multiply_weights operands config hcovers.x hc)

end Dense

/-! ## Kernels and references -/

namespace Config

/-- The transposed kernel writes the reference's product, narrowed, over the front of its
output, and the reference writes it over the front of its own. -/
theorem transposed_agrees (operands : Matrices F) (config : Config) (dims : Dims)
    (out : List (Binary F)) (c : List Single) (hgroups : dims.k % config.group.size = 0)
    (hcovers : operands.Covers config dims true) (haddressed : operands.Addressed)
    (hm : dims.m < addressLimit) (hn : dims.n < addressLimit)
    (hout : dims.m * dims.n ≤ out.length) (houtLength : out.length < addressLimit)
    (hc : dims.m * dims.n ≤ c.length) :
    ∃ product : List Single, product.length = dims.m * dims.n ∧
      config.multiplyInto .transposed dims operands out =
        .ok (overlay (product.map fun s => s.narrow F) out) ∧
      Dense.multiplyAffineTransposed (operands.x.map fun x => x.widen) operands.w
          (operands.scales.map fun s => s.widen) (operands.biases.map fun b => b.widen) c
          dims.m dims.n dims.k config.width.bits config.group.size = (do
        requireStorage (dims.n * dims.k) Format.single.bytes
        return overlay product c) := by
  have hfits : dims.Fits config true := .of_covers hcovers haddressed hm hn hout houtLength
  have hkernel : config.multiplyInto .transposed dims operands out =
      .ok (overlay ((List.range (dims.m * dims.n)).map fun cell =>
        (operands.elementAt config dims .transposed cell).narrow F) out) :=
    multiplyInto_eq_ok config dims .transposed (fun h => nomatch h) hgroups hfits hcovers hout
  refine ⟨(List.range (dims.m * dims.n)).map (operands.elementAt config dims .transposed),
    ?_, ?_, ?_⟩
  · rw [List.length_map, List.length_range]
  · rw [hkernel, List.map_map]
    rfl
  · exact Dense.multiplyAffineTransposed_eq hgroups hcovers hc

/-- Two rows with all kinds of values against one stored row of three-bit codes; the
operands and both outputs are longer than they need to be. -/
theorem transposed_agrees_long_operands :
    let operands : Matrices .half :=
      ⟨List.replicate 62 (.ofNat .half 3) ++ [.nan, .infinite true, .zero true],
        [0x12345678, 0x9ABCDEF0, 0x0F1E2D3C, 7], [.ofNat .half 2, .nan], [.ofNat .half 5]⟩
    let dims : Dims := ⟨2, 1, 32⟩
    let out : List (Binary .half) := [.nan, 0, .ofNat .half 9]
    ∃ product : List Single, product.length = 2 ∧
      Config.multiplyInto ⟨.three, .g32⟩ .transposed dims operands out =
        .ok (overlay (product.map fun s => s.narrow .half) out) ∧
      Dense.multiplyAffineTransposed (operands.x.map fun x => x.widen) operands.w
          (operands.scales.map fun s => s.widen) (operands.biases.map fun b => b.widen)
          [0, 0, 0] 2 1 32 3 32 = (do
        requireStorage 32 Format.single.bytes
        return overlay product [0, 0, 0]) := by
  intro operands dims out
  exact transposed_agrees operands ⟨.three, .g32⟩ dims out [0, 0, 0] (by decide)
    ⟨by decide, by decide, by decide, by decide⟩ ⟨by decide, by decide, by decide, by decide⟩
    (by decide) (by decide) (by decide) (by decide) (by decide)

/-- The plain kernel writes the reference's product, narrowed, over the front of its
output, and the reference writes it over the front of its own. -/
theorem plain_agrees (operands : Matrices F) (config : Config) (dims : Dims)
    (out : List (Binary F)) (c : List Single) (hgroups : dims.n % config.group.size = 0)
    (hcovers : operands.Covers config dims false) (haddressed : operands.Addressed)
    (hm : dims.m < addressLimit) (hk : dims.k < addressLimit)
    (hout : dims.m * dims.n ≤ out.length) (houtLength : out.length < addressLimit)
    (hc : dims.m * dims.n ≤ c.length) :
    ∃ product : List Single, product.length = dims.m * dims.n ∧
      config.multiplyInto .plain dims operands out =
        .ok (overlay (product.map fun s => s.narrow F) out) ∧
      Dense.multiplyAffine (operands.x.map fun x => x.widen) operands.w
          (operands.scales.map fun s => s.widen) (operands.biases.map fun b => b.widen) c
          dims.m dims.n dims.k config.width.bits config.group.size = (do
        requireStorage (dims.k * dims.n) Format.single.bytes
        return overlay product c) := by
  have hfits : dims.Fits config false := .of_covers hcovers haddressed hm hk hout houtLength
  have hkernel : config.multiplyInto .plain dims operands out =
      .ok (overlay ((List.range (dims.m * dims.n)).map fun cell =>
        (operands.elementAt config dims .plain cell).narrow F) out) :=
    multiplyInto_eq_ok config dims .plain (fun h => nomatch h) hgroups hfits hcovers hout
  refine ⟨(List.range (dims.m * dims.n)).map (operands.elementAt config dims .plain),
    ?_, ?_, ?_⟩
  · rw [List.length_map, List.length_range]
  · rw [hkernel, List.map_map]
    rfl
  · exact Dense.multiplyAffine_eq hgroups hcovers hc

/-- One row with all kinds of values against three stored rows of five-bit codes. -/
theorem plain_agrees_long_operands :
    let operands : Matrices .brain :=
      ⟨[.ofNat .brain 3, .infinite false, .nan, 0],
        List.replicate 15 0x89ABCDEF ++ [7], [.ofNat .brain 2, 0, .zero true, .nan],
        [.ofNat .brain 5, .infinite true, 0]⟩
    let dims : Dims := ⟨1, 32, 3⟩
    let out : List (Binary .brain) := List.replicate 33 .nan
    let c : List Single := List.replicate 34 0
    ∃ product : List Single, product.length = 32 ∧
      Config.multiplyInto ⟨.five, .g32⟩ .plain dims operands out =
        .ok (overlay (product.map fun s => s.narrow .brain) out) ∧
      Dense.multiplyAffine (operands.x.map fun x => x.widen) operands.w
          (operands.scales.map fun s => s.widen) (operands.biases.map fun b => b.widen)
          c 1 32 3 5 32 = (do
        requireStorage 96 Format.single.bytes
        return overlay product c) := by
  intro operands dims out c
  exact plain_agrees operands ⟨.five, .g32⟩ dims out c (by decide)
    ⟨by decide, by decide, by decide, by decide⟩ ⟨by decide, by decide, by decide, by decide⟩
    (by decide) (by decide) (by decide) (by decide) (by decide)

end Config

end SubByte
