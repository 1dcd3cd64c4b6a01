/-
# Regrouping — the terms that the lanes share out

The kernel by lanes and the transposed kernel add up the same terms, in another order.
Term `t` of an element is read here at its flat place, its code bit by bit
(`Matrices.term`), with no group, row or word in sight.  The transposed kernel takes the
terms as they come.  Lane `l` takes the terms at the places `l`, `l + 8`, `l + 16` and so
on (`lanePlaces`), and as every place is in one lane, every term is taken once
(`lanePlaces_perm`).  Sums of singles depend on their order, so the two elements need not
be the same number; what is the same is what they are made of (`lanes_regroup`).
-/
import Mathlib.Data.List.Perm.Basic
import SubByte.Proofs.Dense.Affine
import SubByte.Proofs.Product.Whole

namespace SubByte

variable {F : Format}

/-! ## Terms -/

/-- Term `t` of the element in row `i` and column `j`, for rows of `k` terms. -/
def Matrices.term (operands : Matrices F) (config : Config) (k i j t : Nat) :
    Except Fault Single := do
  let group := j * (k / config.group.size) + t / config.group.size
  let x ← fetch operands.x (i * k + t)
  let code ← Packing.readCode operands.w config.width.bits (j * k + t)
  let scale ← fetch operands.scales group
  let bias ← fetch operands.biases group
  return x.widen * (.ofNat .single code * scale.widen + bias.widen)

/-- What weight `i` of a stored row is made of is found at its flat place: no row begins inside
a group, so the groups may be counted along the row or from the first row on. -/
theorem Matrices.Stores.read_eq_ok {operands : Matrices F} {config : Config} {rows cols r i : Nat}
    (h : operands.Stores config rows (cols / config.group.size))
    (hgroups : cols % config.group.size = 0) (hr : r < rows) (hi : i < cols) :
    let place := r * cols + i
    let group := r * (cols / config.group.size) + i / config.group.size
    group = place / config.group.size ∧
      Packing.readCode operands.w config.width.bits place =
        .ok (Packing.codeAt config.width.bits (Packing.streamOfWords operands.w) place) ∧
      fetch operands.scales group = .ok (operands.scales.getD group .nan) ∧
      fetch operands.biases group = .ok (operands.biases.getD group .nan) := by
  intro place group
  have hcols := Nat.div_mul_cancel (Nat.dvd_of_mod_eq_zero hgroups)
  have hplace : place < rows * (cols / config.group.size) * config.group.size := by
    rw [Nat.mul_assoc, hcols]
    exact Dense.place_lt hr hi
  have hgroup : group = place / config.group.size := by
    simp only [group, place]
    rw [← hcols, ← Nat.mul_assoc, Nat.mul_div_cancel _ config.group.size_pos,
      Nat.mul_comm _ config.group.size, Nat.mul_add_div config.group.size_pos]
  have hlast : group < rows * (cols / config.group.size) := by
    rw [hgroup]
    exact (Nat.div_lt_iff_lt_mul config.group.size_pos).mpr hplace
  exact ⟨hgroup, h.readCode_eq_ok hplace,
    Dense.fetch_getD .nan (Nat.lt_of_lt_of_le hlast h.scales),
    Dense.fetch_getD .nan (Nat.lt_of_lt_of_le hlast h.biases)⟩

theorem Matrices.term_eq_ok {operands : Matrices F} {config : Config} {dims : Dims} {i j t : Nat}
    (hgroups : dims.k % config.group.size = 0) (hcovers : operands.Covers config dims true)
    (hi : i < dims.m) (hj : j < dims.n) (ht : t < dims.k) :
    operands.term config dims.k i j t =
      .ok (operands.xAt (i * dims.k + t) * operands.weightAt config (j * dims.k + t)) := by
  have hstored : operands.Stores config dims.n (dims.k / config.group.size) :=
    hcovers.stores hgroups
  have hx := Nat.lt_of_lt_of_le (Dense.place_lt hi ht) hcovers.x
  obtain ⟨hgroup, hcode, hscale, hbias⟩ := hstored.read_eq_ok hgroups hj ht
  rw [term, Dense.fetch_getD .nan hx, ok_bind, hcode, ok_bind, hscale, ok_bind, hbias, ok_bind,
    pure_eq_ok, hgroup, weightAt, Affine.weight, Binary.mul_comm (affineAt _ _).scale]
  rfl

/-! ## Lanes -/

namespace Kernel

/-- The places of lane `l`: every eighth below `k`. -/
def lanePlaces (k l : Nat) : List Nat :=
  (List.range k).filter fun t => t % Packing.lanes = l

/-- The sum in lane `l`, ascending from zero. -/
def laneSum (term : Nat → Single) (k l : Nat) : Single :=
  (lanePlaces k l).foldl (fun sum t => sum + term t) 0

/-- Sorted by a key below `count`, everything with a key below `count` comes up once. -/
theorem flatMap_filter_perm {α : Type} (key : α → Nat) (xs : List α) (count : Nat) :
    ((List.range count).flatMap fun l => xs.filter fun a => key a = l).Perm
      (xs.filter fun a => key a < count) := by
  induction count with
  | zero => simp
  | succ count ih =>
      have hsplit := List.filter_append_perm (fun a => decide (key a < count))
        (xs.filter fun a => key a < count + 1)
      have hbelow : (xs.filter fun a => key a < count + 1).filter (fun a => key a < count) =
          xs.filter fun a => key a < count := by
        rw [List.filter_filter]
        refine List.filter_congr fun a _ => ?_
        rw [← Bool.decide_and]
        exact decide_eq_decide.mpr (by omega)
      have hlast : (xs.filter fun a => key a < count + 1).filter (fun a => !decide (key a < count)) =
          xs.filter fun a => key a = count := by
        rw [List.filter_filter]
        refine List.filter_congr fun a _ => ?_
        rw [← decide_not, ← Bool.decide_and]
        exact decide_eq_decide.mpr (by omega)
      rw [hbelow, hlast] at hsplit
      rw [List.range_succ, List.flatMap_append, List.flatMap_singleton]
      exact (ih.append_right _).trans hsplit

/-- Every place is in one lane, once. -/
theorem lanePlaces_perm (k : Nat) :
    ((List.range Packing.lanes).flatMap (lanePlaces k)).Perm (List.range k) := by
  have hperm := flatMap_filter_perm (· % Packing.lanes) (List.range k) Packing.lanes
  rwa [List.filter_eq_self.mpr fun t _ => decide_eq_true (Nat.mod_lt t (by decide))] at hperm

theorem lanePlaces_steps (steps : Nat) {l : Nat} (hl : l < Packing.lanes) :
    lanePlaces (steps * Packing.lanes) l =
      (List.range steps).map fun s => s * Packing.lanes + l := by
  induction steps with
  | zero => simp [lanePlaces]
  | succ steps ih =>
      have hstep : ((List.range Packing.lanes).map fun t => steps * Packing.lanes + t).filter
          (fun t => t % Packing.lanes = l) = [steps * Packing.lanes + l] := by
        have hmod : ∀ t, (steps * Packing.lanes + t) % Packing.lanes = t % Packing.lanes :=
          fun t => Nat.mul_add_mod' steps Packing.lanes t
        have hone : (List.range Packing.lanes).filter (fun t => t % Packing.lanes = l) = [l] := by
          clear ih
          revert l
          decide
        rw [List.filter_map]
        simp only [Function.comp_def, hmod, hone, List.map_cons, List.map_nil]
      rw [lanePlaces] at ih
      rw [lanePlaces, Nat.succ_mul, List.range_add, List.filter_append, ih, hstep,
        List.range_succ, List.map_append, List.map_cons, List.map_nil]

theorem laneSum_eq_laneAt (operands : Matrices F) (config : Config) {k l : Nat} (x w : Nat)
    (hk : Packing.lanes ∣ k) (hl : l < Packing.lanes) :
    laneSum (fun t => operands.xAt (x + t) * operands.weightAt config (w + t)) k l =
      operands.laneAt config x w (k / Packing.lanes) l := by
  have hsteps := lanePlaces_steps (k / Packing.lanes) hl
  rw [Nat.div_mul_cancel hk] at hsteps
  rw [laneSum, hsteps, List.foldl_map]
  rfl

/-- Groups are whole steps, so whole groups are. -/
theorem lanes_dvd (group : GroupSize) {k : Nat} (h : k % group.size = 0) : Packing.lanes ∣ k := by
  have hsize : Packing.lanes ∣ group.size := by
    cases group <;> decide
  exact hsize.trans (Nat.dvd_of_mod_eq_zero h)

end Kernel

/-! ## Elements -/

theorem getElem?_cell {α : Type} {m n i j : Nat} (hi : i < m) (hj : j < n) (value : Nat → α)
    (out : List α) : (overlay ((List.range (m * n)).map value) out)[i * n + j]? =
      some (value (i * n + j)) := by
  have hcell := Dense.place_lt hi hj
  rw [overlay, List.getElem?_append_left (by rwa [List.length_map, List.length_range]),
    List.getElem?_map, List.getElem?_range hcell, Option.map_some]

/-- With four and eight bits the product by lanes is there whenever its operands are long
enough.  Its elements are sums of eight lanes, the lanes sums of the transposed kernel's
terms, and every one of these is in one lane, once. -/
theorem Config.lanes_regroup (operands : Matrices F) (config : Config) (dims : Dims)
    (out : List (Binary F)) (hwidth : config.width = .four ∨ config.width = .eight)
    (hgroups : dims.k % config.group.size = 0) (hcovers : operands.Covers config dims true)
    (haddressed : operands.Addressed) (hm : dims.m < addressLimit) (hn : dims.n < addressLimit)
    (hout : dims.m * dims.n ≤ out.length) (houtLength : out.length < addressLimit) :
    ((List.range 8).flatMap (Kernel.lanePlaces dims.k)).Perm (List.range dims.k) ∧
      ∃ byLanes inOrder, config.multiplyInto .lanes dims operands out = .ok byLanes ∧
        config.multiplyInto .transposed dims operands out = .ok inOrder ∧
        ∀ i < dims.m, ∀ j < dims.n, ∃ term : Nat → Single,
          (∀ t < dims.k, operands.term config dims.k i j t = .ok (term t)) ∧
          (let lane := Kernel.laneSum term dims.k
          byLanes[i * dims.n + j]? = some ((lane 0 + lane 1 + lane 2 + lane 3 + lane 4 +
            lane 5 + lane 6 + lane 7).narrow F)) ∧
          inOrder[i * dims.n + j]? =
            some (((List.range dims.k).foldl (fun sum t => sum + term t) 0).narrow F) := by
  have hfits : dims.Fits config true := .of_covers hcovers haddressed hm hn hout houtLength
  have hlanes : Variant.lanesFit config.width = true := by
    rcases hwidth with h | h <;> rw [h] <;> rfl
  refine ⟨Kernel.lanePlaces_perm dims.k, _, _,
    multiplyInto_eq_ok config dims .lanes (fun _ => hlanes) hgroups hfits hcovers hout,
    multiplyInto_eq_ok config dims .transposed (fun h => nomatch h) hgroups hfits hcovers hout, ?_⟩
  intro i hi j hj
  -- Both kernels read their terms off the same two rows.
  refine ⟨fun t => operands.xAt (i * dims.k + t) * operands.weightAt config (j * dims.k + t),
    fun t ht => operands.term_eq_ok hgroups hcovers hi hj ht, ?_, ?_⟩
  · have hlane : (List.range Packing.lanes).map (operands.laneAt config (i * dims.k) (j * dims.k)
        (dims.k / Packing.lanes)) = (List.range Packing.lanes).map (Kernel.laneSum
          (fun t => operands.xAt (i * dims.k + t) * operands.weightAt config (j * dims.k + t))
            dims.k) :=
      List.map_congr_left fun l hl => (Kernel.laneSum_eq_laneAt operands config _ _
        (Kernel.lanes_dvd config.group hgroups) (List.mem_range.mp hl)).symm
    rw [getElem?_cell hi hj]
    simp only [Matrices.elementAt, run_div hj, run_mod hj, hlane]
    rfl
  · rw [getElem?_cell hi hj]
    simp only [Matrices.elementAt, Matrices.dotAt, run_div hj, run_mod hj]

/-- One large activation and many small ones: added one by one to the large one the small
ones are lost, but seven lanes add up four of them each. -/
theorem Config.lanes_regroup_apart :
    let operands : Matrices .single :=
      ⟨.ofNat .single 16777216 :: List.replicate 32 (.ofNat .single 1),
        List.replicate 9 0x01010101, [.ofNat .single 1, .nan], [0]⟩
    ∃ term : Nat → Single,
      (∀ t < 32, operands.term ⟨.eight, .g32⟩ 32 0 0 t = .ok (term t)) ∧
      (let lane := Kernel.laneSum term 32
      (lane 0 + lane 1 + lane 2 + lane 3 + lane 4 + lane 5 + lane 6 + lane 7).narrow .single =
        .ofNat .single 16777244) ∧
      ((List.range 32).foldl (fun sum t => sum + term t) 0).narrow .single =
        .ofNat .single 16777216 := by
  intro operands
  obtain ⟨-, byLanes, inOrder, hbyLanes, hinOrder, hcells⟩ :=
    lanes_regroup operands ⟨.eight, .g32⟩ ⟨1, 1, 32⟩ [.nan, 0] (.inr rfl) (by decide)
      ⟨by decide, by decide, by decide, by decide⟩ ⟨by decide, by decide, by decide, by decide⟩
      (by decide) (by decide) (by decide) (by decide)
  have hlanesProduct : Config.multiplyInto ⟨.eight, .g32⟩ .lanes ⟨1, 1, 32⟩ operands [.nan, 0] =
      .ok [.ofNat .single 16777244, 0] := by
    decide +kernel
  have hserialProduct : Config.multiplyInto ⟨.eight, .g32⟩ .transposed ⟨1, 1, 32⟩ operands
      [.nan, 0] = .ok [.ofNat .single 16777216, 0] := by
    decide +kernel
  cases hbyLanes.symm.trans hlanesProduct
  cases hinOrder.symm.trans hserialProduct
  obtain ⟨term, hterm, hlanes, hserial⟩ := hcells 0 (by decide) 0 (by decide)
  exact ⟨term, hterm, (Option.some.inj hlanes).symm, (Option.some.inj hserial).symm⟩

end SubByte
