/-
# Blocks by position — nested loops as one loop

A list that is looked at piece by piece is looked at element by element, in the same
order.  The pieces of `SubByte.Blocks` are given here by the positions they hold, and a
loop over pieces with a loop over each of them inside is the one loop over all positions
(`foldl_range_mul`, `flatMap_range_mul`).  Both kinds of traversal of the library, the
kernels' by group and the references' by flat position, meet in this form.
-/
import SubByte.Blocks

namespace SubByte

variable {α β : Type}

/-! ## Positions in runs -/

theorem run_div {g i t : Nat} (ht : t < g) : (i * g + t) / g = i := by
  rw [Nat.mul_comm, Nat.mul_add_div (Nat.zero_lt_of_lt ht), Nat.div_eq_of_lt ht, Nat.add_zero]

theorem run_mod {g i t : Nat} (ht : t < g) : (i * g + t) % g = t := by
  rw [Nat.mul_comm, Nat.mul_add_mod, Nat.mod_eq_of_lt ht]

theorem row_end_le {rows total size i : Nat} (hi : i < rows) (h : rows * size ≤ total) :
    i * size + size ≤ total := by
  have hnext := Nat.mul_le_mul_right size (Nat.succ_le_of_lt hi)
  rw [Nat.succ_mul] at hnext
  exact Nat.le_trans hnext h

theorem run_apart {g i j : Nat} (hg : 0 < g) (h : j < i ∨ j / g ≠ i / g) :
    i < j / g * g ∨ j / g * g + (j % g + 1) ≤ i := by
  rw [← Nat.add_assoc, Nat.div_add_mod']
  by_cases hbehind : j < i
  · exact .inr hbehind
  · left
    have hrun : i / g < j / g :=
      Nat.lt_of_le_of_ne (Nat.div_le_div_right (Nat.le_of_not_lt hbehind))
        (Ne.symm (h.resolve_left hbehind))
    exact (Nat.div_lt_iff_lt_mul hg).mp hrun

/-- The numbers below `c * g` are `c` runs of `g` of them. -/
theorem flatMap_range_mul (f : Nat → α) (g : Nat) :
    ∀ c, ((List.range c).flatMap fun i => (List.range g).map fun t => f (i * g + t)) =
      (List.range (c * g)).map f
  | 0 => by simp only [Nat.zero_mul, List.range_zero, List.flatMap_nil, List.map_nil]
  | c + 1 => by
      rw [List.range_succ, List.flatMap_append, flatMap_range_mul f g c, Nat.succ_mul,
        List.range_add, List.map_append, List.map_map]
      simp only [List.flatMap_cons, List.flatMap_nil, List.append_nil]
      rfl

/-- A fold over runs, folding over each, is the fold over all numbers. -/
theorem foldl_range_mul (f : β → Nat → β) (c g : Nat) (b : β) :
    (List.range c).foldl (fun b i => (List.range g).foldl (fun b t => f b (i * g + t)) b) b =
      (List.range (c * g)).foldl f b := by
  have hruns := flatMap_range_mul (fun i => i) g c
  rw [List.map_id'] at hruns
  rw [← hruns, List.foldl_flatMap]
  simp only [List.foldl_map]

theorem take_drop_map_range (f : Nat → α) {n start count : Nat} (h : start + count ≤ n) :
    (((List.range n).map f).drop start).take count =
      (List.range count).map fun t => f (start + t) := by
  obtain ⟨rest, rfl⟩ := Nat.exists_eq_add_of_le h
  rw [Nat.add_assoc, List.range_add, List.map_append, List.drop_left' (by simp),
    List.map_map, List.range_add, List.map_append, List.take_left' (by simp)]
  rfl

theorem map_getD_range (d : α) :
    ∀ xs : List α, ((List.range xs.length).map fun i => xs.getD i d) = xs
  | [] => rfl
  | x :: xs => by
      rw [List.length_cons, List.range_succ_eq_map, List.map_cons, List.map_map]
      exact congrArg (x :: ·) (map_getD_range d xs)

theorem length_take_drop {xs : List α} {start count : Nat} (h : start + count ≤ xs.length) :
    ((xs.drop start).take count).length = count := by
  rw [List.length_take, List.length_drop]
  omega

theorem take_drop_eq_map (d : α) {xs : List α} {start count : Nat}
    (h : start + count ≤ xs.length) :
    (xs.drop start).take count = (List.range count).map fun t => xs.getD (start + t) d := by
  have hstretch := take_drop_map_range (fun i => xs.getD i d) h
  rwa [map_getD_range] at hstretch

theorem zip_map_range (d : β) (f : Nat → α) {count : Nat} {ys : List β} (h : count ≤ ys.length) :
    ((List.range count).map f).zip ys = (List.range count).map fun i => (f i, ys.getD i d) := by
  have hlength : ((List.range count).map f).length = count := by
    rw [List.length_map, List.length_range]
  have hfront : ys.take count = (List.range count).map fun i => ys.getD i d := by
    have hstretch : (ys.drop 0).take count = (List.range count).map fun i => ys.getD (0 + i) d :=
      take_drop_eq_map d (by omega)
    simpa only [List.drop_zero, Nat.zero_add] using hstretch
  rw [List.zip_eq_zip_take_min, hlength, Nat.min_eq_left h, hfront,
    List.take_of_length_le (Nat.le_of_eq hlength), List.zip_map']

theorem take_drop_set {xs : List α} {a : α} {start count i : Nat}
    (h : i < start ∨ start + count ≤ i) :
    ((xs.set i a).drop start).take count = (xs.drop start).take count := by
  rw [List.drop_set]
  split
  · rfl
  · rw [List.take_set, List.set_eq_of_length_le]
    rw [List.length_take]
    omega

/-! ## Pieces -/

theorem blocks_eq_map (size : Nat) :
    ∀ (count : Nat) (xs : List α),
      blocks size count xs = (List.range count).map fun i => (xs.drop (i * size)).take size
  | 0, _ => rfl
  | count + 1, xs => by
      rw [blocks, blocks_eq_map size count, List.range_succ_eq_map, List.map_cons, List.map_map,
        Nat.zero_mul, List.drop_zero]
      refine congrArg (xs.take size :: ·) (List.map_congr_left fun i _ => ?_)
      rw [Function.comp_apply, List.drop_drop, Nat.succ_mul, Nat.add_comm]

theorem take_blocks {size count n : Nat} (xs : List α) (h : n ≤ count) :
    (blocks size count xs).take n = blocks size n xs := by
  rw [blocks_eq_map, blocks_eq_map, ← List.map_take, List.take_range, Nat.min_eq_left h]

theorem take_zip_blocks {size count n : Nat} (xs : List α) {ys : List β} (hcount : n ≤ count)
    (hys : n ≤ ys.length) :
    ((blocks size count xs).zip ys).take n = (blocks size n xs).zip ys := by
  have hlength := length_blocks size n xs
  have hfront : (blocks size n xs).zip ys = (blocks size n xs).zip (ys.take n) := by
    rw [List.zip_eq_zip_take_min, hlength, Nat.min_eq_left hys,
      List.take_of_length_le (Nat.le_of_eq hlength)]
  rw [hfront, List.zip_eq_zipWith, List.take_zipWith, take_blocks xs hcount, List.zip_eq_zipWith]

theorem wholeBlocks_eq_map {size count : Nat} {xs : List α} (hsize : 0 < size)
    (h : xs.length = count * size) :
    wholeBlocks size xs = (List.range count).map fun i => (xs.drop (i * size)).take size := by
  rw [wholeBlocks, h, Nat.mul_div_cancel count hsize, blocks_eq_map]

theorem wholeBlocks_map_range {size : Nat} (hsize : 0 < size) (count : Nat) (f : Nat → α) :
    wholeBlocks size ((List.range (count * size)).map f) =
      (List.range count).map fun i => (List.range size).map fun t => f (i * size + t) := by
  rw [wholeBlocks_eq_map hsize (by rw [List.length_map, List.length_range])]
  refine List.map_congr_left fun i hi => take_drop_map_range f ?_
  exact row_end_le (List.mem_range.mp hi) (Nat.le_refl (count * size))

theorem take_eq_of_pieces {size count : Nat} {xs ys : List α}
    (h : ∀ i < count, (xs.drop (i * size)).take size = (ys.drop (i * size)).take size) :
    xs.take (count * size) = ys.take (count * size) := by
  rw [← flatten_blocks, ← flatten_blocks, blocks_eq_map, blocks_eq_map]
  exact congrArg List.flatten (List.map_congr_left fun i hi => h i (List.mem_range.mp hi))

theorem take_drop_flatten {size : Nat} : ∀ {pieces : List (List α)} {i : Nat} {piece : List α},
    (∀ p ∈ pieces, p.length = size) → pieces[i]? = some piece →
    (pieces.flatten.drop (i * size)).take size = piece
  | [], _, _, _, h => nomatch h
  | p :: pieces, 0, _, hsize, h => by
      cases h
      rw [Nat.zero_mul, List.drop_zero, List.flatten_cons,
        List.take_left' (hsize p List.mem_cons_self)]
  | p :: pieces, i + 1, piece, hsize, h => by
      have hrest : pieces[i]? = some piece := h
      have hp := hsize p List.mem_cons_self
      rw [List.flatten_cons, Nat.succ_mul, Nat.add_comm, ← List.drop_drop, List.drop_left' hp]
      exact take_drop_flatten (fun q hq => hsize q (List.mem_cons_of_mem p hq)) hrest

/-! ## Overlays -/

theorem getElem?_overlay {front old : List α} {i : Nat} (h : front.length ≤ i) :
    (overlay front old)[i]? = old[i]? := by
  rw [overlay, List.getElem?_append_right h, List.getElem?_drop, Nat.add_sub_cancel' h]

/-- The first `count` elements are those of `front`, and the others are the old ones. -/
structure Replaced (count : Nat) (front old new : List α) : Prop where
  front : new.take count = front
  behind : new.drop count = old.drop count
  length : new.length = old.length

theorem overlay_replaced {count : Nat} {front old : List α} (hfront : front.length = count)
    (h : count ≤ old.length) : Replaced count front old (overlay front old) where
  front := List.take_left' hfront
  behind := by rw [overlay, List.drop_left' hfront, hfront]
  length := length_overlay (by rwa [hfront])

theorem overlay_eq_front {front old : List α} (h : old.length ≤ front.length) :
    overlay front old = front := by
  rw [overlay, List.drop_eq_nil_of_le h, List.append_nil]

end SubByte
