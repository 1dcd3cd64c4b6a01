/-
# Blocks — a list in pieces of one length

Rows, groups and packing units are all consecutive pieces of one length.  `blocks` cuts
a given number of them off the front, `wholeBlocks` as many as there are, and `overlay`
writes new elements over the front of old ones.  A remainder that does not fill a block
belongs to none.
-/

namespace SubByte

/-- The first `count` consecutive pieces of length `size`. -/
def blocks {α : Type} (size : Nat) : Nat → List α → List (List α)
  | 0, _ => []
  | count + 1, xs => xs.take size :: blocks size count (xs.drop size)

/-- All complete pieces of length `size`; there are none of length zero. -/
def wholeBlocks {α : Type} (size : Nat) (xs : List α) : List (List α) :=
  blocks size (xs.length / size) xs

/-- `front` written over the beginning of `old`. -/
def overlay {α : Type} (front old : List α) : List α :=
  front ++ old.drop front.length

theorem length_blocks {α : Type} (size count : Nat) (xs : List α) :
    (blocks size count xs).length = count := by
  induction count generalizing xs with
  | zero => rfl
  | succ n ih => simp [blocks, ih]

theorem length_of_mem_blocks {α : Type} {size count : Nat} {xs piece : List α}
    (hlen : count * size ≤ xs.length) (h : piece ∈ blocks size count xs) : piece.length = size := by
  induction count generalizing xs with
  | zero => cases h
  | succ n ih =>
    have hs : size ≤ xs.length := Nat.le_trans (Nat.le_mul_of_pos_left size n.succ_pos) hlen
    rcases List.mem_cons.1 h with rfl | h
    · simp [Nat.min_eq_left hs]
    · refine ih ?_ h
      rw [Nat.succ_mul] at hlen
      simp only [List.length_drop]
      omega

/-- Cutting loses nothing: the pieces joined are the front of the list. -/
theorem flatten_blocks {α : Type} (size count : Nat) (xs : List α) :
    (blocks size count xs).flatten = xs.take (count * size) := by
  induction count generalizing xs with
  | zero => simp [blocks]
  | succ n ih => rw [blocks, List.flatten_cons, ih, Nat.succ_mul, Nat.add_comm, List.take_add]

theorem length_overlay {α : Type} {front old : List α} (h : front.length ≤ old.length) :
    (overlay front old).length = old.length := by
  simp only [overlay, List.length_append, List.length_drop]
  omega

end SubByte
