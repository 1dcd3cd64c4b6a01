/-
# Written — a buffer while it is being written

A call that writes as it goes leaves a buffer behind even where it stops: what has been
written until then, and the old elements after it.  The two loops that write are stated
here with that buffer, one element at a time (`writeElements`) and one block at a time
(`writeBlocks`).  When none of their steps stops, neither do they, and what they leave is
what the steps have given, over the front of the old elements.

A call that works out its result first and writes it in one piece cannot stop half way.
`Written.ofResult` is such a call; to show that one of the loops is one is to show that it
is all or nothing.
-/
import SubByte.Product.Plan
import SubByte.Proofs.Blocks
import SubByte.Proofs.Sequence

namespace SubByte

variable {α : Type}

/-- A result in the place of the old data, which stay where there is none. -/
def Written.ofResult (result : Checked QuantError α) (old : α) : Written α :=
  match result with
  | .ok new => (.ok (), new)
  | .error stop => (.error stop, old)

/-- A call that checks first, and writes only where nothing is wrong. -/
def Written.guarded (check : Checked QuantError Unit) (write : Written α) (old : α) : Written α :=
  match check with
  | .error stop => (.error stop, old)
  | .ok () => write

/-- Element after element, counted from `j`, up to the first that has no value. -/
def writeElements (element : Nat → Checked QuantError α) : Nat → List α → Written (List α)
  | _, [] => (.ok (), [])
  | j, old :: rest =>
    match element j with
    | .error stop => (.error stop, old :: rest)
    | .ok new =>
      let written := writeElements element (j + 1) rest
      (written.1, new :: written.2)

/-- Step after step, each on its own block, for as long as there are complete ones. -/
def writeBlocks (size : Nat) : List (List α → Written (List α)) → List α → Written (List α)
  | [], out => (.ok (), out)
  | step :: steps, out =>
    if out.length < size then (.ok (), out)
    else
      let block := step (out.take size)
      match block.1 with
      | .error stop => (.error stop, block.2 ++ out.drop size)
      | .ok () =>
        let written := writeBlocks size steps (out.drop size)
        (written.1, block.2 ++ written.2)

theorem Written.guarded_total {check : Checked QuantError Unit} {write : Written α} {new : α}
    (old : α) (hfaults : Checked.FaultsOnly (fun _ => False) check)
    (hwrite : check = .ok () → write = (.ok (), new)) :
    let written := Written.guarded check write old
    Checked.FaultsOnly (fun _ => False) written.1 ∧ (written.1 = .ok () ↔ check = .ok ()) ∧
      (∀ stop, written.1 = .error stop → written.2 = old) ∧
      (written.1 = .ok () → written.2 = new) := by
  intro written
  cases check with
  | error stop => exact ⟨hfaults, Iff.rfl, fun _ _ => rfl, nofun⟩
  | ok _ =>
      have hwritten : written = (.ok (), new) := hwrite rfl
      rw [hwritten]
      exact ⟨.ok (), Iff.rfl, nofun, fun _ => rfl⟩

theorem writeElements_eq_ok {element : Nat → Checked QuantError α} :
    ∀ {old : List α} {j : Nat} (value : Nat → α),
      (∀ i < old.length, element (j + i) = .ok (value i)) →
      writeElements element j old = (.ok (), (List.range old.length).map value)
  | [], _, _, _ => rfl
  | _ :: rest, j, value, h => by
      have hfirst : element j = .ok (value 0) := h 0 (Nat.zero_lt_succ _)
      have hrest : writeElements element (j + 1) rest =
          (.ok (), (List.range rest.length).map fun i => value (i + 1)) := by
        refine writeElements_eq_ok _ fun i hi => ?_
        rw [Nat.add_assoc, Nat.add_comm 1]
        exact h (i + 1) (Nat.succ_lt_succ hi)
      rw [writeElements, hfirst]
      simp only [hrest]
      rw [List.length_cons, List.range_succ_eq_map, List.map_cons, List.map_map]
      rfl

theorem writeBlocks_eq_ok {ι : Type} {size : Nat} {step : ι → List α → Written (List α)}
    {block : ι → List α} : ∀ {slots : List ι} {out : List α}, slots.length * size ≤ out.length →
      (∀ i ∈ slots, (block i).length = size ∧
        ∀ old : List α, old.length = size → step i old = (.ok (), block i)) →
      writeBlocks size (slots.map step) out = (.ok (), overlay (slots.map block).flatten out)
  | [], _, _, _ => rfl
  | i :: slots, out, hroom, hsteps => by
      obtain ⟨hlength, hstep⟩ := hsteps i List.mem_cons_self
      rw [List.length_cons, Nat.succ_mul] at hroom
      have hsize : size ≤ out.length := by omega
      have hfront : (out.take size).length = size := by
        rw [List.length_take, Nat.min_eq_left hsize]
      have hrest : writeBlocks size (slots.map step) (out.drop size) =
          (.ok (), overlay (slots.map block).flatten (out.drop size)) := by
        refine writeBlocks_eq_ok ?_ fun next hnext => hsteps next (List.mem_cons_of_mem i hnext)
        rw [List.length_drop]
        omega
      rw [List.map_cons, writeBlocks, if_neg (Nat.not_lt_of_le hsize)]
      simp only [hstep _ hfront, hrest, overlay, List.map_cons, List.flatten_cons,
        List.append_assoc, List.drop_drop, List.length_append, hlength]

theorem writeBlocks_take {size : Nat} (hsize : 0 < size) :
    ∀ (steps : List (List α → Written (List α))) (out : List α),
      writeBlocks size (steps.take (out.length / size)) out = writeBlocks size steps out
  | [], _ => by rw [List.take_nil]
  | step :: steps, out => by
      by_cases hshort : out.length < size
      · rw [Nat.div_eq_of_lt hshort, List.take_zero, writeBlocks, writeBlocks, if_pos hshort]
      · have hcount : out.length / size = (out.drop size).length / size + 1 := by
          rw [List.length_drop, ← Nat.add_div_right _ hsize,
            Nat.sub_add_cancel (Nat.le_of_not_lt hshort)]
        rw [hcount, List.take_succ_cons, writeBlocks, writeBlocks,
          writeBlocks_take hsize steps (out.drop size)]

end SubByte
