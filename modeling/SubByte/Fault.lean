/-
# Faults — computations that have no answer

Reading past the end of the data and dividing by zero have no value, and no list is
longer than what the addresses can hold.  A computation that meets one of these stops,
and its caller learns which.  This is kept apart from the causes for which a call is
rejected (`SubByte.Error`): a rejected call says what is wrong with its arguments, a
fault says that nobody looked.

The readers of this module are the only places where the library touches data by
position.
-/

namespace SubByte

/-- Why a computation has no value. -/
inductive Fault where
  /-- an index or a range that reaches past the end of the data -/
  | outOfBounds
  /-- a quotient or a remainder by zero -/
  | zeroDivisor
  /-- new elements that no allocation is large enough for -/
  | outOfStorage
deriving DecidableEq, Repr

/-- The element at position `i`. -/
def fetch {α : Type} (xs : List α) (i : Nat) : Except Fault α :=
  match xs[i]? with
  | some a => .ok a
  | none => .error .outOfBounds

/-- The `count` elements from position `start` on, all of which must be there. -/
def slice {α : Type} (xs : List α) (start count : Nat) : Except Fault (List α) :=
  if start + count ≤ xs.length then .ok ((xs.drop start).take count) else .error .outOfBounds

/-- The quotient, which a zero divisor does not have. -/
def quotient (a b : Nat) : Except Fault Nat :=
  if b = 0 then .error .zeroDivisor else .ok (a / b)

/-- The most bytes of one allocation, so that differences of its addresses have a sign. -/
def storageLimit : Nat := 9223372036854775807

/-- New elements, of the given number of bytes each, must fit one allocation. -/
def requireStorage (count bytes : Nat) : Except Fault Unit :=
  if count * bytes ≤ storageLimit then .ok () else .error .outOfStorage

theorem fetch_eq_ok {α : Type} {xs : List α} {i : Nat} (h : i < xs.length) :
    fetch xs i = .ok xs[i] := by
  simp [fetch, h]

theorem slice_eq_ok {α : Type} {xs : List α} {start count : Nat} (h : start + count ≤ xs.length) :
    slice xs start count = .ok ((xs.drop start).take count) := by
  simp [slice, h]

theorem requireStorage_eq_ok_iff {count bytes : Nat} :
    requireStorage count bytes = .ok () ↔ count * bytes ≤ storageLimit := by
  unfold requireStorage
  split
  · next hlimit => exact ⟨fun _ => hlimit, fun _ => rfl⟩
  · next hlimit => exact ⟨nofun, fun h => absurd h hlimit⟩

/-- New elements are refused for what they are too many of, and for nothing else. -/
theorem requireStorage_eq_error_iff {count bytes : Nat} {f : Fault} :
    requireStorage count bytes = .error f ↔
      f = .outOfStorage ∧ storageLimit < count * bytes := by
  unfold requireStorage
  split
  · next hlimit => exact ⟨nofun, fun h => absurd h.2 (Nat.not_lt_of_le hlimit)⟩
  · next hlimit =>
      constructor
      · intro h
        cases h
        exact ⟨rfl, Nat.lt_of_not_le hlimit⟩
      · rintro ⟨rfl, -⟩
        rfl

end SubByte
