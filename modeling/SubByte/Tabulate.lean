/-
# Tabulation — results at consecutive numbers

`tabulate f i count` calls `f` at `i`, `i + 1`, and so on, and lists what it returns.  The
first call that fails ends the tabulation, and no number behind it is looked at: an early
failure is found at once, however many numbers were to follow.
-/

namespace SubByte

/-- `tabulate`, with what has been listed before, the last of it first. -/
def tabulateOnto {ε α : Type} (f : Nat → Except ε α) : Nat → Nat → List α → Except ε (List α)
  | _, 0, done => .ok done.reverse
  | i, count + 1, done =>
    match f i with
    | .ok a => tabulateOnto f (i + 1) count (a :: done)
    | .error e => .error e

/-- The results of `f` at the `count` numbers from `i` on, up to the first failure. -/
def tabulate {ε α : Type} (f : Nat → Except ε α) (i count : Nat) : Except ε (List α) :=
  tabulateOnto f i count []

theorem tabulateOnto_eq {ε α : Type} (f : Nat → Except ε α) (i count : Nat) (done : List α) :
    tabulateOnto f i count done =
      (tabulate f i count).map fun rest => done.reverse ++ rest := by
  induction count generalizing i done with
  | zero => simp [tabulate, tabulateOnto, Except.map]
  | succ n ih =>
    rw [tabulate, tabulateOnto, tabulateOnto]
    cases f i with
    | error e => rfl
    | ok a =>
      show tabulateOnto f (i + 1) n (a :: done) =
        (tabulateOnto f (i + 1) n [a]).map fun rest => done.reverse ++ rest
      rw [ih (i + 1) (a :: done), ih (i + 1) [a]]
      cases tabulate f (i + 1) n with
      | error e => rfl
      | ok rest => simp [Except.map]

theorem tabulate_succ {ε α : Type} (f : Nat → Except ε α) (i count : Nat) :
    tabulate f i (count + 1) = (do
      let a ← f i
      let rest ← tabulate f (i + 1) count
      return a :: rest) := by
  rw [tabulate, tabulateOnto]
  cases f i with
  | error e => rfl
  | ok a =>
    show tabulateOnto f (i + 1) count [a] = _
    rw [tabulateOnto_eq]
    rfl

theorem tabulate_eq_ok {ε α : Type} {f : Nat → Except ε α} {g : Nat → α} {i count : Nat}
    (h : ∀ j, i ≤ j → j < i + count → f j = .ok (g j)) :
    tabulate f i count = .ok ((List.range' i count).map g) := by
  induction count generalizing i with
  | zero => rfl
  | succ n ih =>
    have hrest := ih (i := i + 1) fun j hlow hhigh => h j (by omega) (by omega)
    rw [tabulate_succ, h i (Nat.le_refl i) (by omega), hrest]
    rfl

end SubByte
