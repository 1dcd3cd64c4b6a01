/-
# Sequence — computations that may stop, one after another

What a sequence of steps returns is known when each step is known to return: then the
monadic traversals are the plain ones (`mapM_eq_ok`, `foldlM_eq_ok`).  Read the other way
round, a sequence that has returned gives back what every step of it returned
(`bind_eq_ok`), and it meets no fault that none of its steps can meet (`FaultsOnly.bind`).
Nothing here is about numbers or tensors; the modules behind this one use it instead of
opening `do` blocks themselves.
-/
import Mathlib.Data.List.Forall2
import SubByte.Error
import SubByte.Tabulate

namespace SubByte

variable {ε α β γ : Type}

@[simp] theorem ok_bind (a : α) (f : α → Except ε β) : (Except.ok a >>= f) = f a := rfl

theorem pure_eq_ok (a : α) : (pure a : Except ε α) = .ok a := rfl

/-- A sequence that returns has returned at its first step. -/
theorem bind_eq_ok {x : Except ε α} {f : α → Except ε β} {b : β} :
    (x >>= f) = .ok b ↔ ∃ a, x = .ok a ∧ f a = .ok b := by
  cases x with
  | ok a =>
      constructor
      · intro h
        exact ⟨a, rfl, h⟩
      · rintro ⟨_, ha, h⟩
        cases ha
        exact h
  | error e =>
      constructor
      · intro h
        cases h
      · rintro ⟨_, ha, _⟩
        cases ha

theorem bind_eq_error {x : Except ε α} {f : α → Except ε β} {e : ε} :
    (x >>= f) = .error e ↔ x = .error e ∨ ∃ a, x = .ok a ∧ f a = .error e := by
  cases x with
  | ok a =>
      constructor
      · intro h
        exact .inr ⟨a, rfl, h⟩
      · rintro (h | ⟨_, ha, h⟩)
        · cases h
        · cases ha
          exact h
  | error d =>
      constructor
      · intro h
        cases h
        exact .inl rfl
      · rintro (h | ⟨_, ha, _⟩)
        · cases h
          rfl
        · cases ha

theorem mapM_eq_ok {f : α → Except ε β} {g : α → β} :
    ∀ {xs : List α}, (∀ a ∈ xs, f a = .ok (g a)) → xs.mapM f = .ok (xs.map g)
  | [], _ => rfl
  | a :: xs, h => by
      have hrest := mapM_eq_ok fun b hb => h b (List.mem_cons_of_mem a hb)
      rw [List.mapM_cons, h a List.mem_cons_self, ok_bind, hrest]
      rfl

theorem mapM_eq_some {f : α → Option β} {g : α → β} :
    ∀ {xs : List α}, (∀ a ∈ xs, f a = some (g a)) → xs.mapM f = some (xs.map g)
  | [], _ => rfl
  | a :: xs, h => by
      have hrest := mapM_eq_some fun b hb => h b (List.mem_cons_of_mem a hb)
      rw [List.mapM_cons, h a List.mem_cons_self, hrest]
      rfl

theorem foldlM_eq_ok {f : β → α → Except ε β} {g : β → α → β} :
    ∀ {xs : List α} {b : β}, (∀ b, ∀ a ∈ xs, f b a = .ok (g b a)) →
      xs.foldlM f b = .ok (xs.foldl g b)
  | [], _, _ => rfl
  | a :: xs, b, h => by
      rw [List.foldlM_cons, h b a List.mem_cons_self, ok_bind, List.foldl_cons]
      exact foldlM_eq_ok fun c d hd => h c d (List.mem_cons_of_mem a hd)

theorem mapM_map_eq_ok {p : γ → α} {f : α → Except ε β} {g : γ → β} {xs : List γ}
    (h : ∀ c ∈ xs, f (p c) = .ok (g c)) : (xs.map p).mapM f = .ok (xs.map g) := by
  rw [List.mapM_map]
  exact mapM_eq_ok h

theorem foldlM_map_eq_ok {p : γ → α} {f : β → α → Except ε β} {g : β → γ → β} {xs : List γ}
    {b : β} (h : ∀ b, ∀ c ∈ xs, f b (p c) = .ok (g b c)) :
    (xs.map p).foldlM f b = .ok (xs.foldl g b) := by
  rw [List.foldlM_map]
  exact foldlM_eq_ok h

/-! ## Tables -/

theorem exists_of_mem_right {R : α → β → Prop} : ∀ {xs : List α} {ys : List β} {b : β},
    List.Forall₂ R xs ys → b ∈ ys → ∃ a ∈ xs, R a b
  | _, _, _, .nil, hb => nomatch hb
  | a :: _, _, b, .cons h hrest, hb => by
      rcases List.mem_cons.mp hb with rfl | hb
      · exact ⟨a, List.mem_cons_self, h⟩
      · obtain ⟨c, hc, hcb⟩ := exists_of_mem_right hrest hb
        exact ⟨c, List.mem_cons_of_mem a hc, hcb⟩

theorem tabulate_congr {f g : Nat → Except ε α} : ∀ {count i : Nat},
    (∀ j, i ≤ j → j < i + count → f j = g j) → tabulate f i count = tabulate g i count
  | 0, _, _ => rfl
  | count + 1, i, h => by
      have hrest : tabulate f (i + 1) count = tabulate g (i + 1) count :=
        tabulate_congr fun j hlow hhigh => h j (by omega) (by omega)
      rw [tabulate_succ, tabulate_succ, h i (Nat.le_refl i) (by omega), hrest]

theorem forall₂_of_tabulate {f : Nat → Except ε α} : ∀ {count i : Nat} {table : List α},
    tabulate f i count = .ok table →
    List.Forall₂ (fun j a => f j = .ok a) (List.range' i count) table
  | 0, _, _, h => by
      cases h
      exact .nil
  | count + 1, i, _, h => by
      rw [tabulate_succ, bind_eq_ok] at h
      obtain ⟨a, ha, h⟩ := h
      obtain ⟨rest, hrest, h⟩ := bind_eq_ok.mp h
      cases h
      exact .cons ha (forall₂_of_tabulate hrest)

theorem exists_of_tabulate_error {f : Nat → Except ε α} {e : ε} : ∀ {count i : Nat},
    tabulate f i count = .error e → ∃ j, i ≤ j ∧ j < i + count ∧ f j = .error e
  | 0, _, h => nomatch h
  | count + 1, i, h => by
      rw [tabulate_succ, bind_eq_error] at h
      rcases h with hfirst | ⟨a, -, h⟩
      · exact ⟨i, Nat.le_refl i, by omega, hfirst⟩
      · rcases bind_eq_error.mp h with hrest | ⟨rest, -, h⟩
        · obtain ⟨j, hlow, hhigh, hj⟩ := exists_of_tabulate_error hrest
          exact ⟨j, by omega, by omega, hj⟩
        · cases h

/-! ## Causes and faults -/

namespace Checked

@[simp] theorem ofFault_ok (a : α) : (ofFault (.ok a) : Checked ε α) = .ok a := rfl

@[simp] theorem ofExcept_ok (a : α) : ofExcept (.ok a : Except ε α) = .ok a := rfl

@[simp] theorem ofShape_ok (a : α) : ofShape (.ok a) = .ok a := rfl

theorem ofFault_eq_ok {x : Except Fault α} {a : α} :
    (ofFault x : Checked ε α) = .ok a ↔ x = .ok a := by
  cases x with
  | ok b => simp only [ofFault, Except.ok.injEq]
  | error f => simp only [ofFault, reduceCtorEq]

theorem ofFault_eq_error {x : Except Fault α} {stop : Stop ε} :
    (ofFault x : Checked ε α) = .error stop ↔ ∃ f, x = .error f ∧ stop = .fault f := by
  cases x with
  | ok b => simp only [ofFault, reduceCtorEq, false_and, exists_false]
  | error f =>
      constructor
      · intro h
        cases h
        exact ⟨f, rfl, rfl⟩
      · rintro ⟨_, hf, rfl⟩
        cases hf
        rfl

theorem ofExcept_eq_ok {x : Except ε α} {a : α} : ofExcept x = .ok a ↔ x = .ok a := by
  cases x with
  | ok b => simp only [ofExcept, Except.ok.injEq]
  | error e => simp only [ofExcept, reduceCtorEq]

theorem ofShape_eq_ok {x : Checked ShapeError α} {a : α} : ofShape x = .ok a ↔ x = .ok a := by
  cases x with
  | ok b => simp only [ofShape, Except.ok.injEq]
  | error stop => cases stop <;> simp only [ofShape, reduceCtorEq]

theorem of_check {P : Prop} [Decidable P] {cause : ε}
    (h : (if P then .ok () else Checked.reject cause : Checked ε Unit) = .ok ()) : P := by
  split at h
  · next hP => exact hP
  · cases h

/-! ## Which faults -/

/-- A computation meets no other faults than the allowed ones. -/
def FaultsOnly (allowed : Fault → Prop) (x : Checked ε α) : Prop :=
  ∀ f, x = .error (.fault f) → allowed f

namespace FaultsOnly

variable {allowed : Fault → Prop}

theorem ok (a : α) : FaultsOnly allowed (.ok a : Checked ε α) := by
  intro f h
  cases h

theorem reject (cause : ε) : FaultsOnly allowed (Checked.reject cause : Checked ε α) := by
  intro f h
  cases h

theorem check {P : Prop} [Decidable P] (a : α) (cause : ε) :
    FaultsOnly allowed (if P then .ok a else Checked.reject cause : Checked ε α) := by
  split
  · exact ok a
  · exact reject cause

theorem bind {x : Checked ε α} {g : α → Checked ε β} (hx : FaultsOnly allowed x)
    (hg : ∀ a, x = .ok a → FaultsOnly allowed (g a)) : FaultsOnly allowed (x >>= g) := by
  intro f h
  rcases bind_eq_error.mp h with hfirst | ⟨a, ha, hrest⟩
  · exact hx f hfirst
  · exact hg a ha f hrest

theorem ofExcept (x : Except ε α) : FaultsOnly allowed (Checked.ofExcept x) := by
  intro f h
  cases x with
  | ok a => cases h
  | error cause => cases h

theorem ofFault {x : Except Fault α} (hx : ∀ f, x = .error f → allowed f) :
    FaultsOnly allowed (Checked.ofFault x : Checked ε α) := by
  intro f h
  cases x with
  | ok a => cases h
  | error g =>
      cases h
      exact hx f rfl

theorem ofShape {x : Checked ShapeError α} (hx : FaultsOnly allowed x) :
    FaultsOnly allowed (Checked.ofShape x) := by
  intro f h
  cases x with
  | ok a => cases h
  | error stop =>
      cases stop with
      | rejected cause => cases h
      | fault g =>
          cases h
          exact hx f rfl

end FaultsOnly

end Checked

end SubByte
