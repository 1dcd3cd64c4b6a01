/-
# Extent — when a size is formed

A size is formed extent by extent, and every product on the way has to be an address
(`boundedProduct_eq_some_iff`).  Products of positive numbers grow, so without a zero among the
extents the last one decides, which is the size itself.  A zero makes every later product zero, but
it does not take back an earlier one: what decides then is the product in front of the first zero,
and a size of zero may be refused (`sizeProduct_late_zero`).

So the size that is formed, if one is, does not depend on the order of the extents, and whether it
is formed does (`sizeProduct_formed`).
-/
import SubByte.Proofs.Layout.Counting

namespace SubByte

/-- A product is formed exactly when every product on the way is an address. -/
theorem boundedProduct_eq_some_iff {extents : List Nat} :
    ∀ {count p : Nat}, boundedProduct count extents = some p ↔
      (∀ q ∈ stepProducts count extents, q < addressLimit) ∧ p = count * extents.prod := by
  induction extents with
  | nil =>
      intro count p
      rw [List.prod_nil, Nat.mul_one]
      constructor
      · intro h
        cases h
        exact ⟨nofun, rfl⟩
      · rintro ⟨-, rfl⟩
        rfl
  | cons d rest ih =>
      intro count p
      have hstep : boundedProduct count (d :: rest) =
          (addressed (count * d)).bind fun next => boundedProduct next rest := rfl
      rw [hstep, Option.bind_eq_some_iff, stepProducts, List.forall_mem_cons, List.prod_cons,
        ← Nat.mul_assoc]
      constructor
      · rintro ⟨next, hnext, hrest⟩
        obtain ⟨rfl, hlt⟩ := addressed_eq_some_iff.mp hnext
        obtain ⟨hlater, hp⟩ := ih.mp hrest
        exact ⟨⟨hlt, hlater⟩, hp⟩
      · rintro ⟨⟨hlt, hlater⟩, hp⟩
        exact ⟨_, addressed_eq_some_iff.mpr ⟨rfl, hlt⟩, ih.mpr ⟨hlater, hp⟩⟩

/-- A size is formed, or refused under its name, as the product in front of the first zero is an
address or not. -/
theorem sizeProduct_cases (name : String) (extents : List Nat) :
    ((beforeZero extents).prod < addressLimit ∧ sizeProduct name extents = .ok extents.prod) ∨
    (addressLimit ≤ (beforeZero extents).prod ∧
      sizeProduct name extents = .error (.sizeOverflow name)) := by
  rw [sizeProduct]
  cases hproduct : boundedProduct 1 extents with
  | some p =>
      obtain ⟨hsteps, hp⟩ := boundedProduct_eq_some_iff.mp hproduct
      rw [Nat.one_mul] at hp
      exact .inl ⟨(stepsAddressed_iff extents).mp hsteps, congrArg Except.ok hp⟩
  | none =>
      refine .inr ⟨Nat.le_of_not_lt ?_, rfl⟩
      intro hfront
      have hformed : boundedProduct 1 extents = some (1 * extents.prod) :=
        boundedProduct_eq_some_iff.mpr ⟨(stepsAddressed_iff extents).mpr hfront, rfl⟩
      rw [hproduct] at hformed
      cases hformed

section Orders

variable {name : String} {extents : List Nat}

theorem sizeProduct_eq_ok_iff {size : Nat} :
    sizeProduct name extents = .ok size ↔
      (beforeZero extents).prod < addressLimit ∧ size = extents.prod := by
  rcases sizeProduct_cases name extents with ⟨hfront, h⟩ | ⟨hfront, h⟩
  · rw [h, Except.ok.injEq]
    exact ⟨fun hsize => ⟨hfront, hsize.symm⟩, fun hsize => hsize.2.symm⟩
  · rw [h]
    exact ⟨nofun, fun hsize => absurd hsize.1 (Nat.not_lt_of_le hfront)⟩

theorem sizeProduct_eq_error_iff :
    sizeProduct name extents = .error (.sizeOverflow name) ↔
      addressLimit ≤ (beforeZero extents).prod := by
  rcases sizeProduct_cases name extents with ⟨hfront, h⟩ | ⟨hfront, h⟩
  · rw [h]
    exact ⟨nofun, fun hpast => absurd hfront (Nat.not_lt_of_le hpast)⟩
  · exact ⟨fun _ => hfront, fun _ => h⟩

/-- Two orders of the same extents give the same answer when the size is formed in both of them or
in none. -/
theorem sizeProduct_perm_iff {other : List Nat} (hperm : other.Perm extents) :
    sizeProduct name other = sizeProduct name extents ↔
      ((beforeZero other).prod < addressLimit ↔ (beforeZero extents).prod < addressLimit) := by
  constructor
  · intro h
    constructor
    · intro hother
      rw [sizeProduct_eq_ok_iff.mpr ⟨hother, rfl⟩] at h
      exact (sizeProduct_eq_ok_iff.mp h.symm).1
    · intro hfront
      rw [sizeProduct_eq_ok_iff.mpr ⟨hfront, rfl⟩] at h
      exact (sizeProduct_eq_ok_iff.mp h).1
  · intro hboth
    by_cases hfront : (beforeZero extents).prod < addressLimit
    · rw [sizeProduct_eq_ok_iff.mpr ⟨hfront, rfl⟩]
      exact sizeProduct_eq_ok_iff.mpr ⟨hboth.mpr hfront, hperm.prod_eq.symm⟩
    · have hother := fun h => hfront (hboth.mp h)
      rw [sizeProduct_eq_error_iff.mpr (Nat.le_of_not_lt hfront)]
      exact sizeProduct_eq_error_iff.mpr (Nat.le_of_not_lt hother)

end Orders

/-- A size that is formed is the product of the extents, and it is formed exactly when their
product in front of the first zero is an address; otherwise it is refused under its name.  Without
a zero this is the product of all of them, and no order of the extents makes a difference.  In
general another order gives the same answer exactly when both pass the limit in front of their
first zero or neither does. -/
theorem sizeProduct_formed (name : String) (extents : List Nat) :
    (∀ size, sizeProduct name extents = .ok size ↔
      (beforeZero extents).prod < addressLimit ∧ size = extents.prod) ∧
    (sizeProduct name extents = .error (.sizeOverflow name) ↔
      addressLimit ≤ (beforeZero extents).prod) ∧
    (0 ∉ extents →
      (∀ size, sizeProduct name extents = .ok size ↔
        extents.prod < addressLimit ∧ size = extents.prod) ∧
      ∀ other : List Nat, other.Perm extents →
        sizeProduct name other = sizeProduct name extents) ∧
    ∀ other : List Nat, other.Perm extents →
      (sizeProduct name other = sizeProduct name extents ↔
        ((beforeZero other).prod < addressLimit ↔ (beforeZero extents).prod < addressLimit)) := by
  refine ⟨fun _ => sizeProduct_eq_ok_iff, sizeProduct_eq_error_iff, ?_,
    fun _ hperm => sizeProduct_perm_iff hperm⟩
  intro hzero
  have hall := beforeZero_eq_self hzero
  constructor
  · intro size
    rw [sizeProduct_eq_ok_iff, hall]
  · intro other hperm
    have hnone : 0 ∉ other := fun hmem => hzero (hperm.mem_iff.mp hmem)
    rw [sizeProduct_perm_iff hperm, hall, beforeZero_eq_self hnone, hperm.prod_eq]

/-- Extents without a zero that make half the limit, in two orders, extents that make the limit,
and a zero that comes in time. -/
theorem sizeProduct_formed_half :
    sizeProduct "out" [2 ^ 32, 2 ^ 31, 1] = .ok (2 ^ 63) ∧
      sizeProduct "out" [1, 2 ^ 31, 2 ^ 32] = sizeProduct "out" [2 ^ 32, 2 ^ 31, 1] ∧
      sizeProduct "out" [2 ^ 32, 2 ^ 32] = .error (.sizeOverflow "out") ∧
      sizeProduct "out" [2 ^ 63, 0, 2] = .ok 0 := by
  obtain ⟨-, -, hnone, -⟩ := sizeProduct_formed "out" [2 ^ 32, 2 ^ 31, 1]
  obtain ⟨hsize, horder⟩ := hnone (by decide)
  obtain ⟨-, hrefused, -, -⟩ := sizeProduct_formed "out" [2 ^ 32, 2 ^ 32]
  obtain ⟨hzero, -, -, -⟩ := sizeProduct_formed "out" [2 ^ 63, 0, 2]
  exact ⟨(hsize _).mpr (by decide), horder [1, 2 ^ 31, 2 ^ 32] (by decide),
    hrefused.mpr (by decide), (hzero 0).mpr (by decide)⟩

/-- A size of zero that is refused, and the same extents in an order in which it is formed. -/
theorem sizeProduct_late_zero :
    [2 ^ 63, 2, 0].prod < addressLimit ∧
      sizeProduct "x" [2 ^ 63, 2, 0] = .error (.sizeOverflow "x") ∧
      [0, 2 ^ 63, 2].Perm [2 ^ 63, 2, 0] ∧ sizeProduct "x" [0, 2 ^ 63, 2] = .ok 0 := by
  decide

end SubByte
