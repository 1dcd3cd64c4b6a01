/-
# Monotone — operations that follow the order of the numbers

`Binary.le` orders the values that are numbers: the finite ones as the numbers they stand
for, and an infinity on either side of them.  Numbers in order are rounded to values in
order (`Rounds.le`).  So an operation that rounds follows the order, infinite results
included, and it goes on to do so for infinite operands when it leaves them in their
places (`le_map`): adding a finite value does, and so do bringing a value to a format or to
the nearest whole number.  What is held between two bounds keeps its order too
(`clamp_le`).
-/
import SubByte.Proofs.Binary.Operations

namespace SubByte

namespace Binary

variable {F G : Format} {a b c : Binary F}

/-! ## The order -/

/-- At most as large, as numbers; `nan` is in no order with anything. -/
def le (a b : Binary F) : Bool :=
  match a.rank?, b.rank? with
  | some x, some y => x ≤ y
  | _, _ => false

theorem exists_rank (ha : a ≠ .nan) : ∃ x, a.rank? = some x := by
  cases a with
  | nan => exact absurd rfl ha
  | infinite s => exact ⟨_, rfl⟩
  | finite s i => exact ⟨_, rfl⟩

theorem le_iff_rank {x y : Int} (ha : a.rank? = some x) (hb : b.rank? = some y) :
    a.le b = true ↔ x ≤ y := by
  rw [le, ha, hb]
  exact decide_eq_true_iff

theorem ne_nan_of_le (h : a.le b = true) : a ≠ .nan ∧ b ≠ .nan := by
  constructor
  · rintro rfl
    cases h
  · rintro rfl
    rw [le] at h
    cases ha : a.rank? with
    | none =>
        rw [ha] at h
        cases h
    | some x =>
        rw [ha] at h
        cases h

theorem le_iff_lt (ha : a ≠ .nan) (hb : b ≠ .nan) : a.le b = true ↔ b.lt a = false := by
  obtain ⟨x, hx⟩ := exists_rank ha
  obtain ⟨y, hy⟩ := exists_rank hb
  rw [le_iff_rank hx hy, lt, hx, hy, decide_eq_false_iff_not, Int.not_lt]

theorem le_iff (ha : a.isFinite) (hb : b.isFinite) : a.le b = true ↔ a.toRat ≤ b.toRat := by
  rw [le_iff_lt (ne_nan ha) (ne_nan hb), lt_eq_false_iff hb ha]

theorem infinite_le (ha : a ≠ .nan) : (infinite true).le a = true := by
  rw [le_iff_lt (by intro h; cases h) ha]
  cases a with
  | nan => exact absurd rfl ha
  | infinite s =>
      cases s with
      | false =>
          refine decide_eq_false (Int.not_lt.mpr ?_)
          exact neg_le_self (Int.natCast_nonneg F.magnitudes)
      | true => exact lt_irrefl _
  | finite s i =>
      refine decide_eq_false (Int.not_lt.mpr ?_)
      exact le_of_lt (of_decide_eq_true (lt_infinite (a := finite s i) rfl).2)

theorem le_infinite (ha : a ≠ .nan) : a.le (infinite false) = true := by
  rw [le_iff_lt ha (by intro h; cases h)]
  cases a with
  | nan => exact absurd rfl ha
  | infinite s =>
      cases s with
      | false => exact lt_irrefl _
      | true =>
          refine decide_eq_false (Int.not_lt.mpr ?_)
          exact neg_le_self (Int.natCast_nonneg F.magnitudes)
  | finite s i =>
      refine decide_eq_false (Int.not_lt.mpr ?_)
      exact le_of_lt (of_decide_eq_true (lt_infinite (a := finite s i) rfl).1)

theorem le_cases (h : a.le b = true) :
    a = .infinite true ∨ b = .infinite false ∨
      a.isFinite ∧ b.isFinite ∧ a.toRat ≤ b.toRat := by
  obtain ⟨hna, hnb⟩ := ne_nan_of_le h
  have hlt := (le_iff_lt hna hnb).mp h
  cases a with
  | nan => exact absurd rfl hna
  | infinite s =>
      cases s with
      | true => exact .inl rfl
      | false =>
          right
          left
          cases b with
          | nan => exact absurd rfl hnb
          | infinite t =>
              cases t with
              | false => rfl
              | true =>
                  have hle : (F.magnitudes : Int) ≤ -(F.magnitudes : Int) := rank_le hlt rfl rfl
                  have hpos := F.magnitudes_pos
                  omega
          | finite t j =>
              rw [(lt_infinite (a := finite t j) rfl).1] at hlt
              cases hlt
  | finite s i =>
      right
      cases b with
      | nan => exact absurd rfl hnb
      | infinite t =>
          cases t with
          | false => exact .inl rfl
          | true =>
              rw [(lt_infinite (a := finite s i) rfl).2] at hlt
              cases hlt
      | finite t j => exact .inr ⟨rfl, rfl, (lt_eq_false_iff rfl rfl).mp hlt⟩

theorem isFinite_of_le_of_le (ha : a.isFinite) (hc : c.isFinite) (hab : a.le b = true)
    (hbc : b.le c = true) : b.isFinite := by
  rcases le_cases hab with rfl | rfl | ⟨-, hb, -⟩
  · cases ha
  · rcases le_cases hbc with hbottom | rfl | ⟨hb, -, -⟩
    · cases hbottom
    · cases hc
    · cases hb
  · exact hb

/-! ## What follows the order -/

/-- Numbers in order are rounded to values in order, infinite or not. -/
theorem Rounds.le {x y : ℚ} (ha : Rounds x a) (hb : Rounds y b) (h : x ≤ y) : a.le b = true :=
  (le_iff_lt ha.ne_nan hb.ne_nan).mpr (ha.mono hb h)

/-- What leaves the infinities in their places follows the order when it does on finite
values. -/
theorem le_map {f : Binary F → Binary G} (hbottom : f (.infinite true) = .infinite true)
    (htop : f (.infinite false) = .infinite false)
    (hfinite : ∀ a b, a.isFinite → b.isFinite → a.toRat ≤ b.toRat → (f a).le (f b) = true)
    (h : a.le b = true) : (f a).le (f b) = true := by
  have hnumber : ∀ a : Binary F, a ≠ .nan → f a ≠ .nan := by
    intro a ha
    cases a with
    | nan => exact absurd rfl ha
    | infinite s =>
        cases s with
        | false =>
            rw [htop]
            intro hnan
            cases hnan
        | true =>
            rw [hbottom]
            intro hnan
            cases hnan
    | finite s i => exact (ne_nan_of_le (hfinite _ _ rfl rfl le_rfl)).1
  obtain ⟨hna, hnb⟩ := ne_nan_of_le h
  rcases le_cases h with rfl | rfl | ⟨ha, hb, hle⟩
  · rw [hbottom]
    exact infinite_le (hnumber b hnb)
  · rw [htop]
    exact le_infinite (hnumber a hna)
  · exact hfinite a b ha hb hle

theorem add_le (hc : c.isFinite) (h : a.le b = true) : (a + c).le (b + c) = true := by
  obtain ⟨s, i, rfl⟩ := exists_finite hc
  refine le_map (f := fun a => a + finite s i) rfl rfl (fun a b ha hb hle => ?_) h
  exact (add_rounds ha rfl).le (add_rounds hb rfl) (add_le_add_left hle _)

theorem convert_le (G : Format) (h : a.le b = true) : (a.convert G).le (b.convert G) = true :=
  le_map (f := fun a => a.convert G) rfl rfl
    (fun _ _ ha hb hle => (convert_rounds G ha).le (convert_rounds G hb) hle) h

theorem roundEven_le {a b : Single} (h : a.le b = true) :
    a.roundEven.le b.roundEven = true := by
  refine le_map (f := roundEven) rfl rfl (fun a b ha hb hle => ?_) h
  obtain ⟨hfa, hva⟩ := roundEven_finite ha
  obtain ⟨hfb, hvb⟩ := roundEven_finite hb
  rw [le_iff hfa hfb, hva, hvb]
  exact_mod_cast nearestInt_le ha hb hle

theorem rank?_clamp {low high : Binary F} {x l h : Int} (ha : a.rank? = some x)
    (hlow : low.rank? = some l) (hhigh : high.rank? = some h) :
    (a.clamp low high).rank? = some ((x ⊔ l) ⊓ h) := by
  have hraised : (if a.lt low then low else a).rank? = some (x ⊔ l) := by
    by_cases hlt : x < l
    · have hless : a.lt low = true := by
        rw [lt, ha, hlow]
        exact decide_eq_true hlt
      rw [if_pos hless, hlow, sup_eq_right.mpr (le_of_lt hlt)]
    · have hless : a.lt low = false := by
        rw [lt, ha, hlow]
        exact decide_eq_false hlt
      rw [if_neg (ne_true_of_eq_false hless), ha, sup_eq_left.mpr (not_lt.mp hlt)]
  rw [clamp]
  generalize (if a.lt low then low else a) = raised at hraised
  by_cases hlt : h < x ⊔ l
  · have hless : high.lt raised = true := by
      rw [lt, hraised, hhigh]
      exact decide_eq_true hlt
    rw [if_pos hless, hhigh, inf_eq_right.mpr (le_of_lt hlt)]
  · have hless : high.lt raised = false := by
      rw [lt, hraised, hhigh]
      exact decide_eq_false hlt
    rw [if_neg (ne_true_of_eq_false hless), hraised, inf_eq_left.mpr (not_lt.mp hlt)]

theorem clamp_le {low high : Binary F} (hlow : low ≠ .nan) (hhigh : high ≠ .nan)
    (h : a.le b = true) : (a.clamp low high).le (b.clamp low high) = true := by
  obtain ⟨hna, hnb⟩ := ne_nan_of_le h
  obtain ⟨x, hx⟩ := exists_rank hna
  obtain ⟨y, hy⟩ := exists_rank hnb
  obtain ⟨l, hl⟩ := exists_rank hlow
  obtain ⟨m, hm⟩ := exists_rank hhigh
  rw [le_iff_rank (rank?_clamp hx hl hm) (rank?_clamp hy hl hm)]
  exact inf_le_inf_right m (sup_le_sup_right ((le_iff_rank hx hy).mp h) l)

end Binary

end SubByte
