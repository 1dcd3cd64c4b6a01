/-
# Numbers — the parameters of a group depend on its numbers alone

The two folds over a group end with the greatest lower and the least upper bound of the
numbers in it (`groupMin_isGLB`, `groupMax_isLUB`): `nan` is passed over wherever it stands, and
a group without numbers has the bounds of the empty set.  So the order of the weights and
how often each occurs leave no trace, but for the sign of an extreme that is zero.

That sign is lost on the way to the parameters (`Affine.ofRange_congr`).  The extremes are
compared by their magnitudes; their difference only matters above the floor, which no zero
is; and an edge that is zero is no whole number of steps away from zero, so it gives way to
the bias zero.
-/
import SubByte.Proofs.Binary.Number
import SubByte.Proofs.Quantizer.Parameters

namespace SubByte

/-! ## The numbers of a group -/

section

variable {F : Format} {v : Binary F} {group : List (Binary F)} {x : Extended}

/-- The numbers in a group, infinities among them. -/
def numbersIn (group : List (Binary F)) : Set Extended :=
  {x | ∃ v ∈ group, v.number? = some x}

theorem mem_numbersIn : x ∈ numbersIn group ↔ ∃ v ∈ group, v.number? = some x := Iff.rfl

@[simp] theorem numbersIn_nil : numbersIn ([] : List (Binary F)) = ∅ := by
  ext x
  simp [mem_numbersIn]

@[simp] theorem mem_numbersIn_cons :
    x ∈ numbersIn (v :: group) ↔ v.number? = some x ∨ x ∈ numbersIn group := by
  simp [mem_numbersIn]

/-- Neither the order of the weights nor values that are no number have a part in the numbers
of a group. -/
theorem numbersIn_perm {other : List (Binary F)} {count : Nat}
    (h : other.Perm (group ++ List.replicate count .nan)) : numbersIn group = numbersIn other := by
  ext x
  constructor
  · rintro ⟨v, hv, hx⟩
    exact ⟨v, h.mem_iff.mpr (List.mem_append_left _ hv), hx⟩
  · rintro ⟨v, hv, hx⟩
    rcases List.mem_append.mp (h.mem_iff.mp hv) with hv | hv
    · exact ⟨v, hv, hx⟩
    · rw [List.eq_of_mem_replicate hv] at hx
      cases hx

end

variable {type type' : FloatType} {group : List (Binary type.format)}
  {other : List (Binary type'.format)}

theorem numbersIn_widen (group : List (Binary type.format)) :
    numbersIn (group.map fun v => v.widen) = numbersIn group := by
  ext x
  simp [mem_numbersIn, Binary.number?_widen]

/-! ## Folds that bound -/

/-- A step to what bounds both numbers, and to what it had where the next value is no number. -/
structure Bounds (op : Single → Single → Single) (R : Extended → Extended → Prop) : Prop where
  skip : ∀ a : Single, op a .nan = a
  both : ∀ {a b : Single} {x y : Extended}, a.number? = some x → b.number? = some y →
    ∃ z, (op a b).number? = some z ∧ ∀ w, R w z ↔ R w x ∧ R w y

theorem Bounds.foldl {op : Single → Single → Single} {R : Extended → Extended → Prop}
    (h : Bounds op R) (values : List Single) :
    ∀ {first : Single} {x : Extended}, first.number? = some x →
      ∃ z, (values.foldl op first).number? = some z ∧
        ∀ w, R w z ↔ R w x ∧ ∀ y ∈ numbersIn values, R w y := by
  induction values with
  | nil =>
      intro first x hfirst
      exact ⟨x, hfirst, fun w => by simp⟩
  | cons next values ih =>
      intro first x hfirst
      rw [List.foldl_cons]
      by_cases hnan : next = .nan
      · rw [hnan, h.skip]
        obtain ⟨z, hz, hbound⟩ := ih hfirst
        exact ⟨z, hz, fun w => by simp [hbound]⟩
      · obtain ⟨y, hy⟩ := Binary.exists_number hnan
        obtain ⟨u, hu, hboth⟩ := h.both hfirst hy
        obtain ⟨z, hz, hbound⟩ := ih hu
        refine ⟨z, hz, fun w => ?_⟩
        rw [hbound, hboth, and_assoc]
        simp [hy, or_imp, forall_and]

theorem bounds_min : Bounds Binary.min (· ≤ ·) where
  skip := Binary.min_nan
  both := fun ha hb => ⟨_, Binary.number?_min ha hb, fun _ => le_inf_iff⟩

theorem bounds_max : Bounds Binary.max (· ≥ ·) where
  skip := Binary.max_nan
  both := fun ha hb => ⟨_, Binary.number?_max ha hb, fun _ => sup_le_iff⟩

theorem groupBound {op : Single → Single → Single} {R : Extended → Extended → Prop}
    (h : Bounds op R) (group : List (Binary type.format)) {start : Single} {x : Extended}
    (hstart : start.number? = some x) (hfree : ∀ w, R w x) :
    ∃ z, (group.foldl (fun best v => op best v.widen) start).number? = some z ∧
      ∀ w, R w z ↔ ∀ y ∈ numbersIn group, R w y := by
  obtain ⟨z, hz, hbound⟩ := h.foldl (group.map fun v => v.widen) hstart
  rw [List.foldl_map] at hz
  refine ⟨z, hz, fun w => ?_⟩
  rw [hbound, and_iff_right (hfree w), numbersIn_widen]

/-! ## Extremes of a group -/

theorem groupMin_isGLB (group : List (Binary type.format)) :
    ∃ low, (groupMin group).number? = some low ∧ IsGLB (numbersIn group) low := by
  have hstart : (Binary.infinite false : Single).number? = some ⊤ := rfl
  obtain ⟨low, hlow, hbound⟩ := groupBound bounds_min group hstart fun w => le_top
  exact ⟨low, hlow, isGLB_iff_le_iff.mpr hbound⟩

theorem groupMax_isLUB (group : List (Binary type.format)) :
    ∃ high, (groupMax group).number? = some high ∧ IsLUB (numbersIn group) high := by
  have hstart : (Binary.infinite true : Single).number? = some ⊥ := rfl
  obtain ⟨high, hhigh, hbound⟩ := groupBound bounds_max group hstart fun w => bot_le
  exact ⟨high, hhigh, isLUB_iff_le_iff.mpr hbound⟩

/-! ## Parameters of a range -/

namespace Affine

variable {low high low' high' : Single}

/-- No step is below the floor, whatever the extremes are. -/
theorem floor_le_step (low high bins : Single) :
    scaleFloor.le (stepOf low high bins) = true := by
  have hfloor : scaleFloor.isFinite := rfl
  obtain ⟨y, hy⟩ := Binary.exists_number (Binary.ne_nan hfloor)
  rw [stepOf]
  by_cases hnan : (high - low) / bins = .nan
  · rw [hnan]
    exact (Binary.le_iff_number hy hy).mpr le_rfl
  · obtain ⟨x, hx⟩ := Binary.exists_number hnan
    exact (Binary.le_iff_number hy (Binary.number?_max hx hy)).mpr le_sup_right

theorem coarseOf_ne_zero (low high bins : Single) :
    coarseOf low high bins ≠ .nan ∧ (coarseOf low high bins).isZero = false := by
  have hfloor := floor_le_step low high bins
  have hnumber := (Binary.ne_nan_of_le hfloor).2
  have hzero : (stepOf low high bins).isZero = false := by
    rw [Bool.eq_false_iff]
    intro hzero
    generalize stepOf low high bins = step at hfloor hzero
    cases step with
    | nan => cases hzero
    | infinite s => cases hzero
    | finite s i =>
        have hle := (Binary.le_iff rfl rfl).mp hfloor
        rw [(Binary.isZero_iff rfl).mp hzero] at hle
        exact absurd scaleFloor_pos (not_lt.mpr hle)
  rw [coarseOf]
  split
  · exact ⟨hnumber, hzero⟩
  · exact ⟨Binary.neg_ne_nan hnumber, (Binary.isZero_neg _).trans hzero⟩

theorem isZero_steps_of_zero {step : Single} (hnumber : step ≠ .nan) (hstep : step.isZero = false)
    (s : Bool) : (Binary.zero s / step).roundEven.isZero = true := by
  obtain ⟨hfinite, hvalue⟩ := Binary.zero_div_finite s hnumber hstep
  rw [Binary.isZero_roundEven_iff hfinite, hvalue, abs_zero]
  norm_num

/-- The parameters of a range depend on the numbers of its extremes alone. -/
theorem ofRange_congr (bins : Single) (hlow : low.number? = low'.number?)
    (hhigh : high.number? = high'.number?) : ofRange low high bins = ofRange low' high' bins := by
  have hstep : stepOf low high bins = stepOf low' high' bins := by
    rw [stepOf, stepOf]
    obtain heq | ⟨s, t, hs, ht⟩ :=
      Binary.eq_or_zeros (Binary.number?_div_congr (Binary.number?_sub_congr hhigh hlow) bins)
    · rw [heq]
    · rw [hs, ht]
      cases s <;> cases t <;> rfl
  have hlowAbs := Binary.abs_congr hlow
  have hhighAbs := Binary.abs_congr hhigh
  have hcoarse : coarseOf low high bins = coarseOf low' high' bins := by
    rw [coarseOf, coarseOf, hlowAbs, hhighAbs, hstep]
  have hedge : (edgeOf low high).number? = (edgeOf low' high').number? := by
    rw [edgeOf, edgeOf, hlowAbs, hhighAbs]
    split
    · exact hlow
    · exact hhigh
  obtain ⟨hnumber, hnonzero⟩ := coarseOf_ne_zero low' high' bins
  rw [ofRange_eq, ofRange_eq, stepsOf, stepsOf, hcoarse]
  obtain heq | ⟨s, t, hs, ht⟩ := Binary.eq_or_zeros hedge
  · rw [heq]
  · rw [hs, ht, if_pos (isZero_steps_of_zero hnumber hnonzero s),
      if_pos (isZero_steps_of_zero hnumber hnonzero t)]

/-! ## Parameters of a group -/

/-- The parameters of a group are those of any range between the bounds of its numbers. -/
theorem ofGroup_eq_ofRange {l u : Extended} (bins : Single) (hl : IsGLB (numbersIn group) l)
    (hu : IsLUB (numbersIn group) u) (hlow : low.number? = some l) (hhigh : high.number? = some u) :
    ofGroup group bins = ofRange low high bins := by
  obtain ⟨l', hmin, hl'⟩ := groupMin_isGLB group
  obtain ⟨u', hmax, hu'⟩ := groupMax_isLUB group
  rw [hl'.unique hl, ← hlow] at hmin
  rw [hu'.unique hu, ← hhigh] at hmax
  exact ofRange_congr bins hmin hmax

theorem ofGroup_congr (bins : Single) (h : numbersIn group = numbersIn other) :
    ofGroup group bins = ofGroup other bins := by
  obtain ⟨l, hmin, hl⟩ := groupMin_isGLB other
  obtain ⟨u, hmax, hu⟩ := groupMax_isLUB other
  rw [← h] at hl hu
  exact ofGroup_eq_ofRange bins hl hu hmin hmax

/-- The parameters of a group depend on the numbers in it alone: groups of the same numbers have
the same parameters, whatever the order of the weights is, how often each occurs and how many of
them are no number.  They are those of any range between the bounds of these numbers, so
neither does it matter which zero an extreme is. -/
theorem ofGroup_numbers :
    (∀ (type type' : FloatType) (group : List (Binary type.format))
      (other : List (Binary type'.format)) (bins : Single),
      numbersIn group = numbersIn other → ofGroup group bins = ofGroup other bins) ∧
    (∀ (type : FloatType) (group other : List (Binary type.format)) (count : Nat) (bins : Single),
      other.Perm (group ++ List.replicate count .nan) →
        ofGroup other bins = ofGroup group bins) ∧
    ∀ (type : FloatType) (group : List (Binary type.format)) (bins low high : Single)
      (l u : Extended), IsGLB (numbersIn group) l → IsLUB (numbersIn group) u →
      low.number? = some l → high.number? = some u →
        ofGroup group bins = ofRange low high bins := by
  refine ⟨?_, ?_, ?_⟩
  · intro type type' group other bins h
    exact ofGroup_congr bins h
  · intro type group other count bins h
    exact ofGroup_congr bins (numbersIn_perm h).symm
  · intro type group bins low high l u hl hu hlow hhigh
    exact ofGroup_eq_ofRange bins hl hu hlow hhigh

/-- A negative zero and a one among halves have the parameters of a positive zero and two ones
among singles, in another order and with a value that is no number. -/
theorem ofGroup_numbers_zeros :
    let bins : Single := .ofNat .single 3
    let one : Binary FloatType.f16.format := .ofNat .half 1
    let group : List (Binary FloatType.f16.format) := [.zero true, one]
    let other : List Single := [one.widen, .nan, .zero false, one.widen]
    numbersIn group = numbersIn other ∧ ofGroup group bins = ofGroup other bins ∧
      ofGroup [.nan, one, .zero true, .nan] bins = ofGroup group bins ∧
      ofGroup group bins = ofRange (.zero false) one.widen bins := by
  intro bins one group other
  obtain ⟨hnumbers, hperm, hrange⟩ := ofGroup_numbers
  obtain ⟨x, hx⟩ : ∃ x, one.number? = some x := ⟨_, Binary.number?_of_finite rfl⟩
  have hwide : one.widen.number? = some x := (Binary.number?_widen one).trans hx
  have hle : (((0 : ℚ) : WithTop ℚ) : Extended) ≤ x :=
    (Binary.le_iff_number (Binary.number?_zero false) hx).mp (by decide)
  have hgroup : numbersIn group = {(((0 : ℚ) : WithTop ℚ) : Extended), x} := by
    ext y
    simp [group, hx, eq_comm]
  have hother : numbersIn other = {(((0 : ℚ) : WithTop ℚ) : Extended), x} := by
    ext y
    simp [other, hwide, eq_comm, or_comm]
  have hlow : IsGLB (numbersIn group) (((0 : ℚ) : WithTop ℚ) : Extended) := by
    rw [hgroup]
    refine IsLeast.isGLB ⟨.inl rfl, ?_⟩
    rintro y (rfl | rfl)
    · exact le_rfl
    · exact hle
  have hhigh : IsLUB (numbersIn group) x := by
    rw [hgroup]
    refine IsGreatest.isLUB ⟨.inr rfl, ?_⟩
    rintro y (rfl | rfl)
    · exact hle
    · exact le_rfl
  have hsame := hgroup.trans hother.symm
  exact ⟨hsame, hnumbers .f16 .f32 group other bins hsame,
    hperm .f16 group _ 2 bins (by decide),
    hrange .f16 group bins _ _ _ _ hlow hhigh (Binary.number?_zero false) hwide⟩

end Affine

end SubByte
