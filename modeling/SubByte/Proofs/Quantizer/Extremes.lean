/-
# Extremes — the least and the largest weight of a group

For a group of finite weights the two folds find the least and the largest of the numbers
that the weights stand for (`groupMin_eq`, `groupMax_eq`).  Both choose at each step
one of two values by the same order or its reverse, so one lemma carries both
(`Chooses.foldl`).

The *edge* of a group is the extreme of larger magnitude, the largest weight when both are
equally large (`IsEdge`).
-/
import Mathlib.Order.Bounds.Basic
import SubByte.Proofs.Binary.Operations
import SubByte.Quantizer.Group

namespace SubByte

/-! ## Folds that choose -/

/-- A step that takes one of two finite values, and one that is related to both. -/
structure Chooses (op : Single → Single → Single) (R : ℚ → ℚ → Prop) : Prop where
  trans : ∀ {x y z : ℚ}, R x y → R y z → R x z
  choice : ∀ {a b : Single}, a.isFinite → b.isFinite → op a b = a ∨ op a b = b
  left : ∀ {a b : Single}, a.isFinite → b.isFinite → R (op a b).toRat a.toRat
  right : ∀ {a b : Single}, a.isFinite → b.isFinite → R (op a b).toRat b.toRat

theorem Chooses.isFinite {op : Single → Single → Single} {R : ℚ → ℚ → Prop} (h : Chooses op R)
    {a b : Single} (ha : a.isFinite) (hb : b.isFinite) : (op a b).isFinite := by
  rcases h.choice ha hb with hchoice | hchoice
  · rwa [hchoice]
  · rwa [hchoice]

/-- A fold of such steps ends with one of all values, and one that is related to all. -/
theorem Chooses.foldl {op : Single → Single → Single} {R : ℚ → ℚ → Prop} (h : Chooses op R)
    (hrefl : ∀ x, R x x) {values : List Single} (hvalues : ∀ v ∈ values, v.isFinite) :
    ∀ {first : Single}, first.isFinite →
      values.foldl op first ∈ first :: values ∧
        ∀ v ∈ first :: values, R (values.foldl op first).toRat v.toRat := by
  induction values with
  | nil =>
      intro first hfirst
      refine ⟨List.mem_cons_self, fun v hv => ?_⟩
      rw [List.mem_singleton.mp hv]
      exact hrefl _
  | cons next values ih =>
      intro first hfirst
      have hnext : next.isFinite := hvalues next List.mem_cons_self
      have hrest : ∀ v ∈ values, v.isFinite := fun v hv => hvalues v (List.mem_cons_of_mem _ hv)
      -- The rest is folded from the choice between the first two.
      obtain ⟨hmem, hrelated⟩ := ih hrest (h.isFinite hfirst hnext)
      have hop := hrelated (op first next) List.mem_cons_self
      rw [List.foldl_cons]
      refine ⟨?_, fun v hv => ?_⟩
      · rcases List.mem_cons.mp hmem with heq | hmem
        · rw [heq]
          rcases h.choice hfirst hnext with hchoice | hchoice
          · rw [hchoice]
            exact List.mem_cons_self
          · rw [hchoice]
            exact List.mem_cons_of_mem _ List.mem_cons_self
        · exact List.mem_cons_of_mem _ (List.mem_cons_of_mem _ hmem)
      · rcases List.mem_cons.mp hv with rfl | hv
        · exact h.trans hop (h.left hfirst hnext)
        · rcases List.mem_cons.mp hv with rfl | hv
          · exact h.trans hop (h.right hfirst hnext)
          · exact hrelated v (List.mem_cons_of_mem _ hv)

theorem chooses_min : Chooses Binary.min (· ≤ ·) where
  trans := le_trans
  choice := by
    intro a b ha hb
    rw [Binary.min_eq (Binary.ne_nan ha)]
    split
    · exact .inr rfl
    · exact .inl rfl
  left := fun ha hb => by
    rw [(Binary.min_finite ha hb).2]
    exact inf_le_left
  right := fun ha hb => by
    rw [(Binary.min_finite ha hb).2]
    exact inf_le_right

theorem chooses_max : Chooses Binary.max (· ≥ ·) where
  trans := fun hxy hyz => le_trans hyz hxy
  choice := by
    intro a b ha hb
    rw [Binary.max_eq (Binary.ne_nan ha)]
    split
    · exact .inr rfl
    · exact .inl rfl
  left := fun ha hb => by
    rw [(Binary.max_finite ha hb).2]
    exact le_sup_left
  right := fun ha hb => by
    rw [(Binary.max_finite ha hb).2]
    exact le_sup_right

/-! ## Extremes of a group -/

/-- The numbers that the weights of a group stand for. -/
def numbersOf {F : Format} (group : List (Binary F)) : Set ℚ :=
  {x | ∃ v ∈ group, v.toRat = x}

/-- The difference of the extremes, as it is computed. -/
def groupSpread {F : Format} (group : List (Binary F)) : Single :=
  groupMax group - groupMin group

/-- The extreme of larger magnitude, the largest weight when both are equally large. -/
def IsEdge {F : Format} (group : List (Binary F)) (v : Binary F) : Prop :=
  ∃ low high, IsLeast (numbersOf group) low ∧ IsGreatest (numbersOf group) high ∧
    v.toRat = if |high| < |low| then low else high

theorem isEdge_of_forall_eq {F : Format} {group : List (Binary F)} {v : Binary F} (hv : v ∈ group)
    (h : ∀ w ∈ group, w.toRat = v.toRat) : IsEdge group v := by
  refine ⟨v.toRat, v.toRat, ⟨⟨v, hv, rfl⟩, ?_⟩, ⟨⟨v, hv, rfl⟩, ?_⟩, (ite_self v.toRat).symm⟩
  · rintro _ ⟨w, hw, rfl⟩
    exact le_of_eq (h w hw).symm
  · rintro _ ⟨w, hw, rfl⟩
    exact le_of_eq (h w hw)

variable {type : FloatType} {group : List (Binary type.format)}

theorem groupFold {op : Single → Single → Single} {R : ℚ → ℚ → Prop} (h : Chooses op R)
    (hrefl : ∀ x, R x x) {start : Single} (hstart : ∀ a : Single, a.isFinite → op start a = a)
    (hne : group ≠ []) (hfinite : ∀ v ∈ group, v.isFinite) :
    ∃ v ∈ group, group.foldl (fun best v => op best v.widen) start = v.widen ∧
      ∀ w ∈ group, R v.toRat w.toRat := by
  have hwide : ∀ v ∈ group, v.widen.isFinite ∧ v.widen.toRat = v.toRat :=
    fun v hv => Binary.widen_finite (hfinite v hv)
  have hfold : ∀ (vs : List (Binary type.format)) (a : Single),
      vs.foldl (fun best v => op best v.widen) a = (vs.map fun v => v.widen).foldl op a := by
    intro vs a
    rw [List.foldl_map]
  cases group with
  | nil => exact absurd rfl hne
  | cons first rest =>
      have hfirst := (hwide first List.mem_cons_self).1
      have hrest : ∀ a ∈ rest.map fun v => v.widen, a.isFinite := by
        intro a ha
        obtain ⟨v, hv, rfl⟩ := List.mem_map.mp ha
        exact (hwide v (List.mem_cons_of_mem _ hv)).1
      obtain ⟨hmem, hrelated⟩ := h.foldl hrefl hrest hfirst
      rw [← List.map_cons] at hmem hrelated
      obtain ⟨v, hv, heq⟩ := List.mem_map.mp hmem
      refine ⟨v, hv, ?_, fun w hw => ?_⟩
      · rw [List.foldl_cons, hstart _ hfirst, hfold]
        exact heq.symm
      · have hw' := hrelated _ (List.mem_map_of_mem hw)
        rwa [← heq, (hwide v hv).2, (hwide w hw).2] at hw'

/-- The least weight of a group is found. -/
theorem groupMin_eq (hne : group ≠ []) (hfinite : ∀ v ∈ group, v.isFinite) :
    ∃ v ∈ group, groupMin group = v.widen ∧ IsLeast (numbersOf group) v.toRat := by
  have hstart : ∀ a : Single, a.isFinite → (Binary.infinite false).min a = a := by
    intro a ha
    have hnumber : (Binary.infinite false : Single) ≠ .nan := nofun
    rw [Binary.min_eq hnumber, if_pos (Binary.lt_infinite ha).1]
  obtain ⟨v, hv, hfold, hleast⟩ := groupFold chooses_min le_refl hstart hne hfinite
  refine ⟨v, hv, hfold, ⟨v, hv, rfl⟩, ?_⟩
  rintro _ ⟨w, hw, rfl⟩
  exact hleast w hw

/-- The largest weight of a group is found. -/
theorem groupMax_eq (hne : group ≠ []) (hfinite : ∀ v ∈ group, v.isFinite) :
    ∃ v ∈ group, groupMax group = v.widen ∧ IsGreatest (numbersOf group) v.toRat := by
  have hstart : ∀ a : Single, a.isFinite → (Binary.infinite true).max a = a := by
    intro a ha
    have hnumber : (Binary.infinite true : Single) ≠ .nan := nofun
    rw [Binary.max_eq hnumber, if_pos (Binary.lt_infinite ha).2]
  obtain ⟨v, hv, hfold, hgreatest⟩ := groupFold chooses_max le_refl hstart hne hfinite
  refine ⟨v, hv, hfold, ⟨v, hv, rfl⟩, ?_⟩
  rintro _ ⟨w, hw, rfl⟩
  exact hgreatest w hw

end SubByte
