/-
# Dense references — what the plain loops leave behind

The loops of `SubByte.Dense` read and write by position.  Where all positions are there,
a sum is a fold over its terms (`sumFrom_eq_ok`), and a loop that stores cell after cell
leaves the table of the values over the front of what was there (`storeFrom_eq_ok`).  So
the reference products are tables of the same shape as the kernels': `multiply_eq_ok` and
`multiplyTransposed_eq_ok` for dense weights, `expand_eq` for the expansion in front of
them, which needs storage of its own and nothing else.
-/
import Mathlib.Data.List.GetD
import SubByte.Dense.Affine
import SubByte.Proofs.Product.StoredRows

namespace SubByte.Dense

/-! ## Loops -/

/-- The sum of the first `k` terms, ascending from zero. -/
def total (term : Nat → Single) (k : Nat) : Single :=
  (List.range k).foldl (fun sum t => sum + term t) 0

theorem sumFrom_eq_ok {term : Nat → Except Fault Single} {value : Nat → Single} :
    ∀ (count t : Nat) (sum : Single), (∀ i, t ≤ i → i < t + count → term i = .ok (value i)) →
      sumFrom term t count sum =
        .ok ((List.range' t count).foldl (fun sum i => sum + value i) sum)
  | 0, _, _, _ => rfl
  | count + 1, t, sum, h => by
      have hfirst := h t (Nat.le_refl t) (by omega)
      have hrest := sumFrom_eq_ok count (t + 1) (sum + value t)
        fun i hlow hhigh => h i (by omega) (by omega)
      rw [sumFrom, hfirst, ok_bind, hrest, List.range'_succ, List.foldl_cons]

theorem fetch_getD {α : Type} {xs : List α} {i : Nat} (d : α) (h : i < xs.length) :
    fetch xs i = .ok (xs.getD i d) := by
  rw [fetch_eq_ok h, List.getD_eq_getElem xs d h]

theorem dot_eq_ok {a b : List Single} {left right : Nat → Nat} {k : Nat}
    (ha : ∀ t < k, left t < a.length) (hb : ∀ t < k, right t < b.length) :
    dot a b left right k =
      .ok (total (fun t => a.getD (left t) .nan * b.getD (right t) .nan) k) := by
  rw [dot, total, List.range_eq_range']
  refine sumFrom_eq_ok k 0 0 fun t _ ht => ?_
  have ht : t < k := by omega
  rw [fetch_getD .nan (ha t ht), ok_bind, fetch_getD .nan (hb t ht), ok_bind, pure_eq_ok]

/-- Between two stores the cells behind are written, those ahead are as they were. -/
theorem storeFrom_eq_ok {α : Type} {value : Nat → Except Fault α} {cell : Nat → α} :
    ∀ (count c : Nat) (out : List α), c + count ≤ out.length →
      (∀ i, c ≤ i → i < c + count → value i = .ok (cell i)) →
      storeFrom (fun i => i) value c count out =
        .ok (out.take c ++ (List.range' c count).map cell ++ out.drop (c + count))
  | 0, c, out, _, _ => by
      rw [storeFrom, List.range'_zero, List.map_nil, List.append_nil, Nat.add_zero,
        List.take_append_drop]
  | count + 1, c, out, hlength, h => by
      have hc : c < out.length := by omega
      have hstored : store out c (cell c) = .ok (out.set c (cell c)) := if_pos hc
      have hrest := storeFrom_eq_ok count (c + 1) (out.set c (cell c))
        (by rw [List.length_set]; omega) fun i hlow hhigh => h i (by omega) (by omega)
      have hbehind : (out.set c (cell c)).take (c + 1) = out.take c ++ [cell c] := by
        rw [List.take_set, List.take_add_one, List.getElem?_eq_getElem hc, Option.toList_some,
          List.set_append_right _ _ (by rw [List.length_take]; omega), List.length_take,
          Nat.min_eq_left (Nat.le_of_lt hc), Nat.sub_self, List.set_cons_zero]
      have hahead : (out.set c (cell c)).drop (c + 1 + count) = out.drop (c + (count + 1)) := by
        rw [List.drop_set_of_lt (by omega), Nat.add_assoc, Nat.add_comm 1]
      rw [storeFrom, h c (Nat.le_refl c) (by omega), ok_bind, hstored, ok_bind, hrest, hbehind,
        hahead, List.range'_succ, List.map_cons, List.append_assoc (out.take c)]
      rfl

theorem storeFrom_zero_eq_ok {α : Type} {value : Nat → Except Fault α} {cell : Nat → α}
    {count : Nat} {out : List α} (hlength : count ≤ out.length)
    (h : ∀ i < count, value i = .ok (cell i)) :
    storeFrom (fun i => i) value 0 count out =
      .ok (overlay ((List.range count).map cell) out) := by
  rw [storeFrom_eq_ok count 0 out (by rwa [Nat.zero_add]) fun i _ hi => h i (by omega), List.take_zero,
    List.nil_append, Nat.zero_add, ← List.range_eq_range', overlay, List.length_map,
    List.length_range]

/-! ## Products of dense weights -/

variable {a b c : List Single} {m n k : Nat}

theorem cell_bounds {cell : Nat} (h : cell < m * n) : cell / n < m ∧ cell % n < n := by
  have hn : 0 < n := Nat.pos_of_ne_zero fun hn => by
    rw [hn, Nat.mul_zero] at h
    exact Nat.not_lt_zero cell h
  exact ⟨Nat.div_lt_of_lt_mul (by rwa [Nat.mul_comm]), Nat.mod_lt cell hn⟩

theorem place_lt {rows cols r t : Nat} (hr : r < rows) (ht : t < cols) :
    r * cols + t < rows * cols := by
  have hrow := row_end_le hr (Nat.le_refl (rows * cols))
  omega

theorem multiply_eq_ok (ha : m * k ≤ a.length) (hb : k * n ≤ b.length) (hc : m * n ≤ c.length) :
    multiply a b c m n k = .ok (overlay ((List.range (m * n)).map fun cell =>
      total (fun t => a.getD (cell / n * k + t) .nan * b.getD (t * n + cell % n) .nan) k) c) := by
  refine storeFrom_zero_eq_ok hc fun cell hcell => ?_
  obtain ⟨hrow, hcol⟩ := cell_bounds hcell
  exact dot_eq_ok (fun t ht => Nat.lt_of_lt_of_le (place_lt hrow ht) ha)
    fun t ht => Nat.lt_of_lt_of_le (place_lt ht hcol) hb

theorem multiplyTransposed_eq_ok (ha : m * k ≤ a.length) (hb : n * k ≤ b.length)
    (hc : m * n ≤ c.length) :
    multiplyTransposed a b c m n k = .ok (overlay ((List.range (m * n)).map fun cell =>
      total (fun t => a.getD (cell / n * k + t) .nan * b.getD (cell % n * k + t) .nan) k) c) := by
  refine storeFrom_zero_eq_ok hc fun cell hcell => ?_
  obtain ⟨hrow, hcol⟩ := cell_bounds hcell
  exact dot_eq_ok (fun t ht => Nat.lt_of_lt_of_le (place_lt hrow ht) ha)
    fun t ht => Nat.lt_of_lt_of_le (place_lt hcol ht) hb

/-! ## Packed weights -/

variable {F : Format} {operands : Matrices F} {config : Config} {rows groups : Nat}

theorem affineWeight_eq_ok (hstored : operands.Stores config rows groups) {i : Nat}
    (hi : i < rows * groups * config.group.size) :
    affineWeight operands.w (operands.scales.map fun s => s.widen)
        (operands.biases.map fun b => b.widen) config.width.bits config.group.size i =
      .ok (operands.weightAt config i) := by
  have hgroup : i / config.group.size < rows * groups :=
    Nat.div_lt_of_lt_mul (by rwa [Nat.mul_comm])
  have hscale := Nat.lt_of_lt_of_le hgroup hstored.scales
  have hbias := Nat.lt_of_lt_of_le hgroup hstored.biases
  rw [affineWeight, hstored.readCode_eq_ok hi, ok_bind, quotient,
    if_neg (Nat.ne_of_gt config.group.size_pos), ok_bind,
    fetch_getD (Binary.widen (F := F) .nan) (by rwa [List.length_map]), ok_bind,
    fetch_getD (Binary.widen (F := F) .nan) (by rwa [List.length_map]), ok_bind, pure_eq_ok,
    List.getD_map, List.getD_map, Binary.mul_comm]
  rfl

theorem dequantize_eq_ok (hstored : operands.Stores config rows groups) :
    dequantize operands.w (operands.scales.map fun s => s.widen)
        (operands.biases.map fun b => b.widen) config.width.bits config.group.size
        (rows * groups * config.group.size) =
      .ok ((List.range (rows * groups * config.group.size)).map (operands.weightAt config)) := by
  rw [dequantize, tabulate_eq_ok fun i _ hi => affineWeight_eq_ok hstored (by omega),
    List.range_eq_range']

/-- The expansion has one thing to ask for, the storage of the weights. -/
theorem expand_eq (hstored : operands.Stores config rows groups) :
    expand operands.w (operands.scales.map fun s => s.widen)
        (operands.biases.map fun b => b.widen) config.width.bits config.group.size
        (rows * groups * config.group.size) = (do
      requireStorage (rows * groups * config.group.size) Format.single.bytes
      return (List.range (rows * groups * config.group.size)).map (operands.weightAt config)) := by
  rw [expand, dequantize_eq_ok hstored]
  rfl

end SubByte.Dense
