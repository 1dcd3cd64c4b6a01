/-
# Transposition — rows and columns exchanged in a flat buffer

Transposing reads the elements of a matrix in order and stores each of them at a place of its
own.  A loop that stores at places no two of which are equal leaves at each of them what was
stored there, and elsewhere what it found (`storeFrom_places`).  The places of a transposition
are such places, and they are all there are in front of `rows * cols`; so the transpose
has, by row and column, the elements of the matrix (`transpose_turns`).

Two things follow.  Exchanging rows and columns twice changes nothing, and a product of the
transposed operand adds up the same terms in the same order as one of the operand itself,
so that not even the rounding differs (`products_transposed`).
-/
import SubByte.Proofs.Dense.Affine

namespace SubByte.Dense

variable {α : Type}

/-! ## Storing at places of their own -/

/-- Places that no two of the cells share hold what was stored there, and the others the old
elements. -/
theorem storeFrom_places (place : Nat → Nat) (value : Nat → Except Fault α) (count : Nat) :
    ∀ (c : Nat) (out : List α),
      (∀ i, c ≤ i → i < c + count → place i < out.length ∧ ∃ a, value i = .ok a) →
      (∀ i j, c ≤ i → i < j → j < c + count → place i ≠ place j) →
      ∃ new, storeFrom place value c count out = .ok new ∧ new.length = out.length ∧
        (∀ i, c ≤ i → i < c + count → ∃ a, value i = .ok a ∧ new[place i]? = some a) ∧
        ∀ p, (∀ i, c ≤ i → i < c + count → place i ≠ p) → new[p]? = out[p]? := by
  induction count with
  | zero =>
      intro c out _ _
      refine ⟨out, rfl, rfl, fun i hlow hhigh => ?_, fun _ _ => rfl⟩
      omega
  | succ count ih =>
      intro c out hvalues hapart
      obtain ⟨hplace, a, ha⟩ := hvalues c (Nat.le_refl c) (by omega)
      have hstored : store out (place c) a = .ok (out.set (place c) a) := if_pos hplace
      obtain ⟨new, hnew, hlength, hinside, houtside⟩ := ih (c + 1) (out.set (place c) a)
        (fun i hlow hhigh => by
          rw [List.length_set]
          exact hvalues i (by omega) (by omega))
        fun i j hlow hij hhigh => hapart i j (by omega) hij (by omega)
      refine ⟨new, ?_, hlength.trans List.length_set, ?_, ?_⟩
      · rw [storeFrom, ha, ok_bind, hstored, ok_bind]
        exact hnew
      · intro i hlow hhigh
        rcases Nat.eq_or_lt_of_le hlow with rfl | hlater
        · -- no later cell is stored at the place of this one
          refine ⟨a, ha, ?_⟩
          rw [houtside (place c) fun j hj hjc => (hapart c j (Nat.le_refl c) hj (by omega)).symm,
            List.getElem?_set_self hplace]
        · exact hinside i hlater (by omega)
      · intro p hp
        rw [houtside p fun i hi hic => hp i (by omega) (by omega),
          List.getElem?_set_ne (hp c (Nat.le_refl c) (by omega))]

/-! ## The transpose -/

/-- The front of `new` is the transpose of the matrix at the front of `src`, and behind it are
the elements of `old`. -/
structure Turned (rows cols : Nat) (src old new : List α) : Prop where
  length : new.length = old.length
  inside : ∀ r < rows, ∀ c < cols, new[c * rows + r]? = src[r * cols + c]?
  behind : new.drop (rows * cols) = old.drop (rows * cols)

section Turned

variable {rows cols : Nat} {src old new : List α}

theorem turned_place_lt {cell : Nat} (h : cell < rows * cols) :
    cell % cols * rows + cell / cols < rows * cols := by
  obtain ⟨hrow, hcol⟩ := cell_bounds h
  rw [Nat.mul_comm rows]
  exact place_lt hcol hrow

theorem turned_place_inj {i j : Nat} (hi : i < rows * cols) (hj : j < rows * cols)
    (h : i % cols * rows + i / cols = j % cols * rows + j / cols) : i = j := by
  obtain ⟨hirow, -⟩ := cell_bounds hi
  obtain ⟨hjrow, -⟩ := cell_bounds hj
  have hrow : i / cols = j / cols := by
    have hmod := congrArg (· % rows) h
    simpa only [run_mod hirow, run_mod hjrow] using hmod
  have hcol : i % cols = j % cols := by
    have hdiv := congrArg (· / rows) h
    simpa only [run_div hirow, run_div hjrow] using hdiv
  rw [← Nat.div_add_mod i cols, ← Nat.div_add_mod j cols, hrow, hcol]

/-- Transposing exchanges the rows and the columns of the front, and touches nothing behind
it. -/
theorem transpose_turns (hsrc : rows * cols ≤ src.length) (hold : rows * cols ≤ old.length) :
    ∃ new, transpose src old rows cols = .ok new ∧ Turned rows cols src old new := by
  obtain ⟨new, hnew, hlength, hinside, houtside⟩ :=
    storeFrom_places (fun cell => cell % cols * rows + cell / cols) (fetch src) (rows * cols) 0 old
      (fun i _ hi => by
        have hi : i < rows * cols := by omega
        exact ⟨Nat.lt_of_lt_of_le (turned_place_lt hi) hold, _,
          fetch_eq_ok (Nat.lt_of_lt_of_le hi hsrc)⟩)
      fun i j _ hij hj hplace => by
        have hsame := turned_place_inj (by omega) (by omega) hplace
        omega
  refine ⟨new, hnew, hlength, ?_, ?_⟩
  · intro r hr c hc
    have hcell := place_lt hr hc
    obtain ⟨a, ha, hplaced⟩ := hinside (r * cols + c) (Nat.zero_le _) (by omega)
    rw [fetch_eq_ok (Nat.lt_of_lt_of_le hcell hsrc)] at ha
    cases ha
    rw [run_mod hc, run_div hc] at hplaced
    rw [hplaced, List.getElem?_eq_getElem]
  · refine List.ext_getElem? fun p => ?_
    rw [List.getElem?_drop, List.getElem?_drop]
    refine houtside _ fun i _ hi hplace => ?_
    have hfront : i % cols * rows + i / cols < rows * cols := turned_place_lt (by omega)
    omega

theorem Turned.restores {once back twice : List α} (honce : Turned rows cols src old once)
    (htwice : Turned cols rows once back twice) :
    twice.take (rows * cols) = src.take (rows * cols) := by
  refine List.ext_getElem? fun p => ?_
  rw [List.getElem?_take, List.getElem?_take]
  by_cases hp : p < rows * cols
  · obtain ⟨hrow, hcol⟩ := cell_bounds hp
    have hfound : twice[p / cols * cols + p % cols]? = src[p / cols * cols + p % cols]? :=
      (htwice.inside _ hcol _ hrow).trans (honce.inside _ hrow _ hcol)
    rw [Nat.div_add_mod'] at hfound
    rw [if_pos hp, if_pos hp, hfound]
  · rw [if_neg hp, if_neg hp]

end Turned

/-! ## Products -/

theorem total_congr {f g : Nat → Single} {k : Nat} (h : ∀ t < k, f t = g t) :
    total f k = total g k :=
  List.foldl_ext _ _ _ fun _ t ht => by rw [h t (List.mem_range.mp ht)]

theorem multiplyTransposed_turned {a b c old turned : List Single} {m n k : Nat}
    (hturned : Turned k n b old turned) (ha : m * k ≤ a.length) (hb : k * n ≤ b.length)
    (hc : m * n ≤ c.length) (hold : k * n ≤ old.length) :
    multiplyTransposed a turned c m n k = multiply a b c m n k := by
  have hroom : n * k ≤ turned.length := by rwa [hturned.length, Nat.mul_comm]
  rw [multiplyTransposed_eq_ok ha hroom hc, multiply_eq_ok ha hb hc]
  refine congrArg (fun cells => Except.ok (overlay cells c)) ?_
  refine List.map_congr_left fun cell hcell => total_congr fun t ht => ?_
  obtain ⟨-, hcol⟩ := cell_bounds (List.mem_range.mp hcell)
  rw [List.getD_eq_getElem?_getD (l := turned), hturned.inside t ht _ hcol,
    ← List.getD_eq_getElem?_getD]

theorem multiply_replaces {a b c : List Single} {m n k : Nat} (ha : m * k ≤ a.length)
    (hb : k * n ≤ b.length) (hc : m * n ≤ c.length) :
    ∃ cells product, multiply a b c m n k = .ok product ∧ Replaced (m * n) cells c product :=
  ⟨_, _, multiply_eq_ok ha hb hc,
    overlay_replaced (by rw [List.length_map, List.length_range]) hc⟩

/-- A product does not see whether its second operand is transposed first or by the product
itself: the output is the same, cell for cell, and behind the product it is the old one.  A
matrix transposed twice is itself. -/
theorem products_transposed :
    (∀ (m n k : Nat) (a b c old : List Single), m * k ≤ a.length → k * n ≤ b.length →
      m * n ≤ c.length → k * n ≤ old.length →
      ∃ turned product, transpose b old k n = .ok turned ∧ multiply a b c m n k = .ok product ∧
        multiplyTransposed a turned c m n k = .ok product ∧
        product.length = c.length ∧ product.drop (m * n) = c.drop (m * n)) ∧
    ∀ (rows cols : Nat) (src old back : List α), rows * cols ≤ src.length →
      rows * cols ≤ old.length → rows * cols ≤ back.length →
      ∃ once twice, transpose src old rows cols = .ok once ∧
        transpose once back cols rows = .ok twice ∧
        twice.take (rows * cols) = src.take (rows * cols) ∧
        twice.drop (rows * cols) = back.drop (rows * cols) := by
  constructor
  · intro m n k a b c old ha hb hc hold
    obtain ⟨turned, hturn, hturned⟩ := transpose_turns hb hold
    obtain ⟨cells, product, hproduct, hframe⟩ := multiply_replaces ha hb hc
    exact ⟨turned, product, hturn, hproduct,
      (multiplyTransposed_turned hturned ha hb hc hold).trans hproduct, hframe.length,
      hframe.behind⟩
  · intro rows cols src old back hsrc hold hback
    obtain ⟨once, honce, hturned⟩ := transpose_turns hsrc hold
    have hroom : cols * rows ≤ once.length := by rwa [hturned.length, Nat.mul_comm]
    obtain ⟨twice, htwice, hrestored⟩ := transpose_turns hroom (by rwa [Nat.mul_comm])
    have hbehind := hrestored.behind
    rw [Nat.mul_comm cols] at hbehind
    exact ⟨once, twice, honce, htwice, hturned.restores hrestored, hbehind⟩

/-- One row, with values of all kinds, times two rows of three, over buffers that are longer than
the matrices; and six characters in two rows of three. -/
theorem products_transposed_surplus :
    let a : List Single := [.ofNat .single 3, .infinite true]
    let b : List Single := [.ofNat .single 1, .nan, .ofNat .single 2, 0, .ofNat .single 5, .zero true]
    let old : List Single := List.replicate 7 .nan
    let c : List Single := List.replicate 4 .nan
    (∃ turned product, transpose b old 2 3 = .ok turned ∧ multiply a b c 1 3 2 = .ok product ∧
      multiplyTransposed a turned c 1 3 2 = .ok product ∧ product.drop 3 = [.nan]) ∧
    ∃ once twice, transpose ['a', 'b', 'c', 'd', 'e', 'f'] (List.replicate 6 '-') 2 3 = .ok once ∧
      transpose once (List.replicate 7 '-') 3 2 = .ok twice ∧
      twice = ['a', 'b', 'c', 'd', 'e', 'f', '-'] := by
  intro a b old c
  obtain ⟨hproducts, htwice⟩ := @products_transposed Char
  constructor
  · obtain ⟨turned, product, hturn, hproduct, htransposed, -, hbehind⟩ :=
      hproducts 1 3 2 a b c old (by decide) (by decide) (by decide) (by decide)
    exact ⟨turned, product, hturn, hproduct, htransposed, hbehind⟩
  · obtain ⟨once, twice, honce, htwice, hfront, hbehind⟩ := htwice 2 3
      ['a', 'b', 'c', 'd', 'e', 'f'] (List.replicate 6 '-') (List.replicate 7 '-')
      (by decide) (by decide) (by decide)
    refine ⟨once, twice, honce, htwice, ?_⟩
    rw [← List.take_append_drop (2 * 3) twice, hfront, hbehind]
    rfl

end SubByte.Dense
