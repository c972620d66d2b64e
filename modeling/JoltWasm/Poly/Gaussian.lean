import JoltWasm.Poly.Univariate

/-!
# Constructors by elimination

Elimination of a regular system leaves a diagonal from which its solution is read off.  The Vandermonde
system and the system with the leading coefficient are regular while the nodes are distinct.
-/

namespace JoltWasm

open Polynomial Lib Finset

variable {F : Type} [Field F]

namespace UnivariatePoly

variable {size i : ℕ} {m m' : ℕ → ℕ → F} {y : ℕ → F}

/-! ## Forward elimination -/

theorem pivotRow_spec [DecidableEq F] (triangular : Triangular size i m) (regular : Regular size m) (inside : i < size) :
    ∃ pivot, pivotRow size i m = some pivot ∧ i ≤ pivot ∧ pivot < size ∧ m pivot i ≠ 0 := by
  obtain ⟨r, from_, below, nonzero⟩ := triangular.exists_pivot regular inside
  cases found : pivotRow size i m with
  | none =>
      have none_ := List.find?_eq_none.mp found r (List.mem_range'_1.mpr ⟨from_, by omega⟩)
      exact absurd nonzero (by simpa using none_)
  | some pivot =>
      have member := List.mem_range'_1.mp (List.mem_of_find?_eq_some found)
      have holds := List.find?_some found
      exact ⟨pivot, rfl, member.1, by omega, by simpa using holds⟩

theorem Triangular.swap {pivot : ℕ} (triangular : Triangular size i m) (from_ : i ≤ pivot) (below : pivot < size)
    (inside : i < size) : Triangular size i fun j => m (Equiv.swap i pivot j) := by
  intro c early
  obtain ⟨diagonal, cleared⟩ := triangular c early
  refine ⟨?_, fun j after small => ?_⟩
  · simp only
    rwa [Equiv.swap_apply_of_ne_of_ne (by omega) (by omega)]
  · refine cleared _ ?_ ?_
    · rw [Equiv.swap_apply_def]
      split_ifs <;> omega
    · rw [Equiv.swap_apply_def]
      split_ifs <;> omega

theorem Triangular.clearBelow (triangular : Triangular size i m) (pivot : m i i ≠ 0) (inside : i < size) :
    Triangular size (i + 1) (clearBelow size i m) := by
  intro c early
  rcases Nat.lt_or_ge c i with before | last
  · obtain ⟨diagonal, cleared⟩ := triangular c before
    refine ⟨?_, fun j after small => ?_⟩
    · rwa [UnivariatePoly.clearBelow, if_neg (by omega)]
    · rw [UnivariatePoly.clearBelow, if_neg (by omega), cleared j after small]
  · obtain rfl : c = i := by omega
    refine ⟨?_, fun j after _ => ?_⟩
    · rwa [UnivariatePoly.clearBelow, if_neg (by omega)]
    · rw [UnivariatePoly.clearBelow, if_pos ⟨after, le_rfl, inside.le⟩, mul_assoc, inv_mul_cancel₀ pivot,
        mul_one, sub_self]

/-- Row operations: only multiples of the pivot row are subtracted. -/
theorem annihilates_clearBelow (triangular : Triangular size i m) (inside : i < size) :
    Annihilates size (clearBelow size i m) y ↔ Annihilates size m y := by
  have operation : ∀ j < size, ∀ k ≤ size, clearBelow size i m j k =
      m j k - (if i < j then m j i * (m i i)⁻¹ else 0) * m i k := by
    intro j _ k last
    rw [clearBelow]
    by_cases below : i < j
    · rcases Nat.lt_or_ge k i with before | after
      · rw [if_neg (by omega), (triangular k before).2 i before inside, mul_zero, sub_zero]
      · rw [if_pos ⟨below, after, last⟩, if_pos below]
    · rw [if_neg (fun all => below all.1), if_neg below, zero_mul, sub_zero]
  exact (annihilates_congr operation).trans (annihilates_sub inside (if_neg (lt_irrefl i)))

theorem eliminate_spec [DecidableEq F] {steps : ℕ} (triangular : Triangular size i m) (regular : Regular size m)
    (inside : i + steps ≤ size) : ∃ m', eliminate size steps i m = some m' ∧ Triangular size (i + steps) m' ∧
      Regular size m' ∧ ∀ y, Annihilates size m y → Annihilates size m' y := by
  induction steps generalizing i m with
  | zero => exact ⟨m, rfl, triangular, regular, fun _ all => all⟩
  | succ steps ih =>
      have here : i < size := by omega
      obtain ⟨pivot, found, from_, below, nonzero⟩ := pivotRow_spec triangular regular here
      have swapped := Triangular.swap triangular from_ below here
      have pivot_ : m (Equiv.swap i pivot i) i ≠ 0 := by rwa [Equiv.swap_apply_left]
      have kept (y : ℕ → F) : Annihilates size (clearBelow size i fun j => m (Equiv.swap i pivot j)) y ↔
          Annihilates size m y :=
        (annihilates_clearBelow swapped here).trans (annihilates_swap here below)
      obtain ⟨m', run, triangular', regular', all⟩ := ih (Triangular.clearBelow swapped pivot_ here)
        (regular.of_annihilates fun y => (kept y).mp) (by omega)
      refine ⟨m', by rw [eliminate, found]; exact run, ?_, regular', fun y holds => all y ((kept y).mpr holds)⟩
      rwa [Nat.add_comm steps, ← Nat.add_assoc]

/-! ## Back substitution -/

/-- The columns past `i` are cleared above their pivots. -/
def Cleared (size i : ℕ) (m : ℕ → ℕ → F) : Prop := ∀ c, i < c → c < size → ∀ j < c, m j c = 0

theorem annihilates_clearAbove (inside : i < size) :
    Annihilates size (clearAbove i m) y ↔ Annihilates size m y := by
  have operation : ∀ j < size, ∀ k ≤ size, clearAbove i m j k =
      m j k - (if j < i then m j i * (m i i)⁻¹ else 0) * m i k := by
    intro j _ k _
    rw [clearAbove]
    split_ifs
    · rfl
    · rw [zero_mul, sub_zero]
  exact (annihilates_congr operation).trans (annihilates_sub inside (if_neg (lt_irrefl i)))

theorem Triangular.clearAbove (triangular : Triangular size size m) (inside : i < size) :
    Triangular size size (clearAbove i m) := by
  intro c small
  obtain ⟨diagonal, cleared⟩ := triangular c small
  refine ⟨?_, fun j after below => ?_⟩
  · rw [UnivariatePoly.clearAbove]
    split_ifs with above
    · rwa [cleared i above inside, mul_zero, sub_zero]
    · exact diagonal
  · rw [UnivariatePoly.clearAbove, cleared j after below]
    split_ifs with above
    · rw [cleared i (after.trans above) inside, mul_zero, sub_zero]
    · rfl

theorem Cleared.clearAbove (cleared : Cleared size (i + 1) m) (pivot : m (i + 1) (i + 1) ≠ 0) :
    Cleared size i (clearAbove (i + 1) m) := by
  intro c after small j above
  rw [UnivariatePoly.clearAbove]
  rcases Nat.lt_or_ge (i + 1) c with later | here
  · split_ifs
    · rw [cleared c later small j above, cleared c later small (i + 1) later, mul_zero, sub_zero]
    · exact cleared c later small j above
  · obtain rfl : c = i + 1 := by omega
    rw [if_pos above, mul_assoc, inv_mul_cancel₀ pivot, mul_one, sub_self]

theorem backSubstitute_spec [DecidableEq F] (triangular : Triangular size size m) (cleared : Cleared size i m)
    (inside : i < size) : ∃ m', backSubstitute i m = some m' ∧ Triangular size size m' ∧ Cleared size 0 m' ∧
      ∀ y, Annihilates size m y → Annihilates size m' y := by
  induction i generalizing m with
  | zero => exact ⟨m, rfl, triangular, cleared, fun _ all => all⟩
  | succ i ih =>
      have pivot := (triangular (i + 1) inside).1
      obtain ⟨m', run, triangular', cleared', all⟩ := ih (Triangular.clearAbove triangular inside)
        (Cleared.clearAbove cleared pivot) (by omega)
      refine ⟨m', by rw [backSubstitute, if_neg pivot]; exact run, triangular', cleared', fun y holds => ?_⟩
      exact all y ((annihilates_clearAbove inside).mpr holds)

/-! ## The solution -/

/-- A solution, with the coefficient of the right-hand side. -/
def homogeneous (size : ℕ) (x : ℕ → F) (k : ℕ) : F := if k = size then -1 else x k

theorem homogeneous_last (x : ℕ → F) : homogeneous size x size = -1 := if_pos rfl

theorem homogeneous_of_lt (x : ℕ → F) {k : ℕ} (inside : k < size) : homogeneous size x k = x k :=
  if_neg inside.ne

/-- A diagonal row determines its unknown. -/
theorem solution_of_diagonal {x : ℕ → F} (triangular : Triangular size size m) (cleared : Cleared size 0 m)
    (all : Annihilates size m (homogeneous size x)) {i : ℕ} (inside : i < size) :
    m i size * (m i i)⁻¹ = x i := by
  have row := all i inside
  have others : ∀ k ∈ range size, k ≠ i → m i k * homogeneous size x k = 0 := by
    intro k member other
    rcases Nat.lt_or_gt_of_ne other with before | after
    · rw [(triangular k (mem_range.mp member)).2 i before inside, zero_mul]
    · rw [cleared k (by omega) (mem_range.mp member) i after, zero_mul]
  rw [sum_range_succ, sum_eq_single_of_mem i (mem_range.mpr inside) others, homogeneous_of_lt x inside,
    homogeneous_last] at row
  have diagonal := (triangular i inside).1
  field_simp
  linear_combination -row

theorem mapM_some {α β : Type} {f : α → Option β} {g : α → β} {l : List α} (each : ∀ x ∈ l, f x = some (g x)) :
    l.mapM f = some (l.map g) := by
  induction l with
  | nil => rfl
  | cons x l ih =>
      rw [List.mapM_cons, each x List.mem_cons_self, ih fun x member => each x (List.mem_cons_of_mem _ member)]
      rfl

/-- Elimination returns the solution of a regular system. -/
theorem gaussianEliminationAugmented_spec [DecidableEq F] {x : ℕ → F} (regular : Regular size m)
    (solves : ∀ j < size, ∑ k ∈ range size, m j k * x k = m j size) :
    gaussianEliminationAugmented size m = some ((List.range size).map x) := by
  cases size with
  | zero => rfl
  | succ n =>
      have all : Annihilates (n + 1) m (homogeneous (n + 1) x) := by
        intro j inside
        have same : ∑ k ∈ range (n + 1), m j k * homogeneous (n + 1) x k = ∑ k ∈ range (n + 1), m j k * x k :=
          sum_congr rfl fun k member => by rw [homogeneous_of_lt x (mem_range.mp member)]
        rw [sum_range_succ, homogeneous_last, same, solves j inside]
        ring
      have start : Triangular (n + 1) 0 m := fun c early => absurd early (Nat.not_lt_zero c)
      obtain ⟨upper, forward, triangular, regular', kept⟩ := eliminate_spec start regular (by omega : 0 + n ≤ n + 1)
      rw [Nat.zero_add] at triangular
      -- The last pivot is the only entry left in its column.
      have whole : Triangular (n + 1) (n + 1) upper := by
        intro c small
        rcases Nat.lt_or_ge c n with before | last
        · exact triangular c before
        · obtain rfl : c = n := by omega
          obtain ⟨r, from_, below, nonzero⟩ := triangular.exists_pivot regular' (Nat.lt_succ_self c)
          obtain rfl : r = c := by omega
          exact ⟨nonzero, fun j after inside => absurd after (by omega)⟩
      obtain ⟨diagonal, back, triangular', cleared, kept'⟩ := backSubstitute_spec whole
        (fun c after small => absurd after (by omega)) (Nat.lt_succ_self n)
      have solution (i : ℕ) (inside : i < n + 1) := solution_of_diagonal triangular' cleared (kept' _ (kept _ all)) inside
      change (eliminate (n + 1) n 0 m).bind _ = _
      rw [forward, Option.bind_some]
      change (backSubstitute n upper).bind _ = _
      rw [back, Option.bind_some]
      refine mapM_some fun i member => ?_
      have inside := List.mem_range.mp member
      rw [inverse_of_ne (triangular' i inside).1]
      exact congrArg some (solution i inside)

/-! ## Nodes at the integers -/

/-- The integers below `n` are distinct in the field. -/
def DistinctNodes (F : Type) [Field F] (n : ℕ) : Prop := ∀ i < n, ∀ j < n, (i : F) = j → i = j

theorem DistinctNodes.injOn {n : ℕ} (distinct : DistinctNodes F n) :
    Set.InjOn (Nat.cast : ℕ → F) (range n : Finset ℕ) := fun i inside j inside' same =>
  distinct i (mem_range.mp inside) j (mem_range.mp inside') same

theorem length_integerPoints (evals : List F) : (integerPoints evals).length = evals.length := by
  rw [integerPoints, List.length_map, List.length_zipIdx]

theorem nodup_integerPoints {evals : List F} (distinct : DistinctNodes F evals.length) :
    ((integerPoints evals).map Prod.fst).Nodup := by
  have nodes : (integerPoints evals).map Prod.fst = (List.range evals.length).map Nat.cast := by
    refine List.ext_getElem (by simp [integerPoints]) fun i _ _ => ?_
    simp [integerPoints]
  rw [nodes]
  refine List.nodup_range.map_on fun i member j member' same => ?_
  exact distinct i (List.mem_range.mp member) j (List.mem_range.mp member') same

theorem mem_integerPoints {evals : List F} {i : ℕ} (inside : i < evals.length) :
    ((i : F), evals.getD i 0) ∈ integerPoints evals := by
  refine List.mem_map.mpr ⟨(evals.getD i 0, i), ?_, rfl⟩
  rw [List.getD_eq_getElem _ _ inside, List.mk_mem_zipIdx_iff_getElem?]
  exact List.getElem?_eq_getElem inside

theorem eval_ofCoefficients (cs : List F) (x : F) :
    (ofCoefficients cs).eval x = ∑ k ∈ range cs.length, x ^ k * cs.getD k 0 := by
  induction cs with
  | nil => simp [ofCoefficients]
  | cons c cs ih =>
      rw [eval_ofCoefficients_cons, ih, List.length_cons, sum_range_succ', mul_sum, add_comm]
      congr 1
      · exact sum_congr rfl fun k _ => by rw [List.getD_cons_succ, pow_succ]; ring
      · rw [pow_zero, one_mul, List.getD_cons_zero]

theorem sum_coeff {p : F[X]} {n : ℕ} (degree : p.degree < n) (x : F) :
    ∑ k ∈ range n, x ^ k * p.coeff k = p.eval x := by
  have value := eval_ofCoefficients ((List.range n).map p.coeff) x
  rw [ofCoefficients_range p degree, List.length_map, List.length_range] at value
  rw [value]
  refine sum_congr rfl fun k member => ?_
  rw [List.getD_eq_getElem _ _ (by simpa using mem_range.mp member), List.getElem_map, List.getElem_range]

/-- The polynomial of a vector. -/
theorem eval_vector (n : ℕ) (y : ℕ → F) (x : F) :
    (ofCoefficients ((List.range n).map y)).eval x = ∑ k ∈ range n, x ^ k * y k := by
  rw [eval_ofCoefficients, List.length_map, List.length_range]
  refine sum_congr rfl fun k member => ?_
  rw [List.getD_eq_getElem _ _ (by simpa using mem_range.mp member), List.getElem_map, List.getElem_range]

theorem coeff_vector {n : ℕ} (y : ℕ → F) {k : ℕ} (inside : k < n) :
    (ofCoefficients ((List.range n).map y)).coeff k = y k := by
  rw [coeff_ofCoefficients, List.getD_eq_getElem _ _ (by simpa using inside), List.getElem_map, List.getElem_range]

theorem degree_vector_lt (n : ℕ) (y : ℕ → F) : (ofCoefficients ((List.range n).map y)).degree < n := by
  have degree := degree_ofCoefficients_lt ((List.range n).map y)
  rwa [List.length_map, List.length_range] at degree

/-- A row of powers on a vector without right-hand side. -/
theorem vandermonde_row {evals : List F} {y : ℕ → F} (last : y evals.length = 0) (j : ℕ) :
    ∑ k ∈ range (evals.length + 1), vandermonde evals j k * y k =
      (ofCoefficients ((List.range evals.length).map y)).eval (j : F) := by
  rw [sum_range_succ, last, mul_zero, add_zero, eval_vector]
  exact sum_congr rfl fun k member => by rw [vandermonde, if_pos (mem_range.mp member)]

theorem vandermonde_regular {evals : List F} (distinct : DistinctNodes F evals.length) :
    Regular evals.length (vandermonde evals) := by
  intro y last all k inside
  have zero : ofCoefficients ((List.range evals.length).map y) = 0 := by
    refine eq_zero_of_degree_lt_of_eval_index_eq_zero _ distinct.injOn ?_ fun j member => ?_
    · rw [card_range]
      exact degree_vector_lt _ _
    · rw [← vandermonde_row last]
      exact all j (mem_range.mp member)
  rw [← coeff_vector y inside, zero, coeff_zero]

section Constructors

variable [DecidableEq F]

theorem interpolateOverIntegers_through {evals : List F} (nonempty : evals ≠ [])
    (distinct : DistinctNodes F evals.length) :
    ∃ p, interpolateOverIntegers evals = some p ∧ p.Through (integerPoints evals) := by
  rw [interpolateOverIntegers, if_neg nonempty]
  refine interpolate_through (nodup_integerPoints distinct) fun empty => nonempty ?_
  rw [← List.length_eq_zero_iff, ← length_integerPoints, empty, List.length_nil]

/-- Elimination on the Vandermonde system gives the polynomial of the Lagrange constructor. -/
theorem fromEvals_eq {evals : List F} (nonempty : evals ≠ []) (distinct : DistinctNodes F evals.length) :
    fromEvals evals = interpolateOverIntegers evals := by
  obtain ⟨p, found, through⟩ := interpolateOverIntegers_through nonempty distinct
  have length : p.coefficients.length = evals.length := through.length.trans (length_integerPoints evals)
  have degree : p.polynomial.degree < evals.length := by
    rw [← length]
    exact degree_ofCoefficients_lt _
  have solved := gaussianEliminationAugmented_spec (x := p.polynomial.coeff) (vandermonde_regular distinct)
    fun j inside => by
      have value : p.evaluate (j : F) = evals.getD j 0 := through.value _ (mem_integerPoints inside)
      rw [evaluate_eq_eval, ← sum_coeff degree] at value
      rw [show vandermonde evals j evals.length = evals.getD j 0 from if_neg (lt_irrefl _), ← value]
      exact sum_congr rfl fun k member => by rw [vandermonde, if_pos (mem_range.mp member)]
  have coefficients : (List.range evals.length).map p.polynomial.coeff = p.coefficients :=
    ofCoefficients_inj (by simpa using length.symm) (ofCoefficients_range _ degree)
  rw [found, fromEvals, gaussianEliminationVandermonde, solved, coefficients]
  rfl

/-! ## The leading coefficient -/

/-- The only polynomial of its length with these values and this leading coefficient. -/
structure ThroughInfinity (p : UnivariatePoly F) (evals : List F) : Prop where
  length : p.coefficients.length = evals.length
  value : ∀ i, i + 1 < evals.length → p.evaluate (i : F) = evals.getD i 0
  leading : p.coefficients.getD (evals.length - 1) 0 = evals.getD (evals.length - 1) 0
  unique : ∀ q : F[X], q.degree < evals.length → (∀ i, i + 1 < evals.length → q.eval (i : F) = evals.getD i 0) →
    q.coeff (evals.length - 1) = evals.getD (evals.length - 1) 0 → q = p.polynomial

omit [DecidableEq F] in
/-- Values and a leading coefficient that all vanish. -/
theorem eq_zero_of_infinity {n : ℕ} (distinct : DistinctNodes F n) {p : F[X]} (degree : p.degree < (n + 1 : ℕ))
    (values : ∀ i < n, p.eval (i : F) = 0) (leading : p.coeff n = 0) : p = 0 := by
  refine eq_zero_of_degree_lt_of_eval_index_eq_zero _ distinct.injOn ?_ fun j member =>
    values j (mem_range.mp member)
  rw [card_range]
  refine (degree_lt_iff_coeff_zero _ _).mpr fun k beyond => ?_
  rcases Nat.eq_or_lt_of_le beyond with here | past
  · rwa [← here]
  · exact (degree_lt_iff_coeff_zero _ _).mp degree k past

omit [DecidableEq F] in
theorem toomMatrix_regular {evals : List F} (nonempty : evals ≠ [])
    (distinct : DistinctNodes F (evals.length - 1)) : Regular evals.length (toomMatrix evals) := by
  intro y last all k inside
  obtain ⟨n, size⟩ : ∃ n, evals.length = n + 1 := Nat.exists_eq_succ_of_ne_zero fun none =>
    nonempty (List.length_eq_zero_iff.mp none)
  have zero : ofCoefficients ((List.range evals.length).map y) = 0 := by
    refine eq_zero_of_infinity (n := n) ?_ ?_ (fun j small => ?_) ?_
    · rwa [size, Nat.add_sub_cancel] at distinct
    · rw [← size]
      exact degree_vector_lt _ _
    · rw [← vandermonde_row last, ← all j (by omega)]
      exact sum_congr rfl fun k _ => by rw [toomMatrix, if_pos (by omega)]
    · have row := all n (by omega)
      rw [sum_range_succ, last, mul_zero, add_zero, sum_eq_single_of_mem n (mem_range.mpr (by omega))
        fun k member other => by
          rw [toomMatrix, if_neg (by omega), if_pos (mem_range.mp member), if_neg (by omega), zero_mul]] at row
      rwa [toomMatrix, if_neg (by omega), if_pos (by omega), if_pos size.symm, one_mul,
        ← coeff_vector y (by omega : n < evals.length)] at row
  rw [← coeff_vector y inside, zero, coeff_zero]

omit [DecidableEq F] in
/-- A polynomial with prescribed values and leading coefficient. -/
theorem exists_infinity {n : ℕ} (distinct : DistinctNodes F n) (values : ℕ → F) (leading : F) :
    ∃ p : F[X], p.degree < (n + 1 : ℕ) ∧ (∀ i < n, p.eval (i : F) = values i) ∧ p.coeff n = leading := by
  obtain ⟨low, isLow⟩ : ∃ low, low = Lagrange.interpolate (range n) (Nat.cast : ℕ → F)
    fun i => values i - leading * (i : F) ^ n := ⟨_, rfl⟩
  have degree : low.degree < n := by
    rw [isLow]
    simpa using Lagrange.degree_interpolate_lt (r := fun i => values i - leading * (i : F) ^ n) distinct.injOn
  have zero : low.coeff n = 0 := (degree_lt_iff_coeff_zero _ _).mp degree n le_rfl
  refine ⟨low + C leading * X ^ n, ?_, fun i small => ?_, ?_⟩
  · refine (degree_lt_iff_coeff_zero _ _).mpr fun k beyond => ?_
    rw [coeff_add, coeff_C_mul_X_pow, if_neg (by omega), add_zero,
      (degree_lt_iff_coeff_zero _ _).mp degree k (by omega)]
  · rw [eval_add, eval_mul, eval_C, eval_pow, eval_X, isLow,
      Lagrange.eval_interpolate_at_node _ distinct.injOn (mem_range.mpr small), sub_add_cancel]
  · rw [coeff_add, zero, coeff_C_mul_X_pow, if_pos rfl, zero_add]

theorem fromEvalsToom_through {evals : List F} (nonempty : evals ≠ [])
    (distinct : DistinctNodes F (evals.length - 1)) :
    ∃ p, fromEvalsToom evals = some p ∧ p.ThroughInfinity evals := by
  obtain ⟨n, size⟩ : ∃ n, evals.length = n + 1 := Nat.exists_eq_succ_of_ne_zero fun none =>
    nonempty (List.length_eq_zero_iff.mp none)
  have regular := toomMatrix_regular nonempty distinct
  rw [size, Nat.add_sub_cancel] at distinct
  obtain ⟨q, degree, values, leading⟩ := exists_infinity distinct (fun i => evals.getD i 0) (evals.getD n 0)
  have rows : ∀ j < evals.length, ∑ k ∈ range evals.length, toomMatrix evals j k * q.coeff k =
      toomMatrix evals j evals.length := by
    intro j inside
    have right : toomMatrix evals j evals.length = evals.getD j 0 := by
      rw [toomMatrix, vandermonde, if_neg (lt_irrefl _), if_neg (lt_irrefl _), ite_self]
    rw [right]
    by_cases finite : j < n
    · rw [← values j finite, ← sum_coeff degree, size]
      refine sum_congr rfl fun k member => ?_
      rw [toomMatrix, if_pos (by omega), vandermonde, if_pos (by rw [size]; exact mem_range.mp member)]
    · obtain rfl : j = n := by omega
      rw [← leading, sum_eq_single_of_mem j (mem_range.mpr inside) fun k member other => by
        rw [toomMatrix, if_neg (by omega), if_pos (mem_range.mp member), if_neg (by omega), zero_mul]]
      rw [toomMatrix, if_neg (by omega), if_pos inside, if_pos size.symm, one_mul]
  have solved := gaussianEliminationAugmented_spec (x := q.coeff) regular rows
  have polynomial : ofCoefficients ((List.range evals.length).map q.coeff) = q :=
    ofCoefficients_range q (by rwa [size])
  refine ⟨⟨(List.range evals.length).map q.coeff⟩, by rw [fromEvalsToom, if_neg nonempty, solved]; rfl, ?_⟩
  refine ⟨by simp, fun i small => ?_, ?_, fun other otherDegree otherValues otherLeading => ?_⟩
  · rw [evaluate_eq_eval, UnivariatePoly.polynomial, polynomial]
    exact values i (by omega)
  · rw [← coeff_ofCoefficients, polynomial, size, Nat.add_sub_cancel]
    exact leading
  · rw [UnivariatePoly.polynomial, polynomial, ← sub_eq_zero]
    rw [size, Nat.add_sub_cancel] at otherLeading
    refine eq_zero_of_infinity distinct ?_ (fun i small => ?_) ?_
    · exact (degree_sub_le _ _).trans_lt (max_lt (by rwa [← size]) degree)
    · rw [eval_sub, otherValues i (by omega), values i small, sub_self]
    · rw [coeff_sub, otherLeading, leading, sub_self]

end Constructors

end UnivariatePoly

end JoltWasm
