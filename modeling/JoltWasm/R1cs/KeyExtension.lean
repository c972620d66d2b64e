import JoltWasm.Lib.Loops
import JoltWasm.R1cs.Key

/-!
# The extensions of the block-diagonal matrices

The evaluations of the key are those of the dense matrices: the local matrices on the diagonal, with their
rows and columns padded by zeros, and repeated entries of a row added up.
-/

namespace JoltWasm.R1cs

open Lib Finset EqPolynomial

open Blindfold (ConstraintMatrices)

variable {F : Type} [Field F]

/-! ## Dense matrices -/

/-- The entry of a sparse row in a column. -/
def entry (row : Blindfold.SparseRow F) (v : ℕ) : F := rowValue row fun j => if j = v then 1 else 0

/-- The matrix of one cycle. -/
def localMatrix (rows : List (Blindfold.SparseRow F)) (k v : ℕ) : F := entry (rows.getD k []) v

/-- The matrix of all cycles. -/
def blockDiagonal (key : R1csKey F) (rows : List (Blindfold.SparseRow F)) (i j : ℕ) : F :=
  if i / key.numConstraintsPadded = j / key.numVarsPadded then
    localMatrix rows (i % key.numConstraintsPadded) (j % key.numVarsPadded)
  else 0

/-- The extension of a matrix in its rows and its columns. -/
def matrixExtension (matrix : ℕ → ℕ → F) (rX rY : List F) : F := extension (fun i => extension (matrix i) rY) rX

theorem rowValue_cons (term : ℕ × F) (row : Blindfold.SparseRow F) (z : ℕ → F) :
    rowValue (term :: row) z = term.2 * z term.1 + rowValue row z := by
  rw [rowValue, List.map_cons, List.sum_cons, ← rowValue]

theorem rowValue_eq_sum {n : ℕ} {row : Blindfold.SparseRow F} (columns : ∀ term ∈ row, term.1 < n) (z : ℕ → F) :
    rowValue row z = ∑ v ∈ range n, entry row v * z v := by
  induction row with
  | nil => simp [rowValue, entry]
  | cons term row ih =>
      have single : ∑ v ∈ range n, term.2 * (if term.1 = v then 1 else 0) * z v = term.2 * z term.1 := by
        rw [sum_eq_single_of_mem term.1 (mem_range.mpr (columns term List.mem_cons_self)) fun v _ other => by
          rw [if_neg other.symm, mul_zero, zero_mul], if_pos rfl, mul_one]
      rw [rowValue_cons, ih fun term member => columns term (List.mem_cons_of_mem _ member)]
      simp only [entry, rowValue_cons, add_mul, sum_add_distrib, single]

theorem sparseRowDot_eq {row : Blindfold.SparseRow F} {table : List F} (columns : ∀ term ∈ row, term.1 < table.length) :
    sparseRowDot row table = some (rowValue row fun v => table.getD v 0) := by
  rw [sparseRowDot, foldlM_of_some (g := fun acc (term : ℕ × F) => acc + term.2 * table.getD term.1 0), foldl_add, zero_add]
  · rfl
  · rintro acc ⟨j, coeff⟩ member
    have here : j < table.length := columns (j, coeff) member
    simp only [List.getElem?_eq_getElem here, List.getD_eq_getElem _ _ here, Option.bind_eq_bind, Option.bind_some, Option.pure_def]

/-! ## The loop over the rows -/

namespace R1csKey

variable (key : R1csKey F)

/-- The rows by index. -/
theorem weightedRows_eq {weights : List F} (many : key.matrices.numConstraints ≤ weights.length) :
    key.weightedRows weights = (List.range key.matrices.numConstraints).map fun k =>
      (((key.matrices.a.getD k [], key.matrices.b.getD k []), key.matrices.c.getD k []), weights.getD k 0) := by
  have lengthA := key.matrices.length_a
  have lengthB := key.matrices.length_b
  have lengthC := key.matrices.length_c
  refine List.ext_getElem (by simp [weightedRows, lengthA, lengthB, lengthC, many]) fun k _ inside => ?_
  rw [List.length_map, List.length_range] at inside
  simp only [weightedRows, List.getElem_zip, List.getElem_map, List.getElem_range]
  rw [List.getD_eq_getElem _ _ (lengthA ▸ inside), List.getD_eq_getElem _ _ (lengthB ▸ inside),
    List.getD_eq_getElem _ _ (lengthC ▸ inside), List.getD_eq_getElem _ _ (inside.trans_le many)]

/-- A padded sum over the rows of one matrix. -/
def rowSum (rows : List (Blindfold.SparseRow F)) (weights : List F) (z : ℕ → F) : F :=
  ∑ k ∈ range key.matrices.numConstraints, weights.getD k 0 * rowValue (rows.getD k []) z

variable {key}

omit [Field F] in
theorem columns_of_getD {rows : List (Blindfold.SparseRow F)} (member : rows ∈ [key.matrices.a, key.matrices.b, key.matrices.c]) (k : ℕ) :
    ∀ term ∈ rows.getD k [], term.1 < key.matrices.numVars := by
  rw [List.getD_eq_getElem?_getD]
  cases found : rows[k]? with
  | none => simp
  | some row => exact key.matrices.columns rows member row (List.mem_of_getElem? found)

variable [DecidableEq F]

theorem weightedDots_eq {weights table : List F} (many : key.matrices.numConstraints ≤ weights.length)
    (wide : key.matrices.numVars ≤ table.length) :
    key.weightedDots weights table = some (key.rowSum key.matrices.a weights (table.getD · 0),
      key.rowSum key.matrices.b weights (table.getD · 0), key.rowSum key.matrices.c weights (table.getD · 0)) := by
  have dot {rows : List (Blindfold.SparseRow F)} (member : rows ∈ [key.matrices.a, key.matrices.b, key.matrices.c]) (k : ℕ) :=
    sparseRowDot_eq fun term there => (columns_of_getD member k term there).trans_le wide
  rw [weightedDots, weightedRows_eq key many, foldlM_of_some (g := fun sums x => sums + (x.2 * rowValue x.1.1.1 (table.getD · 0),
    x.2 * rowValue x.1.1.2 (table.getD · 0), x.2 * rowValue x.1.2 (table.getD · 0))), foldl_add, List.map_map]
  · have sums (f : ℕ → F × F × F) (n : ℕ) : (0, 0, 0) + ((List.range n).map f).sum =
        (∑ k ∈ range n, (f k).1, ∑ k ∈ range n, (f k).2.1, ∑ k ∈ range n, (f k).2.2) := by
      change 0 + ∑ k ∈ range n, f k = _
      rw [zero_add]
      exact Prod.ext Prod.fst_sum (Prod.ext (by simp [Prod.snd_sum, Prod.fst_sum]) (by simp [Prod.snd_sum]))
    rw [sums]
    rfl
  · rintro ⟨a, b, c⟩ x member
    obtain ⟨k, -, rfl⟩ := List.mem_map.mp member
    simp only [dot (by simp : key.matrices.a ∈ _), dot (by simp : key.matrices.b ∈ _), dot (by simp : key.matrices.c ∈ _),
      Option.bind_eq_bind, Option.bind_some, Option.pure_def]
    split_ifs with zero
    · simp only [zero, zero_mul, Prod.mk_add_mk, add_zero]
    · rfl

/-! ## The local matrices -/

omit [DecidableEq F] in
/-- Rows past the last one are empty. -/
theorem localMatrix_zero {rows : List (Blindfold.SparseRow F)} (count : rows.length = key.matrices.numConstraints) {k : ℕ}
    (past : key.matrices.numConstraints ≤ k) (v : ℕ) : localMatrix rows k v = 0 := by
  rw [localMatrix, List.getD_eq_default _ _ (count ▸ past)]
  rfl

omit [Field F] [DecidableEq F] in
theorem length_of_mem {rows : List (Blindfold.SparseRow F)} (member : rows ∈ [key.matrices.a, key.matrices.b, key.matrices.c]) :
    rows.length = key.matrices.numConstraints := by
  have lengthA := key.matrices.length_a
  have lengthB := key.matrices.length_b
  have lengthC := key.matrices.length_c
  simp only [List.mem_cons, List.not_mem_nil, or_false] at member
  rcases member with rfl | rfl | rfl <;> assumption

omit [DecidableEq F] in
/-- The weights of a point make a row sum an extension in the constraint variables. -/
theorem rowSum_table {rows : List (Blindfold.SparseRow F)} (member : rows ∈ [key.matrices.a, key.matrices.b, key.matrices.c])
    {point : List F} (dimension : point.length = key.numConstraintVars) {n : ℕ} (wide : key.matrices.numVars ≤ n)
    (z : ℕ → F) :
    key.rowSum rows (table 1 point) z = extension (fun k => ∑ v ∈ range n, localMatrix rows k v * z v) point := by
  have padded := padded_eq key.invariants.constraints
  rw [← numConstraintVars, ← dimension] at padded
  have columns (k : ℕ) : ∀ term ∈ rows.getD k [], term.1 < n := fun term there =>
    (columns_of_getD member k term there).trans_le wide
  rw [rowSum, extension]
  refine (sum_congr rfl fun k inside => ?_).trans (sum_subset (range_mono (padded.1 ▸ padded.2)) fun k _ outside => ?_)
  · have below : k < 2 ^ point.length := (mem_range.mp inside).trans_le (padded.1 ▸ padded.2)
    rw [getD_table 1 point below, rowValue_eq_sum (columns k), one_mul, mul_comm]
    rfl
  · rw [mem_range, Nat.not_lt] at outside
    rw [sum_eq_zero fun v _ => by rw [localMatrix_zero (length_of_mem member) outside, zero_mul], zero_mul]

omit [DecidableEq F] in
/-- With the weights of a point in the columns too, it is the extension of the local matrix. -/
theorem rowSum_tables {rows : List (Blindfold.SparseRow F)} (member : rows ∈ [key.matrices.a, key.matrices.b, key.matrices.c])
    {constraintPoint varPoint : List F} (dimension : constraintPoint.length = key.numConstraintVars)
    (dimension' : varPoint.length = key.numVarVars) :
    key.rowSum rows (table 1 constraintPoint) ((table 1 varPoint).getD · 0) =
      matrixExtension (localMatrix rows) constraintPoint varPoint := by
  have padded := padded_eq key.invariants.vars
  rw [← numVarVars, ← dimension'] at padded
  rw [rowSum_table member dimension (padded.1 ▸ padded.2), matrixExtension]
  refine extension_congr fun k _ => sum_congr rfl fun v inside => ?_
  rw [getD_table 1 varPoint (mem_range.mp inside), one_mul]

theorem evaluateLocalMles_eq {constraintPoint varPoint : List F} (dimension : constraintPoint.length = key.numConstraintVars)
    (dimension' : varPoint.length = key.numVarVars) :
    key.evaluateLocalMles constraintPoint varPoint =
      some (matrixExtension (localMatrix key.matrices.a) constraintPoint varPoint,
        matrixExtension (localMatrix key.matrices.b) constraintPoint varPoint,
        matrixExtension (localMatrix key.matrices.c) constraintPoint varPoint) := by
  have rows := padded_eq key.invariants.constraints
  rw [← numConstraintVars, ← dimension] at rows
  have cols := padded_eq key.invariants.vars
  rw [← numVarVars, ← dimension'] at cols
  rw [evaluateLocalMles, if_neg (not_not.mpr dimension), if_neg (not_not.mpr dimension')]
  simp only [evaluations_eq]
  rw [weightedDots_eq (by rw [length_table]; exact rows.1 ▸ rows.2) (by rw [length_table]; exact cols.1 ▸ cols.2),
    rowSum_tables (by simp) dimension dimension', rowSum_tables (by simp) dimension dimension',
    rowSum_tables (by simp) dimension dimension']

/-! ## All cycles -/

omit [DecidableEq F] in
/-- The extension of a block-diagonal matrix is that of its block, times the equality of the cycles. -/
theorem matrixExtension_blockDiagonal (rows : List (Blindfold.SparseRow F)) {rxCycle rxCon ryCycle ryVar : List F}
    (cyclesX : rxCycle.length = key.numCycleVars) (cyclesY : ryCycle.length = key.numCycleVars)
    (dimension : rxCon.length = key.numConstraintVars) (dimension' : ryVar.length = key.numVarVars) :
    matrixExtension (blockDiagonal key rows) (rxCycle ++ rxCon) (ryCycle ++ ryVar) =
      eqMle rxCycle ryCycle * matrixExtension (localMatrix rows) rxCon ryVar := by
  have K : key.numConstraintsPadded = 2 ^ rxCon.length := by rw [numConstraintsPadded_eq, dimension]
  have V : key.numVarsPadded = 2 ^ ryVar.length := by rw [numVarsPadded_eq, dimension']
  have inner (i : ℕ) (inside : i < 2 ^ (rxCycle ++ rxCon).length) :
      extension (blockDiagonal key rows i) (ryCycle ++ ryVar) =
        eqWeight ryCycle (i / 2 ^ rxCon.length) * extension (localMatrix rows (i % 2 ^ rxCon.length)) ryVar := by
    have block : i / 2 ^ rxCon.length < 2 ^ ryCycle.length := by
      rw [List.length_append, pow_add] at inside
      rw [cyclesY, ← cyclesX]
      exact Nat.div_lt_of_lt_mul (by rwa [Nat.mul_comm])
    have split : blockDiagonal key rows i = fun j =>
        (if j / 2 ^ ryVar.length = i / 2 ^ rxCon.length then 1 else 0) *
          localMatrix rows (i % 2 ^ rxCon.length) (j % 2 ^ ryVar.length) := by
      funext j
      rw [blockDiagonal, K, V]
      split_ifs with same other other
      · rw [one_mul]
      · exact (other same.symm).elim
      · exact (same other.symm).elim
      · rw [zero_mul]
    rw [split, extension_append_mul (fun t => if t = i / 2 ^ rxCon.length then 1 else 0), extension_single _ block, one_mul]
  rw [matrixExtension, extension_congr inner,
    extension_append_mul (eqWeight ryCycle) fun k => extension (localMatrix rows k) ryVar, ← matrixExtension,
    ← eqMle_eq (cyclesY.trans cyclesX.symm), eqMle_comm]

omit [Field F] [DecidableEq F] in
/-- A point of the rows or the columns, split after the cycle variables. -/
theorem splitAt_point {point : List F} {n : ℕ} (dimension : point.length = key.numCycleVars + n) :
    ∃ cycle rest, point = cycle ++ rest ∧ point.splitAt key.numCycleVars = (cycle, rest) ∧
      cycle.length = key.numCycleVars ∧ rest.length = n :=
  ⟨point.take key.numCycleVars, point.drop key.numCycleVars, (List.take_append_drop _ _).symm, List.splitAt_eq,
    by rw [List.length_take]; omega, by rw [List.length_drop]; omega⟩

/-! ## The combined row -/

omit [DecidableEq F] in
theorem addRow_eq {row : Blindfold.SparseRow F} {n : ℕ} (columns : ∀ term ∈ row, term.1 < n) (scale : F) (f : ℕ → F) :
    addRow scale row ((List.range n).map f) = some ((List.range n).map fun v => f v + scale * entry row v) := by
  rw [addRow]
  induction row generalizing f with
  | nil => simp [entry, rowValue]
  | cons term row ih =>
      obtain ⟨j, coeff⟩ := term
      have here : j < ((List.range n).map f).length := by
        rw [List.length_map, List.length_range]
        exact columns (j, coeff) List.mem_cons_self
      have changed : ((List.range n).map f).modify j (· + scale * coeff) =
          (List.range n).map fun v => f v + scale * (coeff * if j = v then 1 else 0) := by
        refine List.ext_getElem (by simp) fun v _ inside => ?_
        simp only [List.getElem_modify, List.getElem_map, List.getElem_range]
        split_ifs with same
        · rw [mul_one]
        · rw [mul_zero, mul_zero, add_zero]
      simp only [List.foldlM_cons, if_pos here, Option.bind_eq_bind, Option.bind_some, changed]
      rw [ih fun term member => columns term (List.mem_cons_of_mem _ member)]
      refine congrArg some (List.map_congr_left fun v _ => ?_)
      simp only [entry, rowValue_cons]
      ring

/-- The weighted sum of the three local matrices, over the rows. -/
def combinedEntry (key : R1csKey F) (weights : List F) (rhoA rhoB rhoC : F) (v : ℕ) : F :=
  ∑ k ∈ range key.matrices.numConstraints, weights.getD k 0 * (rhoA * localMatrix key.matrices.a k v +
    rhoB * localMatrix key.matrices.b k v + rhoC * localMatrix key.matrices.c k v)

theorem combinedLocalRow_eq {weights : List F} (many : key.matrices.numConstraints ≤ weights.length) (rhoA rhoB rhoC : F) :
    key.combinedLocalRow weights rhoA rhoB rhoC =
      some ((List.range key.numVarsPadded).map (combinedEntry key weights rhoA rhoB rhoC)) := by
  have wide := (padded_eq key.invariants.vars).2
  have columns {rows : List (Blindfold.SparseRow F)} (member : rows ∈ [key.matrices.a, key.matrices.b, key.matrices.c]) (k : ℕ) :
      ∀ term ∈ rows.getD k [], term.1 < key.numVarsPadded := fun term there =>
    (columns_of_getD member k term there).trans_le wide
  have start : List.replicate key.numVarsPadded (0 : F) = (List.range key.numVarsPadded).map fun _ => 0 := by
    rw [List.map_const', List.length_range]
  have term (k v : ℕ) (w value : F) : value + w * rhoA * entry (key.matrices.a.getD k []) v +
      w * rhoB * entry (key.matrices.b.getD k []) v + w * rhoC * entry (key.matrices.c.getD k []) v =
      value + w * (rhoA * localMatrix key.matrices.a k v + rhoB * localMatrix key.matrices.b k v +
        rhoC * localMatrix key.matrices.c k v) := by
    simp only [localMatrix]
    ring
  have loop (count : ℕ) : ((List.range count).map fun k =>
      (((key.matrices.a.getD k [], key.matrices.b.getD k []), key.matrices.c.getD k []), weights.getD k 0)).foldlM
        (fun local_ rows => do
          if rows.2 = 0 then return local_
          else
            let local_ ← addRow (rows.2 * rhoA) rows.1.1.1 local_
            let local_ ← addRow (rows.2 * rhoB) rows.1.1.2 local_
            addRow (rows.2 * rhoC) rows.1.2 local_) ((List.range key.numVarsPadded).map fun _ => 0) =
      some ((List.range key.numVarsPadded).map fun v => ∑ k ∈ range count, weights.getD k 0 *
        (rhoA * localMatrix key.matrices.a k v + rhoB * localMatrix key.matrices.b k v +
          rhoC * localMatrix key.matrices.c k v)) := by
    induction count with
    | zero => simp
    | succ count ih =>
        rw [List.range_succ, List.map_append, List.foldlM_append, ih, Option.bind_eq_bind, Option.bind_some,
          List.map_singleton, List.foldlM_cons]
        simp only [sum_range_succ]
        split_ifs with zero
        · simp only [zero, zero_mul, add_zero]
          rfl
        · simp only [addRow_eq (columns (by simp : key.matrices.a ∈ _) count),
            addRow_eq (columns (by simp : key.matrices.b ∈ _) count),
            addRow_eq (columns (by simp : key.matrices.c ∈ _) count), Option.bind_eq_bind, Option.bind_some, term,
            List.foldlM_nil, Option.pure_def]
  rw [combinedLocalRow, weightedRows_eq key many, start]
  exact loop _

theorem fillCycle_eq (f : ℕ → F) (n : ℕ) (eqC : F) :
    fillCycle ((List.range n).map f) (List.replicate n 0) eqC = (List.range n).map fun v => eqC * f v := by
  rw [fillCycle]
  split_ifs with zero
  · rw [zero]
    simp only [zero_mul, List.map_const', List.length_range]
  · refine List.ext_getElem (by simp) fun v _ _ => ?_
    simp only [List.getElem_zipWith, List.getElem_map, List.getElem_range, List.getElem_replicate]
    split_ifs with none
    · rw [none, mul_zero]
    · rfl

theorem combinedRow_eq {rxCycle rxCon : List F} (cycles : rxCycle.length = key.numCycleVars)
    (dimension : rxCon.length = key.numConstraintVars) (rhoA rhoB rhoC : F) :
    key.combinedRow (rxCycle ++ rxCon) rhoA rhoB rhoC = some ((List.range key.totalCols).map fun j =>
      eqWeight rxCycle (j / key.numVarsPadded) *
        combinedEntry key (table 1 rxCon) rhoA rhoB rhoC (j % key.numVarsPadded)) := by
  have rows := padded_eq key.invariants.constraints
  rw [← numConstraintVars, ← dimension] at rows
  have split : (rxCycle ++ rxCon).splitAt key.numCycleVars = (rxCycle, rxCon) := by
    rw [← cycles, List.splitAt_eq, List.take_left, List.drop_left]
  have count : key.numCycles = 2 ^ rxCycle.length := by rw [numCycles_eq, cycles]
  have positive : 0 < key.numVarsPadded := by
    rw [numVarsPadded_eq]
    exact Nat.two_pow_pos _
  have chunks : List.zipWith (fillCycle ((List.range key.numVarsPadded).map (combinedEntry key (table 1 rxCon) rhoA rhoB rhoC)))
      (List.replicate key.numCycles (List.replicate key.numVarsPadded 0)) (table 1 rxCycle) =
      (List.range key.numCycles).map fun t => (List.range key.numVarsPadded).map fun v =>
        eqWeight rxCycle t * combinedEntry key (table 1 rxCon) rhoA rhoB rhoC v := by
    refine List.ext_getElem (by simp [count]) fun t _ inside => ?_
    rw [List.length_map, List.length_range, count] at inside
    simp only [List.getElem_zipWith, List.getElem_replicate, List.getElem_map, List.getElem_range, fillCycle_eq, table, one_mul]
  rw [combinedRow, if_neg (by rw [List.length_append, cycles, dimension]; exact not_not.mpr rfl)]
  have many : key.matrices.numConstraints ≤ (table 1 rxCon).length := by
    rw [length_table]
    exact rows.1 ▸ rows.2
  simp only [split, evaluations_eq, combinedLocalRow_eq many, Option.bind_eq_bind, Option.bind_some, Option.pure_def, chunks]
  rw [totalCols, range_blocks, List.map_flatMap, ← List.flatMap_def]
  refine congrArg some (List.flatMap_congr fun t _ => ?_)
  rw [List.map_map]
  refine List.map_congr_left fun v inside => ?_
  have below := List.mem_range.mp inside
  rw [Function.comp_apply, Nat.mul_comm t, Nat.mul_add_div positive, Nat.div_eq_of_lt below, add_zero, Nat.mul_add_mod,
    Nat.mod_eq_of_lt below]

omit [DecidableEq F] in
/-- Rows past the last one add nothing. -/
theorem combinedEntry_eq {rxCon : List F} (dimension : rxCon.length = key.numConstraintVars) (rhoA rhoB rhoC : F) (v : ℕ) :
    combinedEntry key (table 1 rxCon) rhoA rhoB rhoC v = extension (fun k => rhoA * localMatrix key.matrices.a k v +
      rhoB * localMatrix key.matrices.b k v + rhoC * localMatrix key.matrices.c k v) rxCon := by
  have padded := padded_eq key.invariants.constraints
  rw [← numConstraintVars, ← dimension] at padded
  rw [combinedEntry, extension]
  refine (sum_congr rfl fun k inside => ?_).trans (sum_subset (range_mono (padded.1 ▸ padded.2)) fun k _ outside => ?_)
  · rw [getD_table 1 rxCon ((mem_range.mp inside).trans_le (padded.1 ▸ padded.2)), one_mul, mul_comm]
  · rw [mem_range, Nat.not_lt] at outside
    rw [localMatrix_zero key.matrices.length_a outside, localMatrix_zero key.matrices.length_b outside,
      localMatrix_zero key.matrices.length_c outside]
    ring

omit [DecidableEq F] in
theorem matrixExtension_comm (matrix : ℕ → ℕ → F) (rX rY : List F) :
    extension (fun v => extension (fun k => matrix k v) rX) rY = matrixExtension matrix rX rY := by
  simp only [matrixExtension, extension, sum_mul]
  rw [sum_comm]
  exact sum_congr rfl fun k _ => sum_congr rfl fun v _ => by ring

/-! ## Products with a vector -/

omit [DecidableEq F] in
/-- Columns past the last variable are empty. -/
theorem localMatrix_past {rows : List (Blindfold.SparseRow F)} (member : rows ∈ [key.matrices.a, key.matrices.b, key.matrices.c])
    (k : ℕ) {v : ℕ} (past : key.matrices.numVars ≤ v) : localMatrix rows k v = 0 := by
  rw [localMatrix, entry, rowValue]
  refine List.sum_eq_zero fun x there => ?_
  obtain ⟨term, here, rfl⟩ := List.mem_map.mp there
  have below := columns_of_getD member k term here
  rw [if_neg (by omega), mul_zero]

/-- The rows of the block-diagonal matrix times a vector. -/
def matvec (key : R1csKey F) (rows : List (Blindfold.SparseRow F)) (z : ℕ → F) (i : ℕ) : F :=
  ∑ j ∈ range key.totalCols, blockDiagonal key rows i j * z j

omit [DecidableEq F] in
theorem matvec_eq {rows : List (Blindfold.SparseRow F)} (member : rows ∈ [key.matrices.a, key.matrices.b, key.matrices.c])
    (z : ℕ → F) {t k : ℕ} (cycle : t < key.numCycles) (constraint : k < key.numConstraintsPadded) :
    key.matvec rows z (t * key.numConstraintsPadded + k) =
      ∑ v ∈ range key.matrices.numVars, localMatrix rows k v * z (t * key.numVarsPadded + v) := by
  have wide := (padded_eq key.invariants.vars).2
  have block : (t * key.numConstraintsPadded + k) / key.numConstraintsPadded = t ∧
      (t * key.numConstraintsPadded + k) % key.numConstraintsPadded = k := by
    rw [Nat.mul_comm, Nat.mul_add_div (by omega), Nat.div_eq_of_lt constraint, add_zero, Nat.mul_add_mod,
      Nat.mod_eq_of_lt constraint]
    exact ⟨rfl, rfl⟩
  have entries (s v : ℕ) (below : v < key.numVarsPadded) :
      blockDiagonal key rows (t * key.numConstraintsPadded + k) (s * key.numVarsPadded + v) =
        if t = s then localMatrix rows k v else 0 := by
    rw [blockDiagonal, block.1, block.2, Nat.mul_comm s, Nat.mul_add_div (by omega), Nat.div_eq_of_lt below, add_zero,
      Nat.mul_add_mod, Nat.mod_eq_of_lt below]
  rw [matvec, totalCols, sum_range_mul, sum_eq_single_of_mem t (mem_range.mpr cycle) fun s _ other =>
    sum_eq_zero fun v inside => by rw [entries s v (mem_range.mp inside), if_neg other.symm, zero_mul]]
  refine (sum_congr rfl fun v inside => ?_).trans (sum_subset (range_mono wide) fun v _ outside => ?_).symm
  · rw [entries t v (mem_range.mp inside), if_pos rfl]
  · rw [mem_range, Nat.not_lt] at outside
    rw [localMatrix_past member k outside, zero_mul]

omit [DecidableEq F] in
/-- The column evaluations stand for the cycles. -/
theorem extension_matvec {rows : List (Blindfold.SparseRow F)} (member : rows ∈ [key.matrices.a, key.matrices.b, key.matrices.c])
    {rCycle constraintPoint : List F} (cycles : rCycle.length = key.numCycleVars)
    (dimension : constraintPoint.length = key.numConstraintVars) {z w : ℕ → F}
    (columns : ∀ v < key.matrices.numVars, w v = extension (fun t => z (t * key.numVarsPadded + v)) rCycle) :
    extension (key.matvec rows z) (rCycle ++ constraintPoint) =
      extension (fun k => ∑ v ∈ range key.matrices.numVars, localMatrix rows k v * w v) constraintPoint := by
  have K : key.numConstraintsPadded = 2 ^ constraintPoint.length := by rw [numConstraintsPadded_eq, dimension]
  have C : key.numCycles = 2 ^ rCycle.length := by rw [numCycles_eq, cycles]
  rw [extension_append_eq_sum, sum_comm, extension]
  refine sum_congr rfl fun k constraint => ?_
  have below := mem_range.mp constraint
  calc ∑ t ∈ range (2 ^ rCycle.length), key.matvec rows z (t * 2 ^ constraintPoint.length + k) *
        (eqWeight rCycle t * eqWeight constraintPoint k)
      = ∑ t ∈ range (2 ^ rCycle.length), ∑ v ∈ range key.matrices.numVars, localMatrix rows k v *
          (z (t * key.numVarsPadded + v) * eqWeight rCycle t) * eqWeight constraintPoint k := by
        refine sum_congr rfl fun t cycle => ?_
        rw [← K, matvec_eq member z (C ▸ mem_range.mp cycle) (K ▸ below), sum_mul]
        exact sum_congr rfl fun v _ => by ring
    _ = (∑ v ∈ range key.matrices.numVars, localMatrix rows k v * w v) * eqWeight constraintPoint k := by
        rw [sum_comm, sum_mul]
        refine sum_congr rfl fun v inside => ?_
        rw [← sum_mul, ← mul_sum, columns v (mem_range.mp inside), extension]

/-- The three evaluations of the key are those of the dense matrices. -/
structure EvaluationsCorrect (key : R1csKey F) : Prop where
  matrixMles : ∀ rX rY, rX.length = key.numRowVars → rY.length = key.numColVars →
    key.evaluateMatrixMles rX rY = some (matrixExtension (blockDiagonal key key.matrices.a) rX rY,
      matrixExtension (blockDiagonal key key.matrices.b) rX rY, matrixExtension (blockDiagonal key key.matrices.c) rX rY)
  combinedRow : ∀ rX rhoA rhoB rhoC, rX.length = key.numRowVars →
    ∃ row, key.combinedRow rX rhoA rhoB rhoC = some row ∧ row.length = key.totalCols ∧
      ∀ rY, rY.length = key.numColVars → extension (row.getD · 0) rY =
        rhoA * matrixExtension (blockDiagonal key key.matrices.a) rX rY +
          rhoB * matrixExtension (blockDiagonal key key.matrices.b) rX rY +
          rhoC * matrixExtension (blockDiagonal key key.matrices.c) rX rY
  sparseMatvec : ∀ constraintPoint witnessEvals, constraintPoint.length = key.numConstraintVars →
    key.matrices.numVars ≤ witnessEvals.length → ∀ rCycle z, rCycle.length = key.numCycleVars →
    (∀ v < key.matrices.numVars, witnessEvals.getD v 0 = extension (fun t => z (t * key.numVarsPadded + v)) rCycle) →
    key.evaluateSparseMatvec constraintPoint witnessEvals =
      some (extension (key.matvec key.matrices.a z) (rCycle ++ constraintPoint),
        extension (key.matvec key.matrices.b z) (rCycle ++ constraintPoint),
        extension (key.matvec key.matrices.c z) (rCycle ++ constraintPoint))

theorem evaluateSparseMatvec_eq {constraintPoint witnessEvals : List F} (dimension : constraintPoint.length = key.numConstraintVars)
    (wide : key.matrices.numVars ≤ witnessEvals.length) :
    key.evaluateSparseMatvec constraintPoint witnessEvals =
      some (key.rowSum key.matrices.a (table 1 constraintPoint) (witnessEvals.getD · 0),
        key.rowSum key.matrices.b (table 1 constraintPoint) (witnessEvals.getD · 0),
        key.rowSum key.matrices.c (table 1 constraintPoint) (witnessEvals.getD · 0)) := by
  have rows := padded_eq key.invariants.constraints
  rw [← numConstraintVars, ← dimension] at rows
  rw [evaluateSparseMatvec, if_neg (not_not.mpr dimension), if_neg (Nat.not_lt.mpr wide), evaluations_eq,
    weightedDots_eq (by rw [length_table]; exact rows.1 ▸ rows.2) wide]

/-- For any matrices and any number of cycles of which a key is made. -/
theorem evaluations_correct (key : R1csKey F) : EvaluationsCorrect key where
  matrixMles rX rY rows cols := by
    obtain ⟨rxCycle, rxCon, rfl, splitX, cyclesX, dimension⟩ := splitAt_point rows
    obtain ⟨ryCycle, ryVar, rfl, splitY, cyclesY, dimension'⟩ := splitAt_point cols
    rw [evaluateMatrixMles, if_neg (not_not.mpr rows), if_neg (not_not.mpr cols)]
    simp only [splitX, splitY, evaluateLocalMles_eq dimension dimension', Option.bind_eq_bind, Option.bind_some,
      matrixExtension_blockDiagonal _ cyclesX cyclesY dimension dimension', Option.pure_def]
  combinedRow rX rhoA rhoB rhoC rows := by
    obtain ⟨rxCycle, rxCon, rfl, -, cyclesX, dimension⟩ := splitAt_point rows
    refine ⟨_, combinedRow_eq cyclesX dimension rhoA rhoB rhoC, by rw [List.length_map, List.length_range], fun rY cols => ?_⟩
    obtain ⟨ryCycle, ryVar, rfl, -, cyclesY, dimension'⟩ := splitAt_point cols
    have V : key.numVarsPadded = 2 ^ ryVar.length := by rw [numVarsPadded_eq, dimension']
    have total : key.totalCols = 2 ^ (ryCycle ++ ryVar).length := by
      rw [totalCols, numCycles_eq, V, List.length_append, pow_add, cyclesY]
    have listed : extension (((List.range key.totalCols).map fun j => eqWeight rxCycle (j / key.numVarsPadded) *
        combinedEntry key (table 1 rxCon) rhoA rhoB rhoC (j % key.numVarsPadded)).getD · 0) (ryCycle ++ ryVar) =
        extension (fun j => eqWeight rxCycle (j / 2 ^ ryVar.length) *
          combinedEntry key (table 1 rxCon) rhoA rhoB rhoC (j % 2 ^ ryVar.length)) (ryCycle ++ ryVar) :=
      extension_congr fun j inside => by
        rw [← total] at inside
        rw [List.getD_eq_getElem _ _ (by rwa [List.length_map, List.length_range]), List.getElem_map, List.getElem_range, V]
    have entries : combinedEntry key (table 1 rxCon) rhoA rhoB rhoC = fun v =>
        rhoA * extension (fun k => localMatrix key.matrices.a k v) rxCon +
          rhoB * extension (fun k => localMatrix key.matrices.b k v) rxCon +
          rhoC * extension (fun k => localMatrix key.matrices.c k v) rxCon := by
      funext v
      rw [combinedEntry_eq dimension, extension_add, extension_add, extension_mul, extension_mul, extension_mul]
    rw [listed, extension_append_mul, ← eqMle_eq (cyclesX.trans cyclesY.symm), entries, extension_add, extension_add,
      extension_mul, extension_mul, extension_mul, matrixExtension_comm, matrixExtension_comm, matrixExtension_comm,
      matrixExtension_blockDiagonal _ cyclesX cyclesY dimension dimension',
      matrixExtension_blockDiagonal _ cyclesX cyclesY dimension dimension',
      matrixExtension_blockDiagonal _ cyclesX cyclesY dimension dimension']
    ring
  sparseMatvec constraintPoint witnessEvals dimension wide rCycle z cycles columns := by
    rw [evaluateSparseMatvec_eq dimension wide, rowSum_table (by simp) dimension le_rfl, rowSum_table (by simp) dimension le_rfl,
      rowSum_table (by simp) dimension le_rfl, extension_matvec (by simp) cycles dimension columns,
      extension_matvec (by simp) cycles dimension columns, extension_matvec (by simp) cycles dimension columns]

end R1csKey

end JoltWasm.R1cs
