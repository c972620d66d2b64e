import Mathlib.Algebra.Module.BigOperators
import JoltWasm.Opening.Commitment
import JoltWasm.Opening.CommittedViews

/-!
# Row commitments are sums over the columns

A hint commits to a table when its entries are the commitments of the rows of the matrix, and the rows after
its last entry are zero.  Tables fed row by row, blocks with their own width and linear combinations of hints
commit to the polynomials of the grid.
-/

namespace JoltWasm

open Finset Lib DoryScheme

section

variable {F M : Type} [Field F] [AddCommGroup M] [Module F M]

/-! ## Commitments as sums -/

/-- A multi-scalar multiplication over any number of columns that is enough. -/
theorem msm_eq (bases : List M) {scalars : List F} {m : ℕ} (enough : scalars.length ≤ m) :
    msm bases scalars = ∑ c ∈ range m, scalars.getD c 0 • bases.getD c 0 := by
  rw [msm]
  induction scalars generalizing bases m with
  | nil => exact (sum_eq_zero fun c _ => by rw [List.getD_nil, zero_smul]).symm
  | cons scalar scalars ih =>
    cases bases with
    | nil => exact (sum_eq_zero fun c _ => by rw [List.getD_nil, smul_zero]).symm
    | cons base bases =>
      obtain ⟨m, rfl⟩ := Nat.exists_eq_add_of_lt (Nat.lt_of_succ_le enough)
      rw [List.zipWith_cons_cons, List.sum_cons, sum_range_succ', ih bases (Nat.le_add_right _ _), add_comm]
      rfl

theorem msm_take (bases : List M) {scalars : List F} {n : ℕ} (enough : scalars.length ≤ n) :
    msm (bases.take n) scalars = msm bases scalars := by
  rw [msm_eq _ le_rfl, msm_eq _ le_rfl]
  refine sum_congr rfl fun c member => ?_
  have base : (bases.take n).getD c 0 = bases.getD c 0 := by
    rw [List.getD_eq_getElem?_getD, List.getD_eq_getElem?_getD,
      List.getElem?_take_of_lt ((mem_range.mp member).trans_le enough)]
  rw [base]

variable (F) in
omit [Module F M] in
/-- Integer scalars act through the field. -/
theorem msmI128_eq [Module F M] (bases : List M) (scalars : List ℤ) :
    msmI128 bases scalars = msm bases (scalars.map (Int.cast : ℤ → F)) := by
  rw [msmI128, msm, List.zipWith_map_left]
  simp only [Int.cast_smul_eq_zsmul]

theorem msm_map_range (bases : List M) (f : ℕ → F) (m : ℕ) :
    msm bases ((List.range m).map f) = ∑ c ∈ range m, f c • bases.getD c 0 := by
  rw [msm_eq bases (by rw [List.length_map, List.length_range])]
  refine sum_congr rfl fun c member => ?_
  rw [List.getD_eq_getElem _ _ (by rw [List.length_map, List.length_range]; exact mem_range.mp member),
    List.getElem_map, List.getElem_range]

/-- A row that ends early, over all columns. -/
theorem sum_columns {f g : ℕ → M} {m n : ℕ} (fits : m ≤ n) (inside : ∀ c < m, f c = g c)
    (outside : ∀ c, m ≤ c → c < n → g c = 0) : ∑ c ∈ range m, f c = ∑ c ∈ range n, g c := by
  rw [← Nat.add_sub_cancel' fits, sum_range_add, sum_eq_zero (s := range (n - m)) fun c member => ?_, add_zero]
  · exact sum_congr rfl fun c member => inside c (mem_range.mp member)
  · exact outside _ (Nat.le_add_right _ _) (by have := mem_range.mp member; omega)

/-! ## Hints -/

/-- The width of the balanced matrix. -/
def balancedSigma (total : ℕ) : ℕ := (total + 1) / 2

theorem balancedSigma_le (total : ℕ) : balancedSigma total ≤ total := by
  rw [balancedSigma]
  omega

/-- The hint has the commitments of the rows of the table, and trailing rows that it lacks are zero. -/
structure CommitsTable (bases : List M) (total : ℕ) (rowCommitments : List M) (table : ℕ → F) : Prop where
  few : rowCommitments.length ≤ 2 ^ (total - balancedSigma total)
  row : ∀ r < 2 ^ (total - balancedSigma total), rowCommitments.getD r 0 =
    ∑ c ∈ range (2 ^ balancedSigma total), table (r * 2 ^ balancedSigma total + c) • bases.getD c 0

/-- The hint has the commitments of the rows of the polynomial, and trailing rows that it lacks are zero. -/
structure Commits (bases : List M) (rowCommitments : List M) (poly : MultilinearPoly F) : Prop where
  height : (poly.forEachRow (balancedSigma poly.numVars)).length = 2 ^ (poly.numVars - balancedSigma poly.numVars)
  width : ∀ row ∈ poly.forEachRow (balancedSigma poly.numVars), row.length = 2 ^ balancedSigma poly.numVars
  few : rowCommitments.length ≤ 2 ^ (poly.numVars - balancedSigma poly.numVars)
  row : ∀ r < 2 ^ (poly.numVars - balancedSigma poly.numVars),
    rowCommitments.getD r 0 = msm bases ((poly.forEachRow (balancedSigma poly.numVars)).getD r [])

theorem CommitsTable.congr {bases : List M} {total : ℕ} {rowCommitments : List M} {f g : ℕ → F}
    (commits : CommitsTable bases total rowCommitments f) (same : ∀ place < 2 ^ total, f place = g place) :
    CommitsTable bases total rowCommitments g where
  few := commits.few
  row r inside := (commits.row r inside).trans <| sum_congr rfl fun c member => by
    rw [same _ (place_lt (balancedSigma_le total) inside (mem_range.mp member))]

omit [Field F] in
theorem getD_matrixRows (table : ℕ → F) {n σ r : ℕ} (inside : r < 2 ^ (n - σ)) :
    (matrixRows table n σ).getD r [] = (List.range (2 ^ σ)).map fun c => table (r * 2 ^ σ + c) := by
  rw [List.getD_eq_getElem _ _ (by rwa [length_matrixRows])]
  simp only [matrixRows, List.getElem_map, List.getElem_range]

/-- For a polynomial that reads its table, both are the same. -/
theorem commits_iff {bases : List M} {rowCommitments : List M} {poly : MultilinearPoly F} {table : ℕ → F}
    (reads : Represents poly table) :
    Commits bases rowCommitments poly ↔ CommitsTable bases poly.numVars rowCommitments table := by
  have rows := reads.rows _ (balancedSigma_le poly.numVars)
  have row {r : ℕ} (inside : r < 2 ^ (poly.numVars - balancedSigma poly.numVars)) :
      msm bases ((poly.forEachRow (balancedSigma poly.numVars)).getD r []) =
        ∑ c ∈ range (2 ^ balancedSigma poly.numVars),
          table (r * 2 ^ balancedSigma poly.numVars + c) • bases.getD c 0 := by
    rw [rows, getD_matrixRows table inside, msm_map_range]
  constructor
  · intro commits
    exact ⟨commits.few, fun r inside => (commits.row r inside).trans (row inside)⟩
  · intro commits
    refine ⟨by rw [rows, length_matrixRows], fun values member => ?_, commits.few,
      fun r inside => (commits.row r inside).trans (row inside).symm⟩
    rw [rows] at member
    obtain ⟨r, -, rfl⟩ := List.mem_map.mp member
    rw [List.length_map, List.length_range]

/-! ## Combinations of hints -/

/-- The rows of all hints, weighted; a hint that ends early adds zero. -/
theorem foldl_hints (hints : List (List M × F)) (row : ℕ) (start : M) :
    hints.foldl (fun acc hint => match hint.1[row]? with
      | some rowCommitment => acc + hint.2 • rowCommitment
      | none => acc) start = start + (hints.map fun hint => hint.2 • hint.1.getD row 0).sum := by
  induction hints generalizing start with
  | nil => exact (add_zero start).symm
  | cons hint hints ih =>
    rw [List.foldl_cons, ih, List.map_cons, List.sum_cons, ← add_assoc, List.getD_eq_getElem?_getD]
    cases hint.1[row]? with
    | none => rw [Option.getD_none, smul_zero, add_zero]
    | some rowCommitment => rfl

omit [AddCommGroup M] in
theorem foldl_max (hints : List (List M)) {bound : ℕ} (start : ℕ) (few : ∀ hint ∈ hints, hint.length ≤ bound)
    (below : start ≤ bound) : (hints.map List.length).foldl max start ≤ bound ∧
      start ≤ (hints.map List.length).foldl max start ∧
      ∀ hint ∈ hints, hint.length ≤ (hints.map List.length).foldl max start := by
  induction hints generalizing start with
  | nil => exact ⟨below, le_rfl, fun _ member => absurd member List.not_mem_nil⟩
  | cons hint hints ih =>
    obtain ⟨small, later, others⟩ := ih (max start hint.length)
      (fun other member => few other (List.mem_cons_of_mem _ member)) (max_le below (few hint List.mem_cons_self))
    refine ⟨small, (le_max_left _ _).trans later, fun other member => ?_⟩
    rcases List.mem_cons.mp member with rfl | member
    · exact (le_max_right _ _).trans later
    · exact others other member

theorem combineHints_eq {hints : List (List M)} {scalars : List F} (lengths : hints.length = scalars.length)
    (some_ : hints ≠ []) : combineHints hints scalars = .ok ((List.range ((hints.map List.length).foldl max 0)).map
      fun row => ((hints.zip scalars).map fun hint => hint.2 • hint.1.getD row 0).sum) := by
  rw [combineHints, asserted, asserted, if_pos lengths, if_pos some_]
  exact congrArg Except.ok (List.map_congr_left fun row _ => (foldl_hints _ row 0).trans (zero_add _))

/-- Weighted rows are the row of the weighted tables. -/
theorem sum_rows (parts : List ((ℕ → F) × F)) (bases : List M) (place : ℕ → ℕ) (m : ℕ) :
    (parts.map fun part => part.2 • ∑ c ∈ range m, part.1 (place c) • bases.getD c 0).sum =
      ∑ c ∈ range m, (parts.map fun part => part.2 * part.1 (place c)).sum • bases.getD c 0 := by
  induction parts with
  | nil => exact (sum_eq_zero fun c _ => zero_smul F _).symm
  | cons part parts ih =>
    simp only [List.map_cons, List.sum_cons, add_smul, sum_add_distrib, smul_sum, mul_smul] at ih ⊢
    rw [ih]

/-- Hints may lack rows; a combination has as many as the longest. -/
theorem combineHints_commits {parts : List (List M × (ℕ → F))} {scalars : List F} {bases : List M} {total : ℕ}
    (lengths : parts.length = scalars.length) (some_ : parts ≠ [])
    (each : ∀ part ∈ parts, CommitsTable bases total part.1 part.2) :
    ∃ combined, combineHints (parts.map Prod.fst) scalars = .ok combined ∧ CommitsTable bases total combined fun place =>
      ((parts.zip scalars).map fun part => part.2 * part.1.2 place).sum := by
  have short : ∀ hint ∈ parts.map Prod.fst, hint.length ≤ 2 ^ (total - balancedSigma total) := by
    intro hint member
    obtain ⟨part, among, rfl⟩ := List.mem_map.mp member
    exact (each part among).few
  obtain ⟨few, -, all⟩ := foldl_max (parts.map Prod.fst) 0 short (Nat.zero_le _)
  have row (r : ℕ) (inside : r < 2 ^ (total - balancedSigma total)) :
      (((parts.map Prod.fst).zip scalars).map fun hint => hint.2 • hint.1.getD r 0).sum =
        ∑ c ∈ range (2 ^ balancedSigma total), ((parts.zip scalars).map fun part =>
          part.2 * part.1.2 (r * 2 ^ balancedSigma total + c)).sum • bases.getD c 0 := by
    have rows : (((parts.map Prod.fst).zip scalars).map fun hint => hint.2 • hint.1.getD r 0) =
        ((parts.zip scalars).map fun part => (part.1.2, part.2)).map fun part =>
          part.2 • ∑ c ∈ range (2 ^ balancedSigma total),
            part.1 (r * 2 ^ balancedSigma total + c) • bases.getD c 0 := by
      rw [List.zip_map_left, List.map_map, List.map_map]
      exact List.map_congr_left fun part member =>
        congrArg (part.2 • ·) ((each part.1 (List.of_mem_zip member).1).row r inside)
    rw [rows, sum_rows]
    simp only [List.map_map, Function.comp_def]
  refine ⟨_, combineHints_eq (by rwa [List.length_map]) (by simpa using some_), ?_, fun r inside => ?_⟩
  · rw [List.length_map, List.length_range]
    exact few
  · rw [← row r inside]
    by_cases present : r < ((parts.map Prod.fst).map List.length).foldl max 0
    · rw [List.getD_eq_getElem _ _ (by rwa [List.length_map, List.length_range]), List.getElem_map, List.getElem_range]
    · -- past the longest hint
      rw [List.getD_eq_default _ _ (by rw [List.length_map, List.length_range]; exact Nat.not_lt.mp present)]
      refine (List.sum_eq_zero fun m member => ?_).symm
      obtain ⟨hint, among, rfl⟩ := List.mem_map.mp member
      rw [List.getD_eq_default _ _ ((all _ (List.of_mem_zip among).1).trans (Nat.not_lt.mp present)), smul_zero]

/-! ## Tables fed row by row -/

/-- What the setup must have for a grid. -/
structure DoryProverSetup.Covers (setup : DoryProverSetup M) (total : ℕ) : Prop where
  columns : 2 ^ balancedSigma total ≤ setup.g1Vec.length
  rows : 2 ^ (total - balancedSigma total) ≤ setup.g2Len

variable {setup : DoryProverSetup M}

omit [AddCommGroup M] in
theorem assertWidth_ok {width : ℕ} (power : width.isPowerOfTwo) (small : width ≤ setup.g1Vec.length) :
    assertWidth setup width = .ok () := by
  rw [assertWidth, asserted, asserted, if_pos power, if_pos small]
  rfl

theorem feed_rows {rows : List (List F)} (start : List M)
    (each : ∀ row ∈ rows, row.length.isPowerOfTwo ∧ row.length ≤ setup.g1Vec.length) :
    rows.foldlM (feed setup) start = .ok (start ++ rows.map (msm setup.g1Vec)) := by
  induction rows generalizing start with
  | nil => exact congrArg Except.ok (List.append_nil start).symm
  | cons row rows ih =>
    obtain ⟨power, small⟩ := each row List.mem_cons_self
    have first : feed setup start row = .ok (start ++ [msm setup.g1Vec row]) := by
      rw [feed, assertWidth_ok power small, msm_take _ le_rfl]
      rfl
    rw [List.foldlM_cons, first]
    exact (ih _ fun other member => each other (List.mem_cons_of_mem _ member)).trans
      (congrArg Except.ok (by rw [List.append_assoc, List.singleton_append, List.map_cons]))

/-- The rows of a table with fewer variables than the grid, which is one shorter row where it is narrower. -/
theorem rowsOfTable_cases {table : List F} {v : ℕ} (length : table.length = 2 ^ v) (σ : ℕ) :
    σ ≤ v ∧ rowsOfTable (2 ^ σ) table = matrixRows (fun i => table.getD i 0) v σ ∨
      v < σ ∧ rowsOfTable (2 ^ σ) table = [table] := by
  rcases Nat.lt_or_ge v σ with narrow | fits
  · have small : 2 ^ v < 2 ^ σ := Nat.pow_lt_pow_right one_lt_two narrow
    have positive := Nat.two_pow_pos v
    have one : (2 ^ v + 2 ^ σ - 1) / 2 ^ σ = 1 := by
      rw [Nat.div_eq_iff (by omega)]
      omega
    refine .inr ⟨narrow, ?_⟩
    rw [rowsOfTable, length, one, List.range_one, List.map_singleton, Nat.zero_mul, List.drop_zero,
      List.take_of_length_le (by omega)]
  · refine .inl ⟨fits, ?_⟩
    rw [← rowsOfTable_eq length fits, Nat.one_shiftLeft]

/-- A table of the low places of the grid, committed row by row. -/
theorem commitsTable_of_rows {table : List F} {v total : ℕ} (length : table.length = 2 ^ v) (fits : v ≤ total)
    (bases : List M) : CommitsTable bases total ((rowsOfTable (2 ^ balancedSigma total) table).map (msm bases))
      fun place => table.getD place 0 := by
  have row (r : ℕ) (values : List F) (here : ∀ c < 2 ^ balancedSigma total,
      values.getD c 0 = table.getD (r * 2 ^ balancedSigma total + c) 0)
      (short : values.length ≤ 2 ^ balancedSigma total) : msm bases values =
      ∑ c ∈ range (2 ^ balancedSigma total), table.getD (r * 2 ^ balancedSigma total + c) 0 • bases.getD c 0 := by
    rw [msm_eq bases short]
    exact sum_congr rfl fun c member => by rw [here c (mem_range.mp member)]
  have high {v : ℕ} (wide : balancedSigma total ≤ v) (within : v ≤ total) :
      2 ^ (v - balancedSigma total) ≤ 2 ^ (total - balancedSigma total) :=
    Nat.pow_le_pow_right two_pos (Nat.sub_le_sub_right within _)
  -- behind the table everything is zero
  have behind (r : ℕ) (past : 2 ^ v ≤ r * 2 ^ balancedSigma total) :
      (0 : M) = ∑ c ∈ range (2 ^ balancedSigma total),
        table.getD (r * 2 ^ balancedSigma total + c) 0 • bases.getD c 0 := by
    refine (sum_eq_zero fun c _ => ?_).symm
    rw [List.getD_eq_default _ _ (by rw [length]; exact past.trans (Nat.le_add_right _ _)), zero_smul]
  rcases rowsOfTable_cases length (balancedSigma total) with ⟨wide, rows⟩ | ⟨narrow, rows⟩
  · have whole : 2 ^ v = 2 ^ (v - balancedSigma total) * 2 ^ balancedSigma total := by
      rw [← pow_add, Nat.sub_add_cancel wide]
    rw [rows]
    refine ⟨by rw [List.length_map, length_matrixRows]; exact high wide fits, fun r _ => ?_⟩
    rcases Nat.lt_or_ge r (2 ^ (v - balancedSigma total)) with present | past
    · rw [List.getD_eq_getElem _ _ (by rwa [List.length_map, length_matrixRows]), List.getElem_map]
      simp only [matrixRows, List.getElem_map, List.getElem_range]
      exact msm_map_range _ _ _
    · rw [List.getD_eq_default _ _ (by rwa [List.length_map, length_matrixRows])]
      exact behind r (whole ▸ Nat.mul_le_mul_right _ past)
  · rw [rows, List.map_singleton]
    have shorter : 2 ^ v ≤ 2 ^ balancedSigma total := Nat.pow_le_pow_right two_pos narrow.le
    refine ⟨Nat.two_pow_pos _, fun r _ => ?_⟩
    cases r with
    | zero =>
      rw [List.getD_cons_zero]
      exact row 0 table (fun c _ => by rw [Nat.zero_mul, Nat.zero_add]) (by rwa [length])
    | succ r =>
      rw [List.getD_cons_succ, List.getD_nil]
      exact behind (r + 1) (shorter.trans (Nat.le_mul_of_pos_left _ r.succ_pos))

theorem feed_table {table : List F} {v total : ℕ} (length : table.length = 2 ^ v) (fits : v ≤ total)
    (enough : setup.Covers total) :
    (rowsOfTable (2 ^ balancedSigma total) table).foldlM (feed setup) [] =
        .ok ((rowsOfTable (2 ^ balancedSigma total) table).map (msm setup.g1Vec)) ∧
      finishWithHint setup ((rowsOfTable (2 ^ balancedSigma total) table).map (msm setup.g1Vec)) =
        .ok ((rowsOfTable (2 ^ balancedSigma total) table).map (msm setup.g1Vec)) := by
  have finished (hint : List M) {n : ℕ} (count : hint.length = 2 ^ n) (few : n ≤ total - balancedSigma total) :
      finishWithHint setup hint = .ok hint := by
    rw [finishWithHint, validateRowCount, asserted, asserted, count, if_pos ⟨n, rfl⟩,
      if_pos ((Nat.pow_le_pow_right two_pos few).trans enough.rows)]
    rfl
  have small : v < balancedSigma total → 2 ^ v ≤ setup.g1Vec.length := fun narrow =>
    (Nat.pow_le_pow_right two_pos narrow.le).trans enough.columns
  have each : ∀ row ∈ rowsOfTable (2 ^ balancedSigma total) table,
      row.length.isPowerOfTwo ∧ row.length ≤ setup.g1Vec.length := by
    intro row member
    rcases rowsOfTable_cases length (balancedSigma total) with ⟨wide, rows⟩ | ⟨narrow, rows⟩
    · rw [rows] at member
      obtain ⟨r, -, rfl⟩ := List.mem_map.mp member
      rw [List.length_map, List.length_range]
      exact ⟨⟨_, rfl⟩, enough.columns⟩
    · rw [rows] at member
      obtain rfl := List.mem_singleton.mp member
      rw [length]
      exact ⟨⟨_, rfl⟩, small narrow⟩
  refine ⟨feed_rows [] each, ?_⟩
  rcases rowsOfTable_cases length (balancedSigma total) with ⟨wide, rows⟩ | ⟨narrow, rows⟩
  · refine finished _ (n := v - balancedSigma total) ?_ (Nat.sub_le_sub_right fits _)
    rw [rows, List.length_map, length_matrixRows]
  · refine finished _ (n := 0) ?_ (Nat.zero_le _)
    rw [rows]
    rfl

/-! ## Blocks -/

/-- A block is committed as its own balanced matrix, and the rows of the grid are its rows, padded. -/
theorem computeRowCommitments_block [DecidableEq F] {table : List F} {grid : CommitmentGrid}
    {polynomial : JoltCommittedPolynomial} {poly : BlockOpeningPoly F}
    (made : BlockOpeningPoly.new table grid polynomial = .ok poly) (enough : setup.Covers grid.totalVars) :
    ∃ hint, computeRowCommitments setup (sliceView table) = .ok hint ∧
      CommitsTable setup.g1Vec grid.totalVars hint poly.gridTable := by
  obtain ⟨v, placed, sameTable, sameVars⟩ := BlockOpeningPoly.placed_of_new made
  have length : table.length = 2 ^ v := sameTable ▸ placed.length
  obtain ⟨vars, reads⟩ := sliceView_represents length
  have fits : v ≤ grid.totalVars := sameVars ▸ placed.fits
  have narrower : balancedSigma v ≤ balancedSigma grid.totalVars :=
    Nat.div_le_div_right (Nat.succ_le_succ fits)
  have shorter : v - balancedSigma v ≤ grid.totalVars - balancedSigma grid.totalVars := by
    rw [balancedSigma, balancedSigma]
    omega
  have sigma : poly.sigmaTable = balancedSigma v := placed.sigmaTable
  have sigmaGrid : poly.sigmaGrid = balancedSigma grid.totalVars := by
    rw [placed.sigmaGrid, sameVars, balancedSigma]
  have rows := reads.rows (balancedSigma v) (by rw [vars]; exact balancedSigma_le v)
  have columns : 1 <<< balancedSigma v ≤ setup.g1Vec.length := by
    rw [Nat.one_shiftLeft]
    exact (Nat.pow_le_pow_right two_pos narrower).trans enough.columns
  have height : 1 <<< (v - balancedSigma v) ≤ setup.g2Len := by
    rw [Nat.one_shiftLeft]
    exact (Nat.pow_le_pow_right two_pos shorter).trans enough.rows
  have hint : computeRowCommitments setup (sliceView table) =
      .ok ((matrixRows (fun i => table.getD i 0) v (balancedSigma v)).map (msm setup.g1Vec)) := by
    have is : computeRowCommitments setup (sliceView table) =
        if 1 <<< balancedSigma (sliceView table).numVars ≤ setup.g1Vec.length ∧
            1 <<< ((sliceView table).numVars - balancedSigma (sliceView table).numVars) ≤ setup.g2Len then
          .ok (((sliceView table).forEachRow (balancedSigma (sliceView table).numVars)).map fun row =>
            msm ((setup.g1Vec.take (1 <<< balancedSigma (sliceView table).numVars)).take row.length) row)
        else .error (.polynomialTooLarge (sliceView table).numVars
          (Nat.log2 setup.g1Vec.length + Nat.log2 setup.g2Len)) := rfl
    rw [is, vars, if_pos ⟨columns, height⟩, rows, vars]
    refine congrArg Except.ok (List.map_congr_left fun row member => ?_)
    obtain ⟨r, -, rfl⟩ := List.mem_map.mp member
    rw [msm_take _ le_rfl, msm_take _ (by rw [List.length_map, List.length_range, Nat.one_shiftLeft])]
  have gridRow (r c : ℕ) (inside : c < 2 ^ balancedSigma grid.totalVars) :
      poly.gridTable (r * 2 ^ balancedSigma grid.totalVars + c) =
        if c < 2 ^ balancedSigma v then table.getD (r * 2 ^ balancedSigma v + c) 0 else 0 := by
    rw [BlockOpeningPoly.gridTable, sigma, sigmaGrid, sameTable, Nat.mul_comm r, Nat.mul_add_mod, Nat.mod_eq_of_lt inside,
      Nat.mul_add_div (Nat.two_pow_pos _), Nat.div_eq_of_lt inside, Nat.add_zero]
  have whole : 2 ^ v = 2 ^ (v - balancedSigma v) * 2 ^ balancedSigma v := by
    rw [← pow_add, Nat.sub_add_cancel (balancedSigma_le v)]
  refine ⟨_, hint, ?_, fun r inside => ?_⟩
  · rw [List.length_map, length_matrixRows]
    exact Nat.pow_le_pow_right two_pos shorter
  · have row : ∑ c ∈ range (2 ^ balancedSigma v), table.getD (r * 2 ^ balancedSigma v + c) 0 • setup.g1Vec.getD c 0 =
        ∑ c ∈ range (2 ^ balancedSigma grid.totalVars),
          poly.gridTable (r * 2 ^ balancedSigma grid.totalVars + c) • setup.g1Vec.getD c 0 := by
      have wider := Nat.pow_le_pow_right two_pos narrower
      refine sum_columns wider (fun c column => ?_) fun c past column => ?_
      · rw [gridRow r c (column.trans_le wider), if_pos column]
      · rw [gridRow r c column, if_neg (Nat.not_lt.mpr past), zero_smul]
    rw [← row]
    rcases Nat.lt_or_ge r (2 ^ (v - balancedSigma v)) with present | past
    · rw [List.getD_eq_getElem _ _ (by rwa [List.length_map, length_matrixRows]), List.getElem_map]
      simp only [matrixRows, List.getElem_map, List.getElem_range]
      exact msm_map_range _ _ _
    · rw [List.getD_eq_default _ _ (by rwa [List.length_map, length_matrixRows])]
      refine (sum_eq_zero fun c _ => ?_).symm
      have after : 2 ^ v ≤ r * 2 ^ balancedSigma v := whole ▸ Nat.mul_le_mul_right _ past
      rw [List.getD_eq_default _ _ (by rw [length]; exact after.trans (Nat.le_add_right _ _)), zero_smul]

end

end JoltWasm
