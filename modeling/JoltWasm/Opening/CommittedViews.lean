import JoltWasm.Opening.GridViews

/-!
# The committed polynomials

Every representation of a committed polynomial, and every linear combination of them, answers as its dense
table does.
-/

namespace JoltWasm

open Finset Lib

section

variable {F : Type} [Field F] [DecidableEq F]

/-- A representation of a committed polynomial, with its dense table.  The loops of the opening polynomials
are split by any plan. -/
inductive Committed : MultilinearPoly F → (ℕ → F) → Prop
  | dense {p : DensePolynomial F} (length : p.evals.length = 2 ^ p.numVars) :
      Committed p.view fun i => p.evals.getD i 0
  | slice {values : List F} {n : ℕ} (length : values.length = 2 ^ n) :
      Committed (sliceView values) fun i => values.getD i 0
  | oneHot (p : OneHotPolynomial) : Committed p.view p.table
  | trace {poly : TraceOpeningPoly} {grid : CommitmentGrid} (placed : poly.Placed grid) {plan : Plan}
      (covers : plan.Covers poly.columns.cycles) : Committed (poly.view plan) (poly.table grid)
  | block {table : List F} {grid : CommitmentGrid} {polynomial : JoltCommittedPolynomial} {poly : BlockOpeningPoly F}
      (made : BlockOpeningPoly.new table grid polynomial = .ok poly) {plan : Plan}
      (covers : plan.Covers poly.table.length) : Committed (poly.view plan) poly.gridTable
  | rlc {sources : List (MultilinearPoly F × (ℕ → F))} {scalars : List F} {rlc : RlcSource F}
      (each : ∀ source ∈ sources, Committed source.1 source.2) (some_ : sources ≠ [])
      (made : RlcSource.new (sources.map Prod.fst) scalars = some rlc) : Committed rlc.view (combination sources scalars)

theorem Committed.represents {poly : MultilinearPoly F} {table : ℕ → F} (committed : Committed poly table) :
    Represents poly table := by
  induction committed with
  | dense length => exact DensePolynomial.represents length
  | slice length => exact (sliceView_represents length).2
  | oneHot p => exact p.represents
  | trace placed covers => exact TraceOpeningPoly.represents placed covers
  | block made covers =>
    obtain ⟨tableVars, placed, -⟩ := BlockOpeningPoly.placed_of_new made
    exact BlockOpeningPoly.represents placed covers
  | rlc each some_ made reads => exact RlcSource.represents some_ made reads

/-! ## The prepared polynomials -/

/-- A chunk is narrower than its mask says. -/
theorem RaChunkSelector.chunk_lt {index chunks chunkBits : ℕ} {selector : RaChunkSelector}
    (made : RaChunkSelector.new index chunks chunkBits = .ok selector) (value : ℕ) : selector.chunk value < 2 ^ chunkBits := by
  rw [RaChunkSelector.new] at made
  split_ifs at made
  obtain rfl := Except.ok.inj made
  rw [chunk, Nat.one_shiftLeft, Nat.and_two_pow_sub_one_eq_mod]
  exact (Nat.mod_le _ _).trans_lt (Nat.mod_lt _ (Nat.two_pow_pos _))

/-- The hot addresses of a resolved column. -/
theorem columnKind_narrow {ids : List JoltCommittedPolynomial} {grid : CommitmentGrid} {id : JoltCommittedPolynomial}
    {kind : ColumnKind} (resolved : columnKind ids grid id = .ok kind) (row : CommittedColumnsWitness) {address : ℕ}
    (hot : kind.hotAddress row = some address) : address < 2 ^ grid.logKChunk := by
  cases id with
  | rdInc | ramInc =>
    obtain rfl := Except.ok.inj resolved
    cases hot
  | instructionRa index | bytecodeRa index =>
    obtain ⟨selector, made, is⟩ := except_bind_eq_ok.mp resolved
    obtain rfl := Except.ok.inj is
    obtain rfl := Option.some.inj hot
    exact RaChunkSelector.chunk_lt made _
  | ramRa index =>
    obtain ⟨selector, made, is⟩ := except_bind_eq_ok.mp resolved
    obtain rfl := Except.ok.inj is
    obtain ⟨value, -, rfl⟩ := Option.map_eq_some_iff.mp hot
    exact RaChunkSelector.chunk_lt made _
  | bytecodeChunk index | programImageInit => cases resolved

end

/-! ## The matrix view -/

/-- For every representation: the rows, one after the other, are the dense table; the folds are the left
vector times the matrix, as the default computes them from the rows; the value at a point is that of the
table's extension, and the columns of the fold by the weights of the high coordinates, weighted by the low
ones. -/
theorem committed_matrixView {F : Type} [Field F] [DecidableEq F] {poly : MultilinearPoly F} {table : ℕ → F}
    (committed : Committed poly table) {σ : ℕ} (fits : σ ≤ poly.numVars) :
    (poly.forEachRow σ).flatten = (List.range (2 ^ poly.numVars)).map table ∧
      (∀ row ∈ poly.forEachRow σ, row.length = 2 ^ σ) ∧
      (∀ left : List F, left.length = 2 ^ (poly.numVars - σ) →
        poly.foldRows left σ = matrixFold table poly.numVars σ left ∧
          poly.defaultFoldRows left σ = poly.foldRows left σ) ∧
      (∀ high low : List F, high.length = poly.numVars - σ → low.length = σ →
        poly.evaluate (high ++ low) = extension table (high ++ low) ∧
          (List.zipWith (· * ·) (poly.foldRows (EqPolynomial.evaluations high) σ) (EqPolynomial.evaluations low)).sum =
            poly.evaluate (high ++ low)) ∧
      poly.toDense = (List.range (2 ^ poly.numVars)).map table := by
  have reads := committed.represents
  refine ⟨?_, fun row member => ?_, fun left length => ⟨reads.fold σ fits left length, ?_⟩,
    fun high low highLength lowLength => ?_, ?_⟩
  · rw [reads.rows σ fits, flatten_matrixRows table fits]
  · rw [reads.rows σ fits] at member
    obtain ⟨r, -, rfl⟩ := List.mem_map.mp member
    rw [List.length_map, List.length_range]
  · rw [MultilinearPoly.defaultFoldRows, reads.rows σ fits, foldRowsOf_matrixRows, reads.fold σ fits left length]
  · have arity : (high ++ low).length = poly.numVars := by
      rw [List.length_append, highLength, lowLength, Nat.sub_add_cancel fits]
    have weights (point : List F) :
        EqPolynomial.evaluations point = (List.range (2 ^ point.length)).map (eqWeight point) := by
      rw [EqPolynomial.evaluations_eq, EqPolynomial.table]
      exact List.map_congr_left fun k _ => one_mul _
    have size : (EqPolynomial.evaluations high).length = 2 ^ (poly.numVars - σ) := by
      rw [weights, List.length_map, List.length_range, highLength]
    rw [List.length_append] at arity
    refine ⟨reads.value _ (by rw [List.length_append, arity]), ?_⟩
    rw [reads.value _ (by rw [List.length_append, arity]), reads.fold σ fits _ size, ← arity, ← lowLength]
    exact extension_eq_fold table (weights high) (weights low)
  · cases dense : poly.denseEvaluations with
    | some evaluations =>
      rw [MultilinearPoly.toDense, dense]
      exact reads.dense evaluations dense
    | none =>
      rw [MultilinearPoly.toDense, dense]
      change (poly.forEachRow poly.numVars).flatten = _
      rw [reads.rows _ le_rfl, flatten_matrixRows table le_rfl]

/-- A combination of nothing has no variables, so that its table has one entry, but no rows. -/
theorem committed_matrixView_nothing : ¬ ∀ (sources : List (MultilinearPoly ℚ × (ℕ → ℚ))) (scalars : List ℚ)
    (rlc : RlcSource ℚ), (∀ source ∈ sources, Committed source.1 source.2) →
      RlcSource.new (sources.map Prod.fst) scalars = some rlc →
        (rlc.view.forEachRow 0).flatten = (List.range (2 ^ rlc.view.numVars)).map (combination sources scalars) := by
  intro always
  have rows := congrArg List.length (always [] [] ⟨[], [], 0⟩ (fun _ member => absurd member List.not_mem_nil) rfl)
  rw [List.length_map, List.length_range] at rows
  exact absurd rows (by decide)

/-- Two rows of two columns; the first row is hot at column one. -/
def hotOnce : OneHotPolynomial :=
  ⟨2, [some 1, none], 2, .columnMajor, by decide, List.forall_mem_singleton.mpr Nat.one_lt_two, rfl⟩

def mixedSources : List (MultilinearPoly ℚ × (ℕ → ℚ)) :=
  [(sliceView [1, 2, 3, 4], fun i => [1, 2, 3, 4].getD i 0), (hotOnce.view, hotOnce.table)]

/-- Twice a slice and five times a one-hot polynomial, as a matrix with two columns. -/
theorem committed_matrixView_two :
    ((⟨mixedSources.map Prod.fst, [2, 5], 2⟩ : RlcSource ℚ).view.forEachRow 1).flatten =
      (List.range 4).map (combination mixedSources [2, 5]) := by
  have committed : ∀ source ∈ mixedSources, Committed source.1 source.2 := by
    intro source member
    rcases List.mem_cons.mp member with rfl | member
    · exact .slice (n := 2) rfl
    · obtain rfl := List.mem_singleton.mp member
      exact .oneHot hotOnce
  have made : RlcSource.new (mixedSources.map Prod.fst) [2, 5] = some ⟨mixedSources.map Prod.fst, [2, 5], 2⟩ := rfl
  have fits : 1 ≤ (⟨mixedSources.map Prod.fst, [2, 5], 2⟩ : RlcSource ℚ).view.numVars := one_le_two
  exact (committed_matrixView (.rlc committed (List.cons_ne_nil _ _) made) fits).1

end JoltWasm
