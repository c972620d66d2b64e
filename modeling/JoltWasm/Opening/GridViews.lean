import JoltWasm.Opening.LazyFolds
import JoltWasm.Poly.MatrixViews
import JoltWasm.Poly.SplitEqRounds

/-!
# The opening polynomials read their grids

A trace polynomial and a block of the committed program answer from their entries what the dense grid would
answer, whatever the plan of the threads.
-/

namespace JoltWasm

open Finset Lib

section

variable {F : Type} [Field F]

/-! ## Merged loops -/

theorem mergeEvals_scatter (n : ℕ) (first second : List (ℕ × F)) :
    mergeEvals (scatter (List.replicate n 0) first) (scatter (List.replicate n 0) second) =
      scatter (List.replicate n 0) (first ++ second) := by
  rw [mergeEvals, List.drop_of_length_le (by simp), List.append_nil]
  refine List.ext_getElem (by simp) fun i below below' => ?_
  have inside : i < n := by simpa using below'
  rw [List.getElem_zipWith, ← List.getD_eq_getElem _ 0, ← List.getD_eq_getElem _ 0, ← List.getD_eq_getElem _ 0,
    getD_scatter_zero _ _ inside, getD_scatter_zero _ _ inside, getD_scatter_zero _ _ inside, hits_append]

/-- Where an entry goes when its row is folded away. -/
def foldUpdate (σ : ℕ) (left : List F) (entry : ℕ × F) : ℕ × F :=
  (entry.1 % 2 ^ σ, left.getD (entry.1 / 2 ^ σ) 0 * entry.2)

variable {T n σ : ℕ} {entry : ℕ → Option (ℕ × F)} {plan : Plan}

/-- Whatever the plan, the accumulators merge to the left vector times the matrix. -/
theorem scatterFold_eq (covers : plan.Covers T) (fits : σ ≤ n)
    (inside : ∀ e ∈ (List.range T).filterMap entry, e.1 < 2 ^ n) (left : List F) {fill : List ℕ → List F → List F}
    (fills : ∀ range acc, fill range acc = scatter acc ((range.filterMap entry).map (foldUpdate σ left))) :
    scatterFold plan (2 ^ σ) fill = matrixFold (hits ((List.range T).filterMap entry)) n σ left := by
  have whole := @Plan.reduce_eq _ (fun range => fill range (List.replicate (2 ^ σ) 0))
    (List.replicate (2 ^ σ) 0) mergeEvals (by rw [fills]; rfl)
    (fun first second => by
      rw [fills, fills, fills, mergeEvals_scatter, List.filterMap_append, List.map_append]) plan
  rw [scatterFold, whole, fills, covers]
  exact scatter_matrix fits inside left

theorem scatterSum_eq (covers : plan.Covers T) {point : List F}
    (inside : ∀ e ∈ (List.range T).filterMap entry, e.1 < 2 ^ point.length) {sum : List ℕ → F}
    (sums : ∀ range, sum range = ((range.filterMap entry).map fun e => e.2 *
      (TensorEqTable.new point).evaluateIndex e.1).sum) :
    scatterSum plan sum = extension (hits ((List.range T).filterMap entry)) point := by
  have whole := @Plan.reduce_eq _ sum 0 (· + ·) (by rw [sums]; rfl)
    (fun first second => by rw [sums, sums, sums, List.filterMap_append, List.map_append, List.sum_append]) plan
  rw [scatterSum, whole, sums, covers, ← sum_entries inside]
  refine congrArg List.sum (List.map_congr_left fun e member => ?_)
  rw [TensorEqTable.evaluateIndex_eq point (inside e member), EqPolynomial.evals_eq, Option.getD_none,
    EqPolynomial.getD_table _ _ (inside e member), one_mul]

/-! ## Sorted rows -/

omit [Field F] in
/-- A row takes the entries before its end. -/
theorem emitRow_eq (base numCols : ℕ) {entries : List (ℕ × F)} (sorted : entries.Pairwise fun a b => a.1 ≤ b.1)
    (buffer : List F) : emitRow base numCols entries buffer =
      ((entries.filter fun e => e.1 < base + numCols).foldl (fun buffer e => buffer.set (e.1 - base) e.2) buffer,
        entries.filter fun e => base + numCols ≤ e.1) := by
  induction entries generalizing buffer with
  | nil => rfl
  | cons e entries ih =>
    obtain ⟨index, value⟩ := e
    obtain ⟨least, rest⟩ := List.pairwise_cons.mp sorted
    rw [emitRow]
    by_cases later : base + numCols ≤ index
    · -- the first entry of a later row ends the loop, and all others lie behind it
      have none : (((index, value) :: entries).filter fun e => e.1 < base + numCols) = [] := by
        refine List.filter_eq_nil_iff.mpr fun e member => ?_
        rcases List.mem_cons.mp member with rfl | member
        · simpa using later
        · have behind := least e member
          simp only [decide_eq_true_eq]
          omega
      have all : (((index, value) :: entries).filter fun e => base + numCols ≤ e.1) = (index, value) :: entries := by
        refine List.filter_eq_self.mpr fun e member => ?_
        rcases List.mem_cons.mp member with rfl | member
        · exact decide_eq_true later
        · exact decide_eq_true (later.trans (least e member))
      rw [if_pos later, none, all, List.foldl_nil]
    · rw [if_neg later, ih rest, List.filter_cons, if_pos (decide_eq_true (Nat.lt_of_not_le later)), List.foldl_cons,
        List.filter_cons, if_neg (by simpa using later)]

theorem emitRows_eq {entries : List (ℕ × F)} (sorted : entries.Pairwise fun a b => a.1 ≤ b.1) (σ m row : ℕ)
    (start : ∀ e ∈ entries, row * 2 ^ σ ≤ e.1) : emitRows σ m row entries = (List.range m).map fun i =>
      (entries.filter fun e => e.1 / 2 ^ σ = row + i).foldl
        (fun buffer e => buffer.set (e.1 - (row + i) * 2 ^ σ) e.2) (List.replicate (2 ^ σ) 0) := by
  have positive := Nat.two_pow_pos σ
  induction m generalizing row entries with
  | zero => rfl
  | succ m ih =>
    have first : (entries.filter fun e => e.1 < row * 2 ^ σ + 2 ^ σ) = entries.filter fun e => e.1 / 2 ^ σ = row + 0 := by
      refine List.filter_congr fun e member => decide_eq_decide.mpr ?_
      have after := start e member
      rw [Nat.add_zero, Nat.div_eq_iff positive]
      omega
    have later (i : ℕ) : ((entries.filter fun e => row * 2 ^ σ + 2 ^ σ ≤ e.1).filter fun e => e.1 / 2 ^ σ = row + 1 + i) =
        entries.filter fun e => e.1 / 2 ^ σ = row + (i + 1) := by
      rw [List.filter_filter]
      refine List.filter_congr fun e _ => ?_
      rw [← Bool.decide_and, decide_eq_decide, Nat.add_right_comm, Nat.add_assoc row]
      refine ⟨And.left, fun here => ⟨here, ?_⟩⟩
      have whole := Nat.div_add_mod e.1 (2 ^ σ)
      rw [here, Nat.mul_comm, Nat.add_mul, Nat.succ_mul] at whole
      have more := Nat.le_add_left (2 ^ σ) (i * 2 ^ σ)
      omega
    rw [emitRows, Nat.shiftLeft_eq, Nat.one_shiftLeft, List.range_succ_eq_map, List.map_cons, List.map_map]
    simp only [emitRow_eq _ _ sorted]
    rw [first, ih (sorted.filter _) (row + 1) fun e member => by
      have past := of_decide_eq_true (List.mem_filter.mp member).2
      rw [Nat.succ_mul]
      exact past]
    refine congrArg₂ List.cons rfl (List.map_congr_left fun i _ => ?_)
    rw [later, Function.comp_apply, Nat.add_right_comm, Nat.add_assoc row]

/-- The rows are those of the entries. -/
theorem emitSortedRows_eq {entries : List (ℕ × F)} (distinct : (entries.map Prod.fst).Nodup) (n σ : ℕ) :
    emitSortedRows entries n σ = matrixRows (hits entries) n σ := by
  have perm : (entries.insertionSort fun a b => a.1 ≤ b.1).Perm entries := List.perm_insertionSort _ _
  have sorted := List.pairwise_insertionSort (fun a b : ℕ × F => a.1 ≤ b.1) entries
  have same (place : ℕ) : hits (entries.insertionSort fun a b => a.1 ≤ b.1) place = hits entries place :=
    (perm.map _).sum_eq
  rw [emitSortedRows, emitRows_eq sorted σ _ 0 fun e _ => by rw [Nat.zero_mul]; exact Nat.zero_le _, Nat.one_shiftLeft,
    matrixRows]
  refine List.map_congr_left fun row _ => ?_
  rw [Nat.zero_add, foldl_set_row ((perm.map _).nodup_iff.mpr distinct)]
  exact List.map_congr_left fun column _ => same _

/-! ## Loops over the entries -/

/-- Each entry of a range adds its update. -/
theorem foldl_updates (entry : ℕ → Option (ℕ × F)) (update : ℕ × F → ℕ × F) (range : List ℕ) (acc : List F) :
    range.foldl (fun acc i => match entry i with
      | some e => acc.modify (update e).1 (· + (update e).2)
      | none => acc) acc = scatter acc ((range.filterMap entry).map update) := by
  induction range generalizing acc with
  | nil => rfl
  | cons i range ih =>
    rw [List.foldl_cons, ih]
    cases is : entry i with
    | none => rw [List.filterMap_cons_none is]
    | some e => rw [List.filterMap_cons_some is, List.map_cons, scatter, scatter, List.foldl_cons]

/-- Each entry of a range adds its value, weighted. -/
theorem foldl_values (entry : ℕ → Option (ℕ × F)) (weight : ℕ → F) (range : List ℕ) (acc : F) :
    range.foldl (fun acc i => match entry i with
      | some (index, value) => acc + value * weight index
      | none => acc) acc = acc + ((range.filterMap entry).map fun e => e.2 * weight e.1).sum := by
  induction range generalizing acc with
  | nil => exact (add_zero acc).symm
  | cons i range ih =>
    rw [List.foldl_cons, ih]
    cases is : entry i with
    | none => rw [List.filterMap_cons_none is]
    | some e => rw [List.filterMap_cons_some is, List.map_cons, List.sum_cons, add_assoc]

/-! ## Trace polynomials -/

namespace TraceOpeningPoly

/-- What the preparation of the opening promises of a trace polynomial. -/
structure Placed (poly : TraceOpeningPoly) (grid : CommitmentGrid) : Prop where
  placement : poly.placement = .new grid
  fits : grid.logT + grid.logKChunk ≤ grid.totalVars
  cycles : poly.columns.cycles = 2 ^ grid.logT
  narrow : ∀ cycle address, poly.kind.hotAddress (poly.columns.witnessRow cycle) = some address →
    address < 2 ^ grid.logKChunk

/-- The entry of the committed matrix at a cycle and an address; a dense column has its values at address zero. -/
def matrixEntry (poly : TraceOpeningPoly) (cycle address : ℕ) : F :=
  let row := poly.columns.witnessRow cycle
  if poly.kind.isOneHot then if poly.kind.hotAddress row = some address then 1 else 0
  else if address = 0 then (poly.kind.increment row : F) else 0

/-- The dense table: the matrix, embedded in the grid by the order of the trace. -/
def table (poly : TraceOpeningPoly) (grid : CommitmentGrid) (place : ℕ) : F :=
  match grid.order with
  | .cycleMajor => poly.matrixEntry (place % 2 ^ grid.logT) (place / 2 ^ grid.logT)
  | .addressMajor =>
      if place % grid.cycleStride % grid.oneHotStride = 0 then
        poly.matrixEntry (place / grid.cycleStride) (place % grid.cycleStride / grid.oneHotStride)
      else 0

/-- The cycle that a place of the grid belongs to. -/
def cycleOf (grid : CommitmentGrid) (place : ℕ) : ℕ :=
  match grid.order with
  | .cycleMajor => place % 2 ^ grid.logT
  | .addressMajor => place / grid.cycleStride

variable {poly : TraceOpeningPoly} {grid : CommitmentGrid}

/-- A cycle has no entry and a zero row in the matrix, or it has the only entry of its row. -/
theorem entry_spec (placed : poly.Placed grid) (cycle : ℕ) :
    (poly.entry F cycle = none ∧ ∀ address, (poly.matrixEntry cycle address : F) = 0) ∨
      ∃ hot value, hot < 2 ^ grid.logKChunk ∧ poly.entry F cycle = some (poly.placement.index cycle hot, value) ∧
        ∀ address, poly.matrixEntry cycle address = if hot = address then value else 0 := by
  simp only [entry, matrixEntry]
  cases oneHot : poly.kind.isOneHot with
  | true =>
    cases hot : poly.kind.hotAddress (poly.columns.witnessRow cycle) with
    | none => exact .inl ⟨rfl, fun address => by rw [if_pos rfl, if_neg (by simp)]⟩
    | some hot' =>
      refine .inr ⟨hot', 1, placed.narrow cycle hot' hot, rfl, fun address => ?_⟩
      rw [if_pos rfl]
      exact if_congr Option.some_inj rfl rfl
  | false =>
    by_cases zero : poly.kind.increment (poly.columns.witnessRow cycle) = 0
    · exact .inl ⟨by rw [if_neg (by decide), if_pos zero], fun address => by
        rw [if_neg (by decide), zero, Int.cast_zero, ite_self]⟩
    · refine .inr ⟨0, _, Nat.two_pow_pos _, by rw [if_neg (by decide), if_neg zero], fun address => ?_⟩
      rw [if_neg (by decide)]
      exact if_congr eq_comm rfl rfl

/-- The strides of the address-major grid. -/
theorem strides (fits : grid.logT + grid.logKChunk ≤ grid.totalVars) :
    grid.cycleStride = 2 ^ grid.logKChunk * grid.oneHotStride ∧ 2 ^ grid.totalVars = 2 ^ grid.logT * grid.cycleStride ∧
      0 < grid.oneHotStride ∧ 0 < grid.cycleStride := by
  rw [CommitmentGrid.cycleStride, CommitmentGrid.oneHotStride, Nat.one_shiftLeft, Nat.one_shiftLeft, ← pow_add, ← pow_add]
  exact ⟨by congr 1; omega, by congr 1; omega, Nat.two_pow_pos _, Nat.two_pow_pos _⟩

/-- A cycle and an address below their bounds are placed inside, at a place that tells the cycle. -/
theorem index_spec (placed : poly.Placed grid) {cycle address : ℕ} (inside : cycle < 2 ^ grid.logT)
    (narrow : address < 2 ^ grid.logKChunk) : poly.placement.index cycle address < 2 ^ grid.totalVars ∧
      cycleOf grid (poly.placement.index cycle address) = cycle := by
  obtain ⟨cycleStride, whole, some, -⟩ := strides placed.fits
  rw [placed.placement, TracePlacement.new, cycleOf]
  cases grid.order with
  | cycleMajor =>
    simp only [TracePlacement.index, Nat.mul_one, Nat.one_shiftLeft]
    constructor
    · calc cycle + address * 2 ^ grid.logT < 2 ^ grid.logT + address * 2 ^ grid.logT := by omega
        _ = (address + 1) * 2 ^ grid.logT := by rw [Nat.succ_mul, Nat.add_comm]
        _ ≤ 2 ^ grid.logKChunk * 2 ^ grid.logT := Nat.mul_le_mul_right _ narrow
        _ = 2 ^ (grid.logT + grid.logKChunk) := by rw [← pow_add, Nat.add_comm]
        _ ≤ 2 ^ grid.totalVars := Nat.pow_le_pow_right two_pos placed.fits
    · rw [Nat.add_mul_mod_self_right, Nat.mod_eq_of_lt inside]
  | addressMajor =>
    simp only [TracePlacement.index]
    have block : address * grid.oneHotStride < grid.cycleStride := by
      rw [cycleStride]
      exact Nat.mul_lt_mul_of_pos_right narrow some
    constructor
    · calc cycle * grid.cycleStride + address * grid.oneHotStride < cycle * grid.cycleStride + grid.cycleStride := by omega
        _ = (cycle + 1) * grid.cycleStride := (Nat.succ_mul _ _).symm
        _ ≤ 2 ^ grid.logT * grid.cycleStride := Nat.mul_le_mul_right _ inside
        _ = 2 ^ grid.totalVars := whole.symm
    · rw [Nat.mul_comm, Nat.mul_add_div (by omega), Nat.div_eq_of_lt block, Nat.add_zero]

/-- The entries are those of the table. -/
theorem hits_entries (placed : poly.Placed grid) {place : ℕ} (below : place < 2 ^ grid.totalVars) :
    hits (poly.entries F) place = poly.table grid place := by
  obtain ⟨cycleStride, whole, some, positive⟩ := strides placed.fits
  have tells : ∀ cycle < poly.columns.cycles, ∀ e : ℕ × F, poly.entry F cycle = Option.some e →
      cycleOf grid e.1 = cycle := by
    intro cycle inside e is
    rw [placed.cycles] at inside
    rcases entry_spec (F := F) placed cycle with ⟨none, -⟩ | ⟨hot, value, narrow, entry, -⟩
    · rw [none] at is
      cases is
    · rw [entry] at is
      obtain rfl := Option.some.inj is
      exact (index_spec placed inside narrow).2
  have cycleInside : cycleOf grid place < poly.columns.cycles := by
    rw [placed.cycles, cycleOf]
    cases grid.order with
    | cycleMajor => exact Nat.mod_lt _ (Nat.two_pow_pos _)
    | addressMajor =>
      rw [whole] at below
      exact (Nat.div_lt_iff_lt_mul positive).mpr below
  rw [entries, hits_range tells, if_pos cycleInside]
  -- the only entry of the cycle is at the place, or the place is another one of the cycle's
  rcases entry_spec (F := F) placed (cycleOf grid place) with ⟨none, zero⟩ | ⟨hot, value, narrow, entry, row⟩
  · rw [none, Option.map_none, Option.getD_none, table]
    cases order : grid.order with
    | cycleMajor =>
      simp only [cycleOf, order] at zero
      exact (zero _).symm
    | addressMajor =>
      simp only [cycleOf, order] at zero
      rw [zero, ite_self]
  · rw [entry, Option.map_some, Option.getD_some, placed.placement, TracePlacement.new, table]
    cases order : grid.order with
    | cycleMajor =>
      simp only [cycleOf, order, TracePlacement.index, Nat.mul_one, Nat.one_shiftLeft] at row ⊢
      rw [row]
      have split := Nat.mod_add_div place (2 ^ grid.logT)
      refine if_congr ⟨fun here => ?_, fun here => ?_⟩ rfl rfl
      · refine Nat.eq_of_mul_eq_mul_right (Nat.two_pow_pos grid.logT) ?_
        rw [Nat.mul_comm (place / _)]
        omega
      · rw [here, Nat.mul_comm (place / _)]
        exact split
    | addressMajor =>
      simp only [cycleOf, order, TracePlacement.index] at row ⊢
      rw [row]
      have split := Nat.div_add_mod place grid.cycleStride
      have splitRest := Nat.div_add_mod (place % grid.cycleStride) grid.oneHotStride
      rw [Nat.mul_comm] at split
      rw [← ite_and]
      refine if_congr ⟨fun here => ?_, fun ⟨aligned, here⟩ => ?_⟩ rfl rfl
      · have rest : place % grid.cycleStride = hot * grid.oneHotStride := by omega
        rw [rest]
        exact ⟨Nat.mul_mod_left _ _, (Nat.mul_div_cancel _ some).symm⟩
      · rw [aligned, Nat.add_zero, ← here, Nat.mul_comm] at splitRest
        omega

theorem entry_one_hot {cycle : ℕ} {e : ℕ × F} (oneHot : poly.kind.isOneHot = true) (is : poly.entry F cycle = some e) :
    e.2 = 1 := by
  rw [entry, if_pos oneHot] at is
  obtain ⟨address, -, rfl⟩ := Option.map_eq_some_iff.mp is
  rfl

theorem entries_inside (placed : poly.Placed grid) {e : ℕ × F} (member : e ∈ poly.entries F) :
    e.1 < 2 ^ grid.totalVars := by
  obtain ⟨cycle, inside, is⟩ := List.mem_filterMap.mp member
  rw [List.mem_range, placed.cycles] at inside
  rcases entry_spec (F := F) placed cycle with ⟨none, -⟩ | ⟨hot, value, narrow, entry, -⟩
  · rw [none] at is
    cases is
  · rw [entry] at is
    obtain rfl := Option.some.inj is
    exact (index_spec placed inside narrow).1

theorem entries_distinct (placed : poly.Placed grid) : ((poly.entries F).map Prod.fst).Nodup := by
  refine nodup_range (cycleOf grid) fun cycle inside e is => ?_
  rw [placed.cycles] at inside
  rcases entry_spec (F := F) placed cycle with ⟨none, -⟩ | ⟨hot, value, narrow, entry, -⟩
  · rw [none] at is
    cases is
  · rw [entry] at is
    obtain rfl := Option.some.inj is
    exact (index_spec placed inside narrow).2

/-- A placed trace polynomial reads its embedded matrix. -/
theorem represents (placed : poly.Placed grid) {plan : Plan} (covers : plan.Covers poly.columns.cycles) :
    Represents (poly.view plan) (poly.table (F := F) grid) := by
  have vars : poly.placement.totalVars = grid.totalVars := by
    rw [placed.placement, TracePlacement.new]
    cases grid.order <;> rfl
  have inside : ∀ e ∈ poly.entries F, e.1 < 2 ^ poly.placement.totalVars := fun e member => by
    rw [vars]
    exact entries_inside placed member
  have read {place : ℕ} (below : place < 2 ^ poly.placement.totalVars) :
      hits (poly.entries F) place = poly.table grid place := hits_entries placed (by rwa [vars] at below)
  refine ⟨fun σ fits => ?_, fun σ fits left _ => ?_, fun point arity => ?_, fun _ is => by cases is⟩
  · exact (emitSortedRows_eq (entries_distinct placed) _ σ).trans (matrixRows_congr fits fun place below => read below)
  · have fills (range : List ℕ) (acc : List F) : (range.foldl (fun acc cycle => match poly.entry F cycle with
        | some (index, value) =>
            if poly.kind.isOneHot then acc.modify (index &&& (1 <<< σ - 1)) (· + left.getD (index >>> σ) 0)
            else acc.modify (index &&& (1 <<< σ - 1)) (· + left.getD (index >>> σ) 0 * value)
        | none => acc) acc) = scatter acc ((range.filterMap (poly.entry F)).map (foldUpdate σ left)) := by
      rw [← foldl_updates]
      refine List.foldl_ext _ _ _ fun acc cycle _ => ?_
      cases is : poly.entry F cycle with
      | none => rfl
      | some e =>
        simp only [foldUpdate, Nat.one_shiftLeft, Nat.and_two_pow_sub_one_eq_mod, Nat.shiftRight_eq_div_pow]
        split_ifs with oneHot
        · rw [entry_one_hot oneHot is, mul_one]
        · rfl
    have fold := scatterFold_eq covers fits inside left fills
    rw [← Nat.one_shiftLeft] at fold
    exact fold.trans (matrixFold_congr fits fun place below => read below)
  · have sums (range : List ℕ) : (range.foldl (fun acc cycle => match poly.entry F cycle with
        | some (index, value) => acc + value * (TensorEqTable.new point).evaluateIndex index
        | none => acc) 0) = ((range.filterMap (poly.entry F)).map fun e => e.2 *
          (TensorEqTable.new point).evaluateIndex e.1).sum := by
      rw [foldl_values, zero_add]
    exact (scatterSum_eq covers (by rw [arity]; exact inside) sums).trans
      (extension_congr fun place below => read (by rwa [arity] at below))

end TraceOpeningPoly

/-! ## Blocks -/

namespace BlockOpeningPoly

/-- What the constructor promises: a table that is its own balanced matrix and fits in the grid. -/
structure Placed (poly : BlockOpeningPoly F) (tableVars : ℕ) : Prop where
  length : poly.table.length = 2 ^ tableVars
  sigmaTable : poly.sigmaTable = (tableVars + 1) / 2
  sigmaGrid : poly.sigmaGrid = (poly.totalVars + 1) / 2
  fits : tableVars ≤ poly.totalVars

omit [Field F] in
theorem placed_of_new {table : List F} {grid : CommitmentGrid} {polynomial : JoltCommittedPolynomial}
    {poly : BlockOpeningPoly F} (made : new table grid polynomial = .ok poly) :
    ∃ tableVars, poly.Placed tableVars ∧ poly.table = table ∧ poly.totalVars = grid.totalVars := by
  rw [new] at made
  split_ifs at made with power large
  obtain rfl := Except.ok.inj made
  obtain ⟨tableVars, length⟩ := power
  rw [length] at large ⊢
  have log : Nat.log2 (2 ^ tableVars) = tableVars := Nat.log2_two_pow
  rw [Nat.one_shiftLeft, Nat.not_lt] at large
  exact ⟨tableVars, ⟨length, by rw [log], rfl, (Nat.pow_le_pow_iff_right one_lt_two).mp large⟩, rfl, rfl⟩

/-- The dense table: the block in the corner of the grid, and zeros around it. -/
def gridTable (poly : BlockOpeningPoly F) (place : ℕ) : F :=
  if place % 2 ^ poly.sigmaGrid < 2 ^ poly.sigmaTable then
    poly.table.getD (place / 2 ^ poly.sigmaGrid * 2 ^ poly.sigmaTable + place % 2 ^ poly.sigmaGrid) 0
  else 0

/-- The index in the table that a place of the grid would have. -/
def indexOf (poly : BlockOpeningPoly F) (place : ℕ) : ℕ :=
  place / 2 ^ poly.sigmaGrid * 2 ^ poly.sigmaTable + place % 2 ^ poly.sigmaGrid

variable {poly : BlockOpeningPoly F} {tableVars : ℕ}

omit [Field F] in
theorem index_eq (placed : poly.Placed tableVars) (i : ℕ) :
    poly.index i = i / 2 ^ poly.sigmaTable * 2 ^ poly.sigmaGrid + i % 2 ^ poly.sigmaTable ∧
      i % 2 ^ poly.sigmaTable < 2 ^ poly.sigmaGrid := by
  have smaller : 2 ^ poly.sigmaTable ≤ 2 ^ poly.sigmaGrid := by
    refine Nat.pow_le_pow_right two_pos ?_
    rw [placed.sigmaTable, placed.sigmaGrid]
    exact Nat.div_le_div_right (Nat.succ_le_succ placed.fits)
  have small : i % 2 ^ poly.sigmaTable < 2 ^ poly.sigmaGrid := (Nat.mod_lt _ (Nat.two_pow_pos _)).trans_le smaller
  refine ⟨?_, small⟩
  rw [index, Nat.one_shiftLeft, Nat.and_two_pow_sub_one_eq_mod, ← Nat.shiftLeft_add_eq_or_of_lt small,
    Nat.shiftRight_eq_div_pow, Nat.shiftLeft_eq]

omit [Field F] in
theorem index_lt (placed : poly.Placed tableVars) {i : ℕ} (inside : i < poly.table.length) :
    poly.index i < 2 ^ poly.totalVars := by
  obtain ⟨index, small⟩ := index_eq placed i
  rw [index]
  refine place_lt (by rw [placed.sigmaGrid]; omega) ?_ small
  have row : i / 2 ^ poly.sigmaTable < 2 ^ (tableVars - poly.sigmaTable) := by
    rw [Nat.div_lt_iff_lt_mul (Nat.two_pow_pos _), ← pow_add, Nat.sub_add_cancel (by rw [placed.sigmaTable]; omega),
      ← placed.length]
    exact inside
  refine row.trans_le (Nat.pow_le_pow_right two_pos ?_)
  have fits := placed.fits
  rw [placed.sigmaTable, placed.sigmaGrid]
  omega

omit [Field F] in
theorem indexOf_index (placed : poly.Placed tableVars) (i : ℕ) : poly.indexOf (poly.index i) = i := by
  obtain ⟨index, small⟩ := index_eq placed i
  rw [indexOf, index, Nat.mul_comm (i / 2 ^ poly.sigmaTable), Nat.mul_add_div (Nat.two_pow_pos _),
    Nat.div_eq_of_lt small, Nat.mul_add_mod, Nat.mod_eq_of_lt small, Nat.add_zero]
  exact Nat.div_add_mod' i _

/-- The entries of the table, with the zeros or without them, are those of the grid. -/
theorem hits_table (placed : poly.Placed tableVars) {entry : ℕ → Option (ℕ × F)}
    (entries : ∀ i, entry i = some (poly.index i, poly.table.getD i 0) ∨ entry i = none ∧ poly.table.getD i 0 = 0)
    (place : ℕ) : hits ((List.range poly.table.length).filterMap entry) place = poly.gridTable place := by
  have tells : ∀ i < poly.table.length, ∀ e, entry i = some e → poly.indexOf e.1 = i := by
    intro i _ e is
    rcases entries i with present | ⟨none, -⟩
    · rw [present] at is
      obtain rfl := Option.some.inj is
      exact indexOf_index placed i
    · rw [none] at is
      cases is
  have value : ((entry (poly.indexOf place)).map fun e => if e.1 = place then e.2 else 0).getD 0 =
      if poly.index (poly.indexOf place) = place then poly.table.getD (poly.indexOf place) 0 else 0 := by
    rcases entries (poly.indexOf place) with present | ⟨none, zero⟩
    · rw [present, Option.map_some, Option.getD_some]
    · rw [none, zero, ite_self, Option.map_none, Option.getD_none]
  have corner : poly.index (poly.indexOf place) = place ↔ place % 2 ^ poly.sigmaGrid < 2 ^ poly.sigmaTable := by
    obtain ⟨index, small⟩ := index_eq placed (poly.indexOf place)
    have whole := Nat.div_add_mod place (2 ^ poly.sigmaGrid)
    constructor
    · intro here
      rw [index] at here
      rw [← here, Nat.mul_comm, Nat.mul_add_mod, Nat.mod_eq_of_lt small]
      exact Nat.mod_lt _ (Nat.two_pow_pos _)
    · intro column
      rw [index, indexOf, Nat.mul_comm (place / _), Nat.mul_add_div (Nat.two_pow_pos _), Nat.div_eq_of_lt column,
        Nat.mul_add_mod, Nat.mod_eq_of_lt column, Nat.add_zero, Nat.mul_comm]
      exact whole
  rw [hits_range tells, value, gridTable]
  simp only [corner]
  split_ifs with inside column column
  · rfl
  · rfl
  · exact (List.getD_eq_default _ _ (Nat.not_lt.mp inside)).symm
  · rfl

variable [DecidableEq F]

theorem entry_present (i : ℕ) :
    poly.entry i = some (poly.index i, poly.table.getD i 0) ∨ poly.entry i = none ∧ poly.table.getD i 0 = 0 := by
  rw [entry]
  by_cases zero : poly.table.getD i 0 = 0
  · exact .inr ⟨if_pos zero, zero⟩
  · exact .inl (if_neg zero)

/-- A block reads the grid that it is the corner of. -/
theorem represents (placed : poly.Placed tableVars) {plan : Plan} (covers : plan.Covers poly.table.length) :
    Represents (poly.view plan) poly.gridTable := by
  have inside : ∀ e ∈ (List.range poly.table.length).filterMap poly.entry, e.1 < 2 ^ poly.totalVars := by
    intro e member
    obtain ⟨i, below, is⟩ := List.mem_filterMap.mp member
    rcases poly.entry_present i with present | ⟨none, -⟩
    · rw [present] at is
      obtain rfl := Option.some.inj is
      exact index_lt placed (List.mem_range.mp below)
    · rw [none] at is
      cases is
  have read := hits_table placed poly.entry_present
  refine ⟨fun σ fits => ?_, fun σ fits left _ => ?_, fun point arity => ?_, fun _ is => by cases is⟩
  · -- the rows take all entries, the zeros too
    have all : ((List.range poly.table.length).map fun i => (poly.index i, poly.table.getD i 0)) =
        (List.range poly.table.length).filterMap fun i => some (poly.index i, poly.table.getD i 0) := by
      rw [← List.filterMap_eq_map]
      rfl
    have distinct := @nodup_range F _ (fun i => some (poly.index i, poly.table.getD i 0)) poly.indexOf
      fun (i : ℕ) (_ : i < poly.table.length) e is => by
        obtain rfl := Option.some.inj is
        exact indexOf_index placed i
    change emitSortedRows _ poly.totalVars σ = _
    rw [all]
    exact (emitSortedRows_eq distinct _ σ).trans
      (matrixRows_congr fits fun place _ => hits_table placed (fun i => .inl rfl) place)
  · have fills (range : List ℕ) (acc : List F) : (range.foldl (fun acc i => match poly.entry i with
        | some (index, value) => acc.modify (index &&& (1 <<< σ - 1)) (· + left.getD (index >>> σ) 0 * value)
        | none => acc) acc) = scatter acc ((range.filterMap poly.entry).map (foldUpdate σ left)) := by
      rw [← foldl_updates]
      refine List.foldl_ext _ _ _ fun acc i _ => ?_
      cases poly.entry i with
      | none => rfl
      | some e =>
        simp only [foldUpdate, Nat.one_shiftLeft, Nat.and_two_pow_sub_one_eq_mod, Nat.shiftRight_eq_div_pow]
    have fold := scatterFold_eq covers fits inside left fills
    rw [← Nat.one_shiftLeft] at fold
    exact fold.trans (matrixFold_congr fits fun place _ => read place)
  · have sums (range : List ℕ) : (range.foldl (fun acc i => match poly.entry i with
        | some (index, value) => acc + value * (TensorEqTable.new point).evaluateIndex index
        | none => acc) 0) = ((range.filterMap poly.entry).map fun e => e.2 *
          (TensorEqTable.new point).evaluateIndex e.1).sum := by
      rw [foldl_values, zero_add]
    exact (scatterSum_eq covers (by rw [arity]; exact inside) sums).trans (extension_congr fun place _ => read place)

end BlockOpeningPoly

end

end JoltWasm
