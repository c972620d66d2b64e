import Mathlib.Algebra.Module.Defs
import JoltWasm.Opening.LazyFolds

/-!
# The row commitments of the committed polynomials

A row commitment is a linear map of the row.  The commit pass feeds rows in the order of the trace where the
rows of the grid are runs of cycles, and rows of a table otherwise; the optimized pass takes several windows
of cycles at once.
-/

namespace JoltWasm

open Lib

/-- How a commit ends without a result: an error of the kernel or of the scheme, or an assertion. -/
inductive CommitStop where
  | kernel (error : OpeningError)
  | polynomialTooLarge (polySize setupMax : ℕ)
  | panicked
  deriving DecidableEq

/-- `assert!`. -/
def asserted (p : Prop) [Decidable p] : Except CommitStop Unit := if p then .ok () else .error .panicked

/-- An error of the kernel. -/
def CommitStop.lift {α : Type} : Except OpeningError α → Except CommitStop α
  | .ok a => .ok a
  | .error error => .error (.kernel error)

/-- The bases of the columns, and how many rows the bases of the second tier allow. -/
structure DoryProverSetup (M : Type) where
  g1Vec : List M
  g2Len : ℕ

section

variable {F M : Type} [Field F] [AddCommGroup M] [Module F M]

/-- `JoltG1Routines::msm` over the first bases. -/
def msm (bases : List M) (scalars : List F) : M := (List.zipWith (fun scalar base => scalar • base) scalars bases).sum

namespace DoryScheme

section

variable (setup : DoryProverSetup M)

/-- A chunk is a power of two and has a base for every column. -/
def assertWidth (width : ℕ) : Except CommitStop Unit := do
  asserted width.isPowerOfTwo
  asserted (width ≤ setup.g1Vec.length)

/-- The rows so far, after one more. -/
def feed (rowCommitments : List M) (chunk : List F) : Except CommitStop (List M) := do
  assertWidth setup chunk.length
  return rowCommitments ++ [msm (setup.g1Vec.take chunk.length) chunk]

/-- `msm_i128`. -/
def msmI128 (bases : List M) (scalars : List ℤ) : M :=
  (List.zipWith (fun scalar base => scalar • base) scalars bases).sum

def feedI128 (rowCommitments : List M) (chunk : List ℤ) : Except CommitStop (List M) := do
  assertWidth setup chunk.length
  return rowCommitments ++ [msmI128 (setup.g1Vec.take chunk.length) chunk]

/-- Several windows of one width at once. -/
def feedI128RowsWith (rowCommitments : List M) (value : ℕ → ℤ) (count rowWidth : ℕ) : Except CommitStop (List M) := do
  assertWidth setup rowWidth
  asserted (rowWidth ∣ count)
  let bases := setup.g1Vec.take rowWidth
  return rowCommitments ++ (List.range (count / rowWidth)).map fun window =>
    msmI128 bases ((List.range rowWidth).map fun column => value (window * rowWidth + column))

/-- The context is the bases of a row. -/
def beginOneHotColumnMajorStream (rowWidth : ℕ) : Except CommitStop (List M) := do
  assertWidth setup rowWidth
  return setup.g1Vec.take rowWidth

/-- The commitments of the rows of all addresses, in the columns of one chunk: the sums of the bases of the
columns that are hot there. -/
def oneHotChunkCommitments (bases : List M) (oneHotK : ℕ) (chunk : List (Option ℕ)) : Except CommitStop (List M) := do
  asserted (oneHotK ≠ 0)
  assertWidth setup chunk.length
  asserted (chunk.length ≤ bases.length)
  asserted (∀ hotRow ∈ chunk.reduceOption, hotRow < oneHotK)
  let indicesPerK := chunk.zipIdx.foldl (fun indices entry => match entry.1 with
    | some hotRow => indices.modify hotRow (· ++ [entry.2])
    | none => indices) (List.replicate oneHotK [])
  return indicesPerK.map fun indices => (indices.map fun index => bases.getD index 0).sum

/-- Several chunks of one width at once. -/
def processOneHotChunksWith (bases : List M) (oneHotK : ℕ) (hotAddress : ℕ → Option ℕ) (count chunkWidth : ℕ) :
    Except CommitStop (List (List M)) := do
  asserted (chunkWidth ≠ 0)
  (List.range ((count + chunkWidth - 1) / chunkWidth)).mapM fun window =>
    let base := window * chunkWidth
    let top := min (base + chunkWidth) count
    oneHotChunkCommitments setup bases oneHotK ((List.range (top - base)).map fun i => hotAddress (base + i))

/-- `validate_row_count`. -/
def validateRowCount (numRows : ℕ) : Except CommitStop Unit := do
  asserted numRows.isPowerOfTwo
  asserted (numRows ≤ setup.g2Len)

/-- The row commitments of the hint. -/
def finishWithHint (rowCommitments : List M) : Except CommitStop (List M) := do
  validateRowCount setup rowCommitments.length
  return rowCommitments

/-- The chunks hold the rows of all addresses, and the rows of the polynomial go through the chunks for every
address. -/
def finishOneHotColumnMajorChunks (oneHotK : ℕ) (chunks : List (List M)) : Except CommitStop (List M) := do
  asserted (oneHotK ≠ 0)
  asserted (chunks ≠ [])
  asserted (∀ chunk ∈ chunks, chunk.length = oneHotK)
  let rowCommitments := (List.range oneHotK).flatMap fun row => chunks.map fun chunk => chunk.getD row 0
  validateRowCount setup rowCommitments.length
  return rowCommitments

/-- `compute_row_commitments` of a dense polynomial. -/
def computeRowCommitments (poly : MultilinearPoly F) : Except CommitStop (List M) :=
  let sigma := (poly.numVars + 1) / 2
  if 1 <<< sigma ≤ setup.g1Vec.length ∧ 1 <<< (poly.numVars - sigma) ≤ setup.g2Len then
    .ok ((poly.forEachRow sigma).map fun row => msm ((setup.g1Vec.take (1 <<< sigma)).take row.length) row)
  else .error (.polynomialTooLarge poly.numVars (Nat.log2 setup.g1Vec.length + Nat.log2 setup.g2Len))

end

/-- The row commitments of a linear combination; a narrower hint has no commitment for the later rows. -/
def combineHints (hints : List (List M)) (scalars : List F) : Except CommitStop (List M) := do
  asserted (hints.length = scalars.length)
  asserted (hints ≠ [])
  let numRows := (hints.map List.length).foldl max 0
  return (List.range numRows).map fun row => (hints.zip scalars).foldl (fun acc hint => match hint.1[row]? with
    | some rowCommitment => acc + hint.2 • rowCommitment
    | none => acc) 0

end DoryScheme

open DoryScheme

/-! ## The passes over the trace -/

/-- The windows of a pass over the cycles, the last of them cut off. -/
def passWindows (total size : ℕ) : List (ℕ × ℕ) :=
  (List.range ((total + size - 1) / size)).map fun k => (k * size, min (k * size + size) total)

/-- The rows of a window. -/
def windowRows (rows : List CommittedColumnsWitness) (window : ℕ × ℕ) : List CommittedColumnsWitness :=
  (rows.drop window.1).take (window.2 - window.1)

/-- A column on the way to its commitment. -/
inductive ColumnCommitState (M : Type) where
  | increment (kind : ColumnKind) (rowCommitments : List M)
  | oneHot (kind : ColumnKind) (context : List M) (chunkCommitments : List (List M))

section

variable (setup : DoryProverSetup M)

/-- `begin` of both passes. -/
def beginColumns (kinds : List ColumnKind) (rowWidth : ℕ) : Except CommitStop (List (ColumnCommitState M)) :=
  kinds.mapM fun kind =>
    if kind.isOneHot then do return .oneHot kind (← beginOneHotColumnMajorStream setup rowWidth) []
    else .ok (.increment kind [])

/-- `finish` of both passes. -/
def finishColumns (oneHotK : ℕ) (columns : List (ColumnCommitState M)) : Except CommitStop (List (List M)) :=
  columns.mapM fun column => match column with
    | .increment _ rowCommitments => finishWithHint setup rowCommitments
    | .oneHot _ _ chunkCommitments => finishOneHotColumnMajorChunks setup oneHotK chunkCommitments

namespace FusedColumns

/-- One window of a row. -/
def consume (oneHotK : ℕ) (columns : List (ColumnCommitState M)) (chunk : List CommittedColumnsWitness) :
    Except CommitStop (List (ColumnCommitState M)) :=
  columns.mapM fun column => match column with
    | .increment kind rowCommitments => do
        return .increment kind (← feedI128 setup rowCommitments (chunk.map fun row => kind.increment row))
    | .oneHot kind context chunkCommitments => do
        return .oneHot kind context (chunkCommitments ++
          [← oneHotChunkCommitments setup context oneHotK (chunk.map fun row => kind.hotAddress row)])

end FusedColumns

namespace BatchedColumns

/-- The facts of a row of the chunk. -/
def rowOf (chunk : List CommittedColumnsWitness) (index : ℕ) : CommittedColumnsWitness :=
  chunk.getD index ⟨0, 0, 0, 0, ⟨none, fun _ none => nomatch none⟩⟩

/-- One superchunk. -/
def consume (oneHotK rowWidth : ℕ) (columns : List (ColumnCommitState M)) (chunk : List CommittedColumnsWitness) :
    Except CommitStop (List (ColumnCommitState M)) :=
  columns.mapM fun column => match column with
    | .increment kind rowCommitments => do
        return .increment kind (← feedI128RowsWith setup rowCommitments (fun index => kind.increment (rowOf chunk index))
          chunk.length rowWidth)
    | .oneHot kind context chunkCommitments => do
        return .oneHot kind context (chunkCommitments ++ (← processOneHotChunksWith setup context oneHotK
          (fun index => kind.hotAddress (rowOf chunk index)) chunk.length rowWidth))

end BatchedColumns

end

/-! ## Materialized tables -/

/-- The table of one column, filled by a pass over the trace. -/
structure MaterializedColumn (F : Type) where
  kind : ColumnKind
  table : List F
  cycle : ℕ
  cycleStride : ℕ
  oneHotStride : ℕ
  flatCycles : Option ℕ

namespace MaterializedColumn

variable (F) in
def start (kind : ColumnKind) (grid : CommitmentGrid) : MaterializedColumn F :=
  let (tableLen, flatCycles) := match grid.order with
    | .cycleMajor =>
        if kind.isOneHot then ((1 <<< grid.logKChunk) <<< grid.logT, some (1 <<< grid.logT))
        else (1 <<< grid.logT, none)
    | .addressMajor => (1 <<< grid.totalVars, none)
  { kind := kind
    table := List.replicate tableLen 0
    cycle := 0
    cycleStride := match grid.order with
      | .addressMajor => grid.cycleStride
      | .cycleMajor => 1
    oneHotStride := match grid.order with
      | .addressMajor => grid.oneHotStride
      | .cycleMajor => 0
    flatCycles := flatCycles }

/-- One row of the trace. -/
def consumeRow (column : MaterializedColumn F) (row : CommittedColumnsWitness) : MaterializedColumn F :=
  let table :=
    if column.kind.isOneHot then
      match column.kind.hotAddress row with
      | some k =>
          let index := match column.flatCycles with
            | some cycles => k * cycles + column.cycle
            | none => column.cycle * column.cycleStride + k * column.oneHotStride
          column.table.set index 1
      | none => column.table
    else column.table.set (column.cycle * column.cycleStride) (column.kind.increment row : F)
  { column with
    table := table
    cycle := column.cycle + 1 }

def consume (column : MaterializedColumn F) (chunk : List CommittedColumnsWitness) : MaterializedColumn F :=
  chunk.foldl consumeRow column

variable (F) in
/-- The commitment of one column: its table, row by row. -/
def commit (setup : DoryProverSetup M) (rows : List CommittedColumnsWitness) (grid : CommitmentGrid) (kind : ColumnKind) :
    Except CommitStop (List M) := do
  let column := (passWindows (1 <<< grid.logT) grid.numColumns).foldl
    (fun column window => column.consume (windowRows rows window)) (start F kind grid)
  let rowCommitments ← (rowsOfTable grid.numColumns column.table).foldlM (feed setup) []
  finishWithHint setup rowCommitments

end MaterializedColumn

/-! ## The commit pass -/

variable (F) in
/-- `commit_witness` of the reference backend. -/
def referenceCommitWitness (setup : DoryProverSetup M) (rows : List CommittedColumnsWitness)
    (ids : List JoltCommittedPolynomial) (grid : CommitmentGrid) :
    Except CommitStop (List (JoltCommittedPolynomial × List M)) := do
  let kinds ← CommitStop.lift (columnKinds ids grid)
  let cycles := 1 <<< grid.logT
  let rowWidth := grid.numColumns
  if grid.order = .cycleMajor ∧ rowWidth ≤ cycles then
    let columns ← beginColumns setup kinds rowWidth
    let columns ← (passWindows cycles rowWidth).foldlM (fun columns window =>
      FusedColumns.consume setup (1 <<< grid.logKChunk) columns (windowRows rows window)) columns
    return ids.zip (← finishColumns setup (1 <<< grid.logKChunk) columns)
  else return ids.zip (← kinds.mapM (MaterializedColumn.commit F setup rows grid))

/-- The windows that the pipelined pass delivers, after those before `stop`. -/
def pipelinedWindows (superchunk cycles : ℕ) : ℕ → ℕ → List (ℕ × ℕ)
  | 0, _ => []
  | fuel + 1, stop =>
      let next := min (stop + superchunk) cycles
      if stop < next then (stop, next) :: pipelinedWindows superchunk cycles fuel next else []

/-- `commit_streaming`, from one pass over the trace or, for a trace in memory, pipelined. -/
def commitStreaming (setup : DoryProverSetup M) (rows : List CommittedColumnsWitness)
    (ids : List JoltCommittedPolynomial) (grid : CommitmentGrid) (superchunkCycles : ℕ) (randomAccess : Bool) :
    Except CommitStop (List (JoltCommittedPolynomial × List M)) := do
  let cycles := 1 <<< grid.logT
  let rowWidth := grid.numColumns
  let windows := max 1 (min (superchunkCycles / rowWidth) (cycles / rowWidth))
  let superchunk := rowWidth * windows
  let kinds ← CommitStop.lift (columnKinds ids grid)
  let columns ← beginColumns setup kinds rowWidth
  let deliveries :=
    if randomAccess then (0, min superchunk cycles) :: pipelinedWindows superchunk cycles cycles (min superchunk cycles)
    else passWindows cycles superchunk
  let columns ← deliveries.foldlM (fun columns window =>
    BatchedColumns.consume setup (1 <<< grid.logKChunk) rowWidth columns (windowRows rows window)) columns
  return ids.zip (← finishColumns setup (1 <<< grid.logKChunk) columns)

variable (F) in
/-- `commit_witness` of the optimized backend. -/
def optimizedCommitWitness (setup : DoryProverSetup M) (rows : List CommittedColumnsWitness)
    (ids : List JoltCommittedPolynomial) (grid : CommitmentGrid) (superchunkCycles : ℕ) (randomAccess : Bool) :
    Except CommitStop (List (JoltCommittedPolynomial × List M)) :=
  if grid.order ≠ .cycleMajor ∨ 1 <<< grid.logT < grid.numColumns then referenceCommitWitness F setup rows ids grid
  else commitStreaming setup rows ids grid superchunkCycles randomAccess

end

end JoltWasm
