import Mathlib.Data.List.Sort
import JoltWasm.Claims.Dimensions
import JoltWasm.Poly.Mle
import JoltWasm.Poly.SplitEq

/-!
# The polynomials of the joint opening

All committed polynomials embed in one grid.  A trace polynomial has at most one entry a cycle, placed by
the order of the trace; a polynomial of the committed program is a block in the corner of the grid.
-/

namespace JoltWasm

open Lib

/-- The committed polynomials of the homomorphic mode. -/
inductive JoltCommittedPolynomial where
  | rdInc
  | ramInc
  | instructionRa (index : ℕ)
  | bytecodeRa (index : ℕ)
  | bytecodeChunk (index : ℕ)
  | ramRa (index : ℕ)
  | programImageInit
  deriving DecidableEq, Repr

/-- Whether the polynomial is its own balanced matrix in the corner of the grid. -/
def JoltCommittedPolynomial.isBlockEmbedded : JoltCommittedPolynomial → Bool
  | bytecodeChunk _ | programImageInit => true
  | _ => false

inductive OpeningError where
  | unknownOracle
  | invalidDimensions (reason : String)
  | invalidGeometry (reason : String)
  | tableSizeMismatch (polynomial : JoltCommittedPolynomial) (expected got : ℕ)
  | missingOracle (polynomial : JoltCommittedPolynomial)
  | invariantViolation (reason : String)
  deriving DecidableEq

structure CommitmentGrid where
  totalVars : ℕ
  logT : ℕ
  logKChunk : ℕ
  order : TracePolynomialOrder
  deriving DecidableEq

namespace CommitmentGrid

variable (grid : CommitmentGrid)

def numColumns : ℕ := 1 <<< ((grid.totalVars + 1) / 2)

/-- The block of a cycle, address-major. -/
def cycleStride : ℕ := 1 <<< (grid.totalVars - grid.logT)

/-- The step of an address in the block of a cycle. -/
def oneHotStride : ℕ := 1 <<< (grid.totalVars - grid.logT - grid.logKChunk)

end CommitmentGrid

/-! ## Columns of the trace -/

/-- The sentinel of a cycle without a hot address. -/
def coldAddress : ℕ := 2 ^ 64 - 1

/-- A remapped address counts words, so that it is not the sentinel. -/
structure RemappedRamAddress where
  value : Option ℕ
  live : ∀ address, value = some address → address < coldAddress

/-- The facts of a cycle that the committed columns derive from. -/
structure CommittedColumnsWitness where
  rdInc : ℤ
  ramInc : ℤ
  lookupIndex : ℕ
  bytecodePc : ℕ
  ramAddress : RemappedRamAddress

structure RaChunkSelector where
  shift : ℕ
  mask : ℕ
  deriving DecidableEq

namespace RaChunkSelector

def new (index chunks chunkBits : ℕ) : Except OpeningError RaChunkSelector :=
  if chunks < index + 1 then .error .unknownOracle
  else if 2 ^ 64 ≤ (chunks - (index + 1)) * chunkBits then
    .error (.invalidDimensions "RA chunk shift overflow")
  else if 128 ≤ chunkBits then .error (.invalidDimensions "RA chunk width overflow")
  else .ok ⟨(chunks - (index + 1)) * chunkBits, (1 <<< chunkBits) - 1⟩

/-- The chunk of a 128-bit value, as a machine word. -/
def chunk (selector : RaChunkSelector) (value : ℕ) : ℕ :=
  ((value >>> selector.shift) &&& selector.mask) % 2 ^ 64

end RaChunkSelector

inductive ColumnKind where
  | rdInc
  | ramInc
  | instructionRa (selector : RaChunkSelector)
  | bytecodeRa (selector : RaChunkSelector)
  | ramRa (selector : RaChunkSelector)
  deriving DecidableEq

namespace ColumnKind

def isOneHot : ColumnKind → Bool
  | instructionRa _ | bytecodeRa _ | ramRa _ => true
  | _ => false

/-- The increment of a dense column; the others have none. -/
def increment (row : CommittedColumnsWitness) : ColumnKind → ℤ
  | rdInc => row.rdInc
  | ramInc => row.ramInc
  | _ => 0

/-- The hot address of a one-hot column; the others have none. -/
def hotAddress (row : CommittedColumnsWitness) : ColumnKind → Option ℕ
  | instructionRa selector => some (selector.chunk row.lookupIndex)
  | bytecodeRa selector => some (selector.chunk row.bytecodePc)
  | ramRa selector => row.ramAddress.value.map selector.chunk
  | _ => none

end ColumnKind

/-- The column of an id of the committed order, which carries whole families. -/
def columnKind (ids : List JoltCommittedPolynomial) (grid : CommitmentGrid) :
    JoltCommittedPolynomial → Except OpeningError ColumnKind
  | .rdInc => .ok .rdInc
  | .ramInc => .ok .ramInc
  | .instructionRa index => do
      let chunks := ids.countP fun id => match id with | .instructionRa _ => true | _ => false
      return .instructionRa (← RaChunkSelector.new index chunks grid.logKChunk)
  | .bytecodeRa index => do
      let chunks := ids.countP fun id => match id with | .bytecodeRa _ => true | _ => false
      return .bytecodeRa (← RaChunkSelector.new index chunks grid.logKChunk)
  | .ramRa index => do
      let chunks := ids.countP fun id => match id with | .ramRa _ => true | _ => false
      return .ramRa (← RaChunkSelector.new index chunks grid.logKChunk)
  | id => .error (.invalidGeometry
      s!"{reprStr id} is not a trace-derived column (advice commits through commit_advice)")

def columnKinds (ids : List JoltCommittedPolynomial) (grid : CommitmentGrid) :
    Except OpeningError (List ColumnKind) := ids.mapM (columnKind ids grid)

/-- The columns of the opening, with the sentinel at cold cycles. -/
structure OpeningColumns where
  rdInc : List ℤ
  ramInc : List ℤ
  lookupIndex : List ℕ
  bytecodePc : List ℕ
  ramAddress : List ℕ

namespace OpeningColumns

def collect (rows : List CommittedColumnsWitness) : OpeningColumns :=
  { rdInc := rows.map (·.rdInc)
    ramInc := rows.map (·.ramInc)
    lookupIndex := rows.map (·.lookupIndex)
    bytecodePc := rows.map (·.bytecodePc)
    ramAddress := rows.map fun row => row.ramAddress.value.getD coldAddress }

def cycles (columns : OpeningColumns) : ℕ := columns.rdInc.length

/-- The facts of a cycle, reassembled. -/
def witnessRow (columns : OpeningColumns) (cycle : ℕ) : CommittedColumnsWitness :=
  let ramAddress := columns.ramAddress.getD cycle 0
  { rdInc := columns.rdInc.getD cycle 0
    ramInc := columns.ramInc.getD cycle 0
    lookupIndex := columns.lookupIndex.getD cycle 0
    bytecodePc := columns.bytecodePc.getD cycle 0
    ramAddress := ⟨if ramAddress < coldAddress then some ramAddress else none, fun address is => by
      split_ifs at is with live
      · exact Option.some_inj.mp is ▸ live⟩ }

end OpeningColumns

/-! ## Placement -/

structure TracePlacement where
  totalVars : ℕ
  tStride : ℕ
  kStride : ℕ
  deriving DecidableEq

namespace TracePlacement

def new (grid : CommitmentGrid) : TracePlacement :=
  match grid.order with
  | .cycleMajor => ⟨grid.totalVars, 1, 1 <<< grid.logT⟩
  | .addressMajor => ⟨grid.totalVars, grid.cycleStride, grid.oneHotStride⟩

def index (placement : TracePlacement) (cycle address : ℕ) : ℕ :=
  cycle * placement.tStride + address * placement.kStride

end TracePlacement

section

variable {F : Type} [Field F]

/-- Place the entries before `rowBase + numCols` in the row, and leave the others. -/
def emitRow (rowBase numCols : ℕ) : List (ℕ × F) → List F → List F × List (ℕ × F)
  | [], buffer => (buffer, [])
  | (index, value) :: entries, buffer =>
      if rowBase + numCols ≤ index then (buffer, (index, value) :: entries)
      else emitRow rowBase numCols entries (buffer.set (index - rowBase) value)

/-- The rows `row`, `row + 1`, … of sorted entries. -/
def emitRows (sigma : ℕ) : ℕ → ℕ → List (ℕ × F) → List (List F)
  | 0, _, _ => []
  | numRows + 1, row, entries =>
      let numCols := 1 <<< sigma
      let (buffer, later) := emitRow (row <<< sigma) numCols entries (List.replicate numCols 0)
      buffer :: emitRows sigma numRows (row + 1) later

/-- The rows of a matrix, from its entries, which have different indices. -/
def emitSortedRows (entries : List (ℕ × F)) (numVars sigma : ℕ) : List (List F) :=
  emitRows sigma (1 <<< (numVars - sigma)) 0 (entries.insertionSort fun a b => a.1 ≤ b.1)

/-- A committed trace polynomial: at most one entry a cycle. -/
structure TraceOpeningPoly where
  columns : OpeningColumns
  kind : ColumnKind
  placement : TracePlacement

namespace TraceOpeningPoly

variable (poly : TraceOpeningPoly)

variable (F) in
/-- The entry of a cycle, and none where it is zero. -/
def entry (cycle : ℕ) : Option (ℕ × F) :=
  let row := poly.columns.witnessRow cycle
  if poly.kind.isOneHot then
    (poly.kind.hotAddress row).map fun address => (poly.placement.index cycle address, 1)
  else
    let increment := poly.kind.increment row
    if increment = 0 then none else some (poly.placement.index cycle 0, (increment : F))

variable (F) in
def entries : List (ℕ × F) := (List.range poly.columns.cycles).filterMap (poly.entry F)

def evaluate (point : List F) : F :=
  let eq := TensorEqTable.new point
  (List.range poly.columns.cycles).foldl (fun acc cycle =>
    match poly.entry F cycle with
    | some (index, value) => acc + value * eq.evaluateIndex index
    | none => acc) 0

variable (F) in
def forEachRow (sigma : ℕ) : List (List F) :=
  emitSortedRows (poly.entries F) poly.placement.totalVars sigma

end TraceOpeningPoly

/-- A polynomial of the committed program, as a block in the corner of the grid. -/
structure BlockOpeningPoly (F : Type) where
  table : List F
  sigmaTable : ℕ
  sigmaGrid : ℕ
  totalVars : ℕ

namespace BlockOpeningPoly

def new (table : List F) (grid : CommitmentGrid) (polynomial : JoltCommittedPolynomial) :
    Except OpeningError (BlockOpeningPoly F) :=
  if ¬ table.length.isPowerOfTwo then
    .error (.tableSizeMismatch polynomial table.length.nextPowerOfTwo table.length)
  else if 1 <<< grid.totalVars < table.length then
    .error (.tableSizeMismatch polynomial (1 <<< grid.totalVars) table.length)
  else
    let tableVars := Nat.log2 table.length
    .ok ⟨table, (tableVars + 1) / 2, (grid.totalVars + 1) / 2, grid.totalVars⟩

variable (poly : BlockOpeningPoly F)

/-- The index in the grid of an entry of the table. -/
def index (i : ℕ) : ℕ :=
  let columnMask := (1 <<< poly.sigmaTable) - 1
  ((i >>> poly.sigmaTable) <<< poly.sigmaGrid) ||| (i &&& columnMask)

def evaluate (point : List F) : F :=
  let eq := TensorEqTable.new point
  -- The source skips the entries that are zero.
  (List.range poly.table.length).foldl (fun acc i =>
    acc + poly.table.getD i 0 * eq.evaluateIndex (poly.index i)) 0

def forEachRow (sigma : ℕ) : List (List F) :=
  emitSortedRows ((List.range poly.table.length).map fun i => (poly.index i, poly.table.getD i 0))
    poly.totalVars sigma

end BlockOpeningPoly

/-- A polynomial that the opening kernel returns. -/
inductive OpeningPoly (F : Type) where
  | trace (poly : TraceOpeningPoly)
  | block (poly : BlockOpeningPoly F)

namespace OpeningPoly

def evaluate (point : List F) : OpeningPoly F → F
  | trace poly => poly.evaluate point
  | block poly => poly.evaluate point

def forEachRow (sigma : ℕ) : OpeningPoly F → List (List F)
  | trace poly => poly.forEachRow F sigma
  | block poly => poly.forEachRow sigma

end OpeningPoly

/-- `JointOpeningPolynomials::prepare`.  The tables of the committed program are the precommitted ones
and, past these, the views of the witness. -/
def prepareOpening (rows : List CommittedColumnsWitness) (polynomials : List JoltCommittedPolynomial)
    (tables : JoltCommittedPolynomial → Option (List F)) (grid : CommitmentGrid) :
    Except OpeningError (List (OpeningPoly F)) := do
  if grid.totalVars < grid.logT + grid.logKChunk then
    throw (.invalidGeometry s!"grid of {grid.totalVars} variables cannot hold a (2^{grid.logKChunk} × 2^{grid.logT}) one-hot matrix")
  let traceIds := polynomials.filter fun id => !id.isBlockEmbedded
  let kinds ← columnKinds traceIds grid
  let kindById := traceIds.zip kinds
  let columns := OpeningColumns.collect rows
  let placement := TracePlacement.new grid
  polynomials.mapM fun polynomial =>
    if polynomial.isBlockEmbedded then
      match tables polynomial with
      | some table => do return .block (← BlockOpeningPoly.new table grid polynomial)
      | none => .error (.missingOracle polynomial)
    else
      match kindById.lookup polynomial with
      | some kind => .ok (.trace ⟨columns, kind, placement⟩)
      | none => .error (.invariantViolation "trace polynomial missing from the resolved column kinds")

end

end JoltWasm
