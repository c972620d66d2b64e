import Mathlib.Data.FinEnum
import Mathlib.Data.List.ReduceOption
import JoltWasm.Lib.MatrixView
import JoltWasm.Poly.Dense

/-!
# Polynomials as matrices

What a commitment scheme asks of a polynomial: its value at a point, the rows of its table as a matrix with
`2 ^ sigma` columns, and a left vector times that matrix.  Dense tables, one-hot tables and lazy linear
combinations answer each in their own way.
-/

namespace JoltWasm

open Finset Lib

/-- The operations of a polynomial; the rows are those that the visitor gets, in order. -/
structure MultilinearPoly (F : Type) where
  numVars : ℕ
  evaluate : List F → F
  forEachRow : ℕ → List (List F)
  foldRows : List F → ℕ → List F
  denseEvaluations : Option (List F)

section

variable {F : Type} [Field F]

/-- Add a multiple of each entry of a row; the shorter list ends the loop. -/
def addMultiple (result : List F) (l : F) (row : List F) : List F :=
  List.zipWith (fun r val => r + l * val) result row ++ result.drop row.length

/-- The rows one after the other, each times its entry of the left vector. -/
def foldRowsOf (rows : List (List F)) (left : List F) (sigma : ℕ) : List F :=
  rows.zipIdx.foldl (fun result row => addMultiple result (left.getD row.2 0) row.1) (List.replicate (1 <<< sigma) 0)

namespace MultilinearPoly

/-- The default of `fold_rows`. -/
def defaultFoldRows (poly : MultilinearPoly F) (left : List F) (sigma : ℕ) : List F :=
  foldRowsOf (poly.forEachRow sigma) left sigma

omit [Field F] in
def toDense (poly : MultilinearPoly F) : List F :=
  match poly.denseEvaluations with
  | some evaluations => evaluations
  | none => (poly.forEachRow poly.numVars).flatten

end MultilinearPoly

/-! ## Dense tables -/

/-- `slice::chunks`. -/
def rowsOfTable (numCols : ℕ) (table : List F) : List (List F) :=
  (List.range ((table.length + numCols - 1) / numCols)).map fun i => (table.drop (i * numCols)).take numCols

/-- `EqPolynomial::evaluations` against the table; the shorter list ends the sum. -/
def evaluateTable (table point : List F) : F := (List.zipWith (· * ·) table (EqPolynomial.evaluations point)).sum

/-- A dense polynomial; the value at a point of another length is a panic, here zero. -/
def DensePolynomial.view (p : DensePolynomial F) : MultilinearPoly F where
  numVars := p.numVars
  evaluate point := (p.evaluate point).getD 0
  forEachRow sigma := rowsOfTable (1 <<< sigma) p.evals
  foldRows left sigma := foldRowsOf (rowsOfTable (1 <<< sigma) p.evals) left sigma
  denseEvaluations := some p.evals

/-- A slice of values; `num_vars` asserts that its length is a power of two. -/
def sliceView (values : List F) : MultilinearPoly F where
  numVars := if values.isEmpty then 0 else Nat.log 2 values.length
  evaluate := evaluateTable values
  forEachRow sigma := rowsOfTable (1 <<< sigma) values
  foldRows left sigma := foldRowsOf (rowsOfTable (1 <<< sigma) values) left sigma
  denseEvaluations := some values

/-! ## One-hot tables -/

inductive OneHotIndexOrder where
  | rowMajor
  | columnMajor
  deriving DecidableEq

/-- The hot column of every row; the hot columns lie inside. -/
structure OneHotPolynomial where
  k : ℕ
  indices : List (Option UInt8)
  numVars : ℕ
  indexOrder : OneHotIndexOrder
  narrow : k ≤ 256
  hot : ∀ col ∈ indices.reduceOption, col.toNat < k
  total : k * indices.length = 2 ^ numVars

namespace OneHotPolynomial

/-- The source asserts all of it, the hot columns in debug builds. -/
def newWithIndexOrder (k : ℕ) (indices : List (Option UInt8)) (indexOrder : OneHotIndexOrder) :
    Option OneHotPolynomial :=
  if valid : k ≤ 256 ∧ (∀ col ∈ indices.reduceOption, col.toNat < k) ∧
      k * indices.length = 2 ^ Nat.log 2 (k * indices.length) then
    some ⟨k, indices, Nat.log 2 (k * indices.length), indexOrder, valid.1, valid.2.1, valid.2.2⟩
  else none

variable (poly : OneHotPolynomial)

def flatIndex (row : ℕ) (col : UInt8) : ℕ :=
  match poly.indexOrder with
  | .rowMajor => row * poly.k + col.toNat
  | .columnMajor => col.toNat * poly.indices.length + row

/-- The places of the ones, by row. -/
def ones : List ℕ := poly.indices.zipIdx.filterMap fun entry => entry.1.map (poly.flatIndex entry.2)

/-- The places of the ones, sorted into the rows of the matrix. -/
def rowHotCols (numCols numRows : ℕ) : List (List ℕ) :=
  poly.ones.foldl (fun rows flat => rows.modify (flat / numCols) (· ++ [flat % numCols])) (List.replicate numRows [])

def view : MultilinearPoly F where
  numVars := poly.numVars
  evaluate point :=
    let eqEvals := EqPolynomial.evaluations point
    poly.ones.foldl (fun result flat => result + eqEvals.getD flat 0) 0
  forEachRow sigma :=
    let numCols := 1 <<< sigma
    (poly.rowHotCols numCols (1 <<< poly.numVars / numCols)).map fun cols =>
      cols.foldl (fun buf c => buf.set c 1) (List.replicate numCols 0)
  foldRows left sigma :=
    let numCols := 1 <<< sigma
    poly.ones.foldl (fun result flat => result.modify (flat % numCols) (· + left.getD (flat / numCols) 0))
      (List.replicate numCols 0)
  denseEvaluations := none

end OneHotPolynomial

/-! ## Lazy linear combinations -/

/-- Polynomials of one number of variables, with their scalars. -/
structure RlcSource (F : Type) where
  sources : List (MultilinearPoly F)
  scalars : List F
  numVars : ℕ

namespace RlcSource

omit [Field F] in
/-- The source asserts that the lengths agree and that all polynomials have as many variables. -/
def new (sources : List (MultilinearPoly F)) (scalars : List F) : Option (RlcSource F) :=
  let numVars := (sources.head?.map (·.numVars)).getD 0
  if sources.length = scalars.length ∧ (sources.all fun s => s.numVars == numVars) = true then
    some ⟨sources, scalars, numVars⟩
  else none

variable (rlc : RlcSource F)

def view : MultilinearPoly F where
  numVars := rlc.numVars
  evaluate point :=
    ((rlc.sources.zip rlc.scalars).map fun source => source.2 * source.1.evaluate point).foldl (· + ·) 0
  forEachRow sigma :=
    if rlc.sources.isEmpty then []
    else
      let allRows := rlc.sources.map fun source => source.forEachRow sigma
      (List.range (1 <<< (rlc.numVars - sigma))).map fun rowIdx =>
        (allRows.zip rlc.scalars).foldl (fun combined source => addMultiple combined source.2 (source.1.getD rowIdx []))
          (List.replicate (1 <<< sigma) 0)
  foldRows left sigma :=
    (rlc.sources.zip rlc.scalars).foldl (fun result source => addMultiple result source.2 (source.1.foldRows left sigma))
      (List.replicate (1 <<< sigma) 0)
  denseEvaluations := none

end RlcSource

end

end JoltWasm
