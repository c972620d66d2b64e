import JoltWasm.Lib.Plans
import JoltWasm.Poly.MultilinearPoly
import JoltWasm.Opening.Grid

/-!
# Folds of the opening polynomials

The polynomials of the opening are folded and evaluated from their entries, in ranges that the threads share;
a range adds to its own accumulator and the accumulators are merged.
-/

namespace JoltWasm

open Lib

section

variable {F : Type} [Field F]

/-- Add the right entries to the left ones. -/
def mergeEvals (left right : List F) : List F := List.zipWith (· + ·) left right ++ left.drop right.length

/-- One accumulator for each part of the plan, merged. -/
def scatterFold (plan : Plan) (numCols : ℕ) (fill : List ℕ → List F → List F) : List F :=
  plan.reduce (fun range => fill range (List.replicate numCols 0)) (List.replicate numCols 0) mergeEvals

def scatterSum (plan : Plan) (sum : List ℕ → F) : F := plan.reduce sum 0 (· + ·)

/-- The least work of a range. -/
def minRange : ℕ := 1 <<< 12

/-- The ranges for a number of threads, when there is more than the least work. -/
def splitRanges (total threads : ℕ) : List (ℕ × ℕ) :=
  let maxRanges := threads * 4
  let ranges := min (max (total / minRange) 1) (max maxRanges 1)
  let chunk := (total + ranges - 1) / ranges
  (List.range ((total + chunk - 1) / chunk)).map fun k => (k * chunk, min (k * chunk + chunk) total)

namespace TraceOpeningPoly

/-- The polynomial, with its loops split by a plan. -/
def view (poly : TraceOpeningPoly) (plan : Plan) : MultilinearPoly F where
  numVars := poly.placement.totalVars
  evaluate point :=
    let eq := TensorEqTable.new point
    scatterSum plan fun range => range.foldl (fun acc cycle =>
      match poly.entry F cycle with
      | some (index, value) => acc + value * eq.evaluateIndex index
      | none => acc) 0
  forEachRow sigma := poly.forEachRow F sigma
  foldRows left sigma :=
    let numCols := 1 <<< sigma
    let mask := numCols - 1
    scatterFold plan numCols fun range acc => range.foldl (fun acc cycle =>
      match poly.entry F cycle with
      | some (index, value) =>
          if poly.kind.isOneHot then acc.modify (index &&& mask) (· + left.getD (index >>> sigma) 0)
          else acc.modify (index &&& mask) (· + left.getD (index >>> sigma) 0 * value)
      | none => acc) acc
  denseEvaluations := none

end TraceOpeningPoly

namespace BlockOpeningPoly

/-- The entry of the table at an index, and none where it is zero. -/
def entry [DecidableEq F] (poly : BlockOpeningPoly F) (i : ℕ) : Option (ℕ × F) :=
  let value := poly.table.getD i 0
  if value = 0 then none else some (poly.index i, value)

def view [DecidableEq F] (poly : BlockOpeningPoly F) (plan : Plan) : MultilinearPoly F where
  numVars := poly.totalVars
  evaluate point :=
    let eq := TensorEqTable.new point
    scatterSum plan fun range => range.foldl (fun acc i =>
      match poly.entry i with
      | some (index, value) => acc + value * eq.evaluateIndex index
      | none => acc) 0
  forEachRow sigma := poly.forEachRow sigma
  foldRows left sigma :=
    let numCols := 1 <<< sigma
    let mask := numCols - 1
    scatterFold plan numCols fun range acc => range.foldl (fun acc i =>
      match poly.entry i with
      | some (index, value) => acc.modify (index &&& mask) (· + left.getD (index >>> sigma) 0 * value)
      | none => acc) acc
  denseEvaluations := none

end BlockOpeningPoly

end

end JoltWasm
