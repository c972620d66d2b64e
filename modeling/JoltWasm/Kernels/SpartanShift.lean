import JoltWasm.Kernels.Folds
import JoltWasm.Kernels.Rounds
import JoltWasm.Poly.EqPlusOne

/-!
# The Spartan shift kernel

The summand over the cycles is the weight of the next cycle times the pc, unshifted.  The first rounds go
over pairs of prefix tables and tables of the pc summed against the suffixes; at the last prefix variable
the kernel goes back to the raw values and folds them by the challenges.
-/

namespace JoltWasm

open Lib Mont

open SpartanProduct (Scalar)

namespace SpartanShift

/-- The pc of one cycle. -/
structure SpartanShiftRow where
  pc : Mont.U64
  deriving Inhabited

inductive Phase where
  /-- The two pairs of tables over the prefix variables. -/
  | prefixSuffix (first second : List Scalar × List Scalar)
  /-- The table of the next cycle's weights and the column of the pc. -/
  | dense (eqPlusOneOuter pc : List Scalar)

structure ShiftKernel where
  logT : ℕ
  rOuter : List Scalar
  rows : RowVec 8 SpartanShiftRow
  phase : Phase
  challenges : RoundChallenges Scalar

/-- `BLOCK`. -/
def block : ℕ := 32

namespace ShiftKernel

section

variable (ark : ArkFr)

/-- The rows of one suffix, into the folds of a block. -/
def qStep (rows : List SpartanShiftRow) (prefixVars start : ℕ) (folds : List (Slots × Slots))
    (suffix : (Scalar × Scalar) × ℕ) : Option (List (Slots × Slots)) :=
  let base := suffix.2 <<< prefixVars
  folds.zipIdx.mapM fun fold => do
    let row ← rows[base + (start + fold.2)]?
    let v : Scalar := row.pc.val
    return fmaddBoth ark fold.1 (v, suffix.1.1) (v, suffix.1.2)

/-- `build_q_block`, on a block of `len` entries. -/
def buildQBlock (suffixRows : List (Scalar × Scalar)) (rows : List SpartanShiftRow) (prefixVars blockIndex len : ℕ) :
    Option (List (Scalar × Scalar)) := do
  let folds ← suffixRows.zipIdx.foldlM (qStep ark rows prefixVars (blockIndex * block))
    (List.replicate len (bothDefault ark))
  folds.mapM (bothReduce ark)

/-- `rows` has one row for each cycle. -/
def prepare (logT : ℕ) (rOuter : List Scalar) (rows : RowVec 8 SpartanShiftRow) : Except KernelStop ShiftKernel :=
  if logT = 0 then .error (.unsupported "optimized Spartan shift requires at least one cycle round")
  else if rOuter.length ≠ logT then
    .error (.invariantViolation "Spartan shift eq+1 point has the wrong variable count")
  else do
    let outer := EqPlusOnePrefixSuffix.new rOuter
    let prefixVars := trailingZeros outer.prefix0.length
    let suffixRows := (List.range outer.suffix0.length).map fun xHi =>
      (outer.suffix0.getD xHi 0, outer.suffix1.getD xHi 0)
    let qRows ← KernelStop.orPanic (fillChunks block (1 <<< prefixVars) (buildQBlock ark suffixRows rows.rows prefixVars))
    return {
      logT := logT
      rOuter := rOuter
      rows := rows
      phase := .prefixSuffix (outer.prefix0, qRows.map Prod.fst) (outer.prefix1, qRows.map Prod.snd)
      challenges := .new logT }

/-- `fold_chunk`. -/
def foldChunk (eqPrefix : List Scalar) (rows : List SpartanShiftRow) : Scalar :=
  ((rows.zip (eqPrefix.zip (eqPrefix.map shifted))).foldl (fun fold entry =>
    fmaddU64Split ark fold entry.2.1 entry.2.2 entry.1.pc) (FrSmallScalarAccumulator.accumulator ark).default).result ark

/-- The pc column folded by the challenges, and the weights of the next cycle at them. -/
def transitionToDense (kernel : ShiftKernel) : Option ShiftKernel := do
  let rPrefix := kernel.challenges.challenges.reverse
  let eqPrefix := EqPolynomial.evals rPrefix none
  let chunk := eqPrefix.length
  let pc := (chunks chunk kernel.rows.rows).map (foldChunk ark eqPrefix)
  let split := EqPlusOnePrefixSuffix.new kernel.rOuter
  let prefix0Eval ← (DensePolynomial.new split.prefix0).bind (·.evaluate rPrefix)
  let prefix1Eval ← (DensePolynomial.new split.prefix1).bind (·.evaluate rPrefix)
  let eqPlusOneOuter := List.zipWith (fun suffix0 suffix1 => prefix0Eval * suffix0 + prefix1Eval * suffix1)
    split.suffix0 split.suffix1
  return { kernel with rows := .new, phase := .dense eqPlusOneOuter pc }

def bind (kernel : ShiftKernel) (r : Scalar) : Except KernelStop ShiftKernel :=
  let kernel := { kernel with challenges := kernel.challenges.push r }
  match kernel.phase with
  | .prefixSuffix first second =>
      if first.1.length = 2 then KernelStop.orPanic (transitionToDense ark kernel)
      else .ok { kernel with
        phase := .prefixSuffix (bindPairs first.1 r, bindPairs first.2 r) (bindPairs second.1 r, bindPairs second.2 r) }
  | .dense eqPlusOneOuter pc => .ok { kernel with phase := .dense (bindPairs eqPlusOneOuter r) (bindPairs pc r) }

/-- The values at zero and two. -/
def evals (kernel : ShiftKernel) : Option (Scalar × Scalar) :=
  match kernel.phase with
  | .prefixSuffix first second => evalPairs ark [first, second]
  | .dense eqPlusOneOuter pc => evalPairs ark [(eqPlusOneOuter, pc)]

/-- The part of `prove_round` after the bind. -/
def message (kernel : ShiftKernel) (_round : ℕ) (previousClaim : Scalar) :
    Except KernelStop (UnivariatePoly Scalar × ShiftKernel) := do
  let evals ← KernelStop.orPanic (kernel.evals ark)
  let message ← KernelStop.orPanic (UnivariatePoly.fromEvalsAndHint previousClaim [evals.1, evals.2])
  return (message, kernel)

def rounds : RoundKernel Scalar ShiftKernel KernelStop := ⟨bind ark, message ark⟩

end

def outputClaims (kernel : ShiftKernel) : Except KernelStop Scalar := do
  kernel.challenges.requireComplete
  match kernel.phase with
  | .dense _ pc => KernelStop.orPanic pc[0]?
  | .prefixSuffix _ _ => .error (.invariantViolation "Spartan shift must finish in the dense phase")

end ShiftKernel

end SpartanShift

end JoltWasm
