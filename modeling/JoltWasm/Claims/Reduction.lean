import JoltWasm.Claims.Precommitted
import JoltWasm.Lib.BitGather
import JoltWasm.Sumcheck.Verifier

/-!
# The prover of a precommitted claim reduction

The summand is the product of the value table and of the eq table, permuted into opening-round order and
bound from the low variable on; the aux tables are bound along with them.  In a round that is not active
the prover sends half of its claim and remembers the factor.
-/

namespace JoltWasm

open Lib

inductive KernelError where
  | tableSizeMismatch (table : String) (expected got : ℕ)
  | invariantViolation (reason : String)
  | panicked (message : String)
  deriving DecidableEq

/-- The tables of both phases and the factor of the rounds that were not active. -/
structure PrecommittedTables (F : Type) where
  value : List F
  eq : List F
  aux : List (List F)
  scale : F
  scaleInv : F
  twoInv : F
  deriving DecidableEq

/-- What the rounds of a phase give: the running claim and the polynomial of each, the claim that is
left, and the tables. -/
structure PhaseRun (F : Type) where
  rounds : List (F × UnivariatePoly F)
  claim : F
  tables : PrecommittedTables F
  deriving DecidableEq

/-- Whether the rounds, which are sorted, have the round. -/
def isActive (activeRounds : List ℕ) (round : ℕ) : Bool := decide (round ∈ activeRounds)

section

variable {F : Type} [Field F]

/-- `Polynomial::bind_low_to_high`. -/
def bindLowToHigh (scalar : F) (evals : List F) : Except KernelError (List F) :=
  -- The number of entries is a power of two.
  if evals.length < 2 then .error (.panicked "cannot bind a zero-variable polynomial")
  else .ok ((List.range (evals.length / 2)).map fun i =>
    evals.getD (2 * i) 0 + scalar * (evals.getD (2 * i + 1) 0 - evals.getD (2 * i) 0))

namespace PrecommittedTables

variable (tables : PrecommittedTables F)

/-- The product of the tables at zero and at two of the variable that is bound next. -/
def term (j : ℕ) : F × F :=
  let value0 := tables.value.getD (2 * j) 0
  let value1 := tables.value.getD (2 * j + 1) 0
  let eq0 := tables.eq.getD (2 * j) 0
  let eq1 := tables.eq.getD (2 * j + 1) 0
  (value0 * eq0, (value1 + value1 - value0) * (eq1 + eq1 - eq0))

def roundMessage (active : Bool) (previousClaim : F) : UnivariatePoly F :=
  if !active then ⟨[previousClaim * tables.twoInv]⟩
  else
    let half := tables.value.length / 2
    let (eval0, eval2) := (List.range half).foldl (fun acc j =>
      (acc.1 + (tables.term j).1, acc.2 + (tables.term j).2)) (0, 0)
    -- The value at one is hinted by the claim.
    let eval1 := previousClaim * tables.scaleInv - eval0
    let c2 := (eval0 - eval1 - eval1 + eval2) * tables.twoInv
    let c1 := eval1 - eval0 - c2
    ⟨[eval0 * tables.scale, c1 * tables.scale, c2 * tables.scale]⟩

/-- Bind the challenge of a round. -/
def bindRound (active : Bool) (challenge : F) : Except KernelError (PrecommittedTables F) :=
  if !active then
    .ok { tables with
      scale := tables.scale * tables.twoInv
      scaleInv := tables.scaleInv + tables.scaleInv }
  else do
    let value ← bindLowToHigh challenge tables.value
    let eq ← bindLowToHigh challenge tables.eq
    let aux ← tables.aux.mapM (bindLowToHigh challenge)
    return { tables with value := value, eq := eq, aux := aux }

/-- One round: the pending challenge belongs to the round before. -/
def proveRound (activeRounds : List ℕ) (bind : Option F) (round : ℕ) (previousClaim : F) :
    Except KernelError (UnivariatePoly F × PrecommittedTables F) := do
  let tables ← match bind with
    | some challenge => tables.bindRound (isActive activeRounds (round - 1)) challenge
    | none => .ok tables
  return (tables.roundMessage (isActive activeRounds round) previousClaim, tables)

def finishRounds (activeRounds : List ℕ) (totalRounds : ℕ) (bind : F) :
    Except KernelError (PrecommittedTables F) :=
  tables.bindRound (isActive activeRounds (totalRounds - 1)) bind

/-- The rounds of a phase with these challenges, from `round` on: each challenge makes the claim of the
round after it, and is bound there, or at the end of the phase. -/
def runRounds (activeRounds : List ℕ) (totalRounds : ℕ) :
    PrecommittedTables F → ℕ → Option F → F → List F → Except KernelError (PhaseRun F)
  | tables, _, bind, claim, [] => do
      let tables ← match bind with
        | some challenge => tables.finishRounds activeRounds totalRounds challenge
        | none => .ok tables
      return ⟨[], claim, tables⟩
  | tables, round, bind, claim, challenge :: challenges => do
      let (poly, tables) ← tables.proveRound activeRounds bind round claim
      let run ← runRounds activeRounds totalRounds tables (round + 1) (some challenge)
        (poly.evaluate challenge) challenges
      return { run with rounds := (claim, poly) :: run.rounds }

/-- The claim that the cycle phase hands to the address phase. -/
def intermediateClaim : F :=
  (List.zipWith (· * ·) tables.value tables.eq).sum * tables.scale

def requireFullyBound : Except KernelError Unit :=
  if tables.value.length ≠ 1 then
    .error (.invariantViolation
      "precommitted reduction final claim requested before the polynomial is fully bound")
  else .ok ()

/-- The opening of the value table. -/
def finalClaim : Except KernelError F := do
  tables.requireFullyBound
  return tables.value.getD 0 0

/-- The openings of the aux tables. -/
def finalAuxClaims : Except KernelError (List F) := do
  tables.requireFullyBound
  return tables.aux.map fun table => table.getD 0 0

end PrecommittedTables

/-! ## Opening-round order -/

/-- The low variable that each low variable becomes, `none` for the identity. -/
def lsbPermutation (polyOpeningRoundPermutationBe : List ℕ) : Option (List ℕ) :=
  let numVars := polyOpeningRoundPermutationBe.length
  let beVarByRound := (List.range numVars).insertionSort fun a b =>
    polyOpeningRoundPermutationBe.getD a 0 ≤ polyOpeningRoundPermutationBe.getD b 0
  let oldLsbToNewLsb := beVarByRound.zipIdx.foldl
    (fun table (beIndex, newLsb) => table.set (numVars - 1 - beIndex) newLsb) (List.replicate numVars 0)
  if oldLsbToNewLsb.zipIdx.any fun (newLsb, oldLsb) => oldLsb != newLsb then some oldLsbToNewLsb
  else none

def permuteCoefficients {α : Type} [Zero α] (table : List α) (oldLsbToNewLsb : List ℕ) : List α :=
  let numVars := oldLsbToNewLsb.length
  let newLsbToOldLsb := oldLsbToNewLsb.zipIdx.foldl
    (fun inverse (newLsb, oldLsb) => inverse.set newLsb oldLsb) (List.replicate numVars 0)
  (List.range table.length).map fun newIndex =>
    let oldIndex := newLsbToOldLsb.zipIdx.foldl
      (fun oldIndex (oldLsb, newLsb) => oldIndex ||| (((newIndex >>> newLsb) &&& 1) <<< oldLsb)) 0
    table.getD oldIndex 0

/-- Bring tables into the opening-round order of a reduction. -/
def permuteTables {α : Type} [Zero α] (reduction : PrecommittedClaimReduction) (tables : List (List α)) :
    List (List α) :=
  match lsbPermutation reduction.polyOpeningRoundPermutationBe with
  | some oldLsbToNewLsb => tables.map fun table => permuteCoefficients table oldLsbToNewLsb
  | none => tables

/-! ## Kernels -/

/-- The prover of the cycle phase. -/
structure CycleReductionKernel (F : Type) where
  reduction : PrecommittedClaimReduction
  tables : PrecommittedTables F

/-- The prover of the address phase. -/
structure AddressReductionKernel (F : Type) where
  reduction : PrecommittedClaimReduction
  tables : PrecommittedTables F

/-- The tables of a reduction have one entry for each assignment of its variables. -/
def requireTableSize (expected : ℕ) (name : String) (table : List F) : Except KernelError Unit :=
  if table.length ≠ expected then
    .error (.tableSizeMismatch ("precommitted reduction " ++ name) expected table.length)
  else .ok ()

namespace CycleReductionKernel

def new (reduction : PrecommittedClaimReduction) (value eq : List F) (aux : List (List F)) :
    Except KernelError (CycleReductionKernel F) := do
  let expected := 2 ^ reduction.polyOpeningRoundPermutationBe.length
  requireTableSize expected "value" value
  requireTableSize expected "eq" eq
  aux.forM fun table => requireTableSize expected "aux" table
  return ⟨reduction, ⟨value, eq, aux, 1, 1, 2⁻¹⟩⟩

/-- The kernel of tables that are not permuted yet. -/
def prepare (kind : String) (reduction : PrecommittedClaimReduction) (value eq : List F)
    (aux : List (List F)) : Except KernelError (CycleReductionKernel F) :=
  match permuteTables reduction (value :: eq :: aux) with
  | value :: eq :: aux => new reduction value eq aux
  | _ => .error (.invariantViolation (kind ++ " table permutation lost the value/eq tables"))

variable (kernel : CycleReductionKernel F)

def run (claim : F) (challenges : List F) : Except KernelError (PhaseRun F) :=
  PrecommittedTables.runRounds kernel.reduction.cyclePhaseRounds
    kernel.reduction.cyclePhaseTotalRounds kernel.tables 0 none claim challenges

/-- The kernel after its rounds. -/
def after (run : PhaseRun F) : CycleReductionKernel F := { kernel with tables := run.tables }

def scalarClaim : Except KernelError F :=
  if kernel.reduction.hasAddressPhase then .ok kernel.tables.intermediateClaim
  else kernel.tables.finalClaim

/-- The output claims of the bytecode reduction: the intermediate claim, or the chunks' openings. -/
def chunkedClaims : Except KernelError (Option F × List F) :=
  if kernel.reduction.hasAddressPhase then .ok (some kernel.tables.intermediateClaim, [])
  else do
    let chunks ← kernel.tables.finalAuxClaims
    return (none, chunks)

/-- What is parked for the address phase. -/
def parkCarry : Option (AddressReductionKernel F) :=
  if kernel.reduction.hasAddressPhase then some ⟨kernel.reduction, kernel.tables⟩ else none

end CycleReductionKernel

namespace AddressReductionKernel

variable (kernel : AddressReductionKernel F)

def run (claim : F) (challenges : List F) : Except KernelError (PhaseRun F) :=
  PrecommittedTables.runRounds kernel.reduction.addressPhaseRounds
    kernel.reduction.addressPhaseTotalRounds kernel.tables 0 none claim challenges

def after (run : PhaseRun F) : AddressReductionKernel F := { kernel with tables := run.tables }

end AddressReductionKernel

end

end JoltWasm
