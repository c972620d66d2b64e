import Mathlib.Algebra.Module.Basic
import Mathlib.Algebra.Field.Basic
import Mathlib.Algebra.BigOperators.Group.List.Basic
import JoltWasm.Lib.Keeps

/-!
# Relaxed instances and witnesses

The relaxed form of a constraint system, `A z ∘ B z = u · C z + E` with `z = (u, W)`, the error rows
the prover computes, and the folds of instances and witnesses.
-/

namespace JoltWasm.Blindfold

/-- A length or dimension that a fold refuses. -/
inductive RelaxedError where
  | lengthMismatch (name : String) (expected actual : ℕ)
  deriving DecidableEq

inductive ProverError where
  | lengthMismatch (name : String) (expected actual : ℕ)
  | witnessRowLengthMismatch (row expected actual : ℕ)
  | commitmentCapacityExceeded (name : String) (capacity rowLen : ℕ)
  | invalidPowerOfTwo (name : String) (value : ℕ)
  | dimensionOverflow (name : String) (value : ℕ)
  deriving DecidableEq

/-- A sparse row: columns with their coefficients. -/
abbrev SparseRow (F : Type) := List (ℕ × F)

/-- The matrices of a constraint system, one sparse row for each constraint. -/
structure ConstraintMatrices (F : Type) where
  numConstraints : ℕ
  numVars : ℕ
  a : List (SparseRow F)
  b : List (SparseRow F)
  c : List (SparseRow F)
  length_a : a.length = numConstraints
  length_b : b.length = numConstraints
  length_c : c.length = numConstraints
  columns : ∀ rows ∈ [a, b, c], ∀ row ∈ rows, ∀ term ∈ row, term.1 < numVars

section Prover

variable {F : Type} [Field F]

/-- `checked_log2_power_of_two`. -/
def log2PowerOfTwo (name : String) (value : ℕ) : Except ProverError ℕ :=
  if 2 ^ Nat.log2 value = value then .ok (Nat.log2 value)
  else .error (.invalidPowerOfTwo name value)

def ensureLen (name : String) (expected actual : ℕ) : Except ProverError Unit :=
  if expected ≠ actual then .error (.lengthMismatch name expected actual) else .ok ()

def zVector (u : F) (witness : List F) : List F := u :: witness

/-- The inner product of a sparse row; its columns are below the length of `witness`. -/
def dot (row : SparseRow F) (witness : List F) : F :=
  (row.map fun (column, coefficient) => coefficient * witness.getD column 0).sum

def padToLen (name : String) (values : List F) (targetLen : ℕ) : Except ProverError (List F) :=
  if values.length > targetLen then .error (.lengthMismatch name targetLen values.length)
  else .ok (values ++ List.replicate (targetLen - values.length) 0)

/-- `values.chunks(len)` of `count * len` values. -/
def chunks {α : Type} (len : ℕ) : ℕ → List α → List (List α)
  | 0, _ => []
  | count + 1, values => values.take len :: chunks len count (values.drop len)

/-- One value for each constraint, padded with zeros and cut into rows. -/
def constraintRows (name : String) (m : ConstraintMatrices F)
    (value : SparseRow F → SparseRow F → SparseRow F → F) (rowCount rowLen : ℕ) :
    Except ProverError (List (List F)) := do
  let _ ← log2PowerOfTwo "error row length" rowLen
  if rowCount * rowLen ≥ 2 ^ 64 then .error (.dimensionOverflow name rowCount)
  let errors := ((m.a.zip m.b).zip m.c).map fun ((a, b), c) => value a b c
  let errors ← padToLen name errors (rowCount * rowLen)
  return chunks rowLen rowCount errors

/-- The error rows of a witness. -/
def errorRowsFor (m : ConstraintMatrices F) (u : F) (witness : List F) (rowCount rowLen : ℕ) :
    Except ProverError (List (List F)) :=
  let z := zVector u witness
  constraintRows "error values" m (fun a b c => dot a z * dot b z - u * dot c z) rowCount rowLen

/-- The cross-term error rows of two witnesses. -/
def crossTermErrorRowsFor (m : ConstraintMatrices F) (realU : F) (realWitness : List F)
    (randomU : F) (randomWitness : List F) (rowCount rowLen : ℕ) :
    Except ProverError (List (List F)) :=
  let realZ := zVector realU realWitness
  let randomZ := zVector randomU randomWitness
  constraintRows "cross-term error values" m (fun a b c => dot a realZ * dot b randomZ +
    dot a randomZ * dot b realZ - realU * dot c randomZ - randomU * dot c realZ) rowCount rowLen

/-- `real + challenge * random`, entry by entry. -/
def foldValues (challenge : F) (real random : List F) : List F :=
  List.zipWith (fun real random => real + challenge * random) real random

/-- `real + challenge * cross + challenge² * random`, entry by entry. -/
def foldErrorValues (challenge : F) (real cross random : List F) : List F :=
  List.zipWith (fun (real, cross) random => real + challenge * cross + challenge * challenge * random)
    (real.zip cross) random

/-- Fold rows of the same lengths; `row` is the index of the first one. -/
def foldRowsFrom (challenge : F) (row : ℕ) : List (List F) → List (List F) →
    Except ProverError (List (List F))
  | real :: reals, random :: randoms => do
      if real.length ≠ random.length then
        .error (.witnessRowLengthMismatch row real.length random.length)
      let folded ← foldRowsFrom challenge (row + 1) reals randoms
      return foldValues challenge real random :: folded
  | _, _ => .ok []

def foldRows (real random : List (List F)) (challenge : F) : Except ProverError (List (List F)) := do
  ensureLen "random witness rows" real.length random.length
  foldRowsFrom challenge 0 real random

def foldScalars (name : String) (real random : List F) (challenge : F) :
    Except ProverError (List F) := do
  ensureLen name real.length random.length
  return foldValues challenge real random

def foldErrorRowsFrom (challenge : F) (row : ℕ) : List (List F) → List (List F) → List (List F) →
    Except ProverError (List (List F))
  | real :: reals, cross :: crosses, random :: randoms => do
      if real.length ≠ cross.length then
        .error (.witnessRowLengthMismatch row real.length cross.length)
      if real.length ≠ random.length then
        .error (.witnessRowLengthMismatch row real.length random.length)
      let folded ← foldErrorRowsFrom challenge (row + 1) reals crosses randoms
      return foldErrorValues challenge real cross random :: folded
  | _, _, _ => .ok []

def foldErrorRows (real cross random : List (List F)) (challenge : F) :
    Except ProverError (List (List F)) := do
  ensureLen "cross-term error rows" real.length cross.length
  ensureLen "random error rows" real.length random.length
  foldErrorRowsFrom challenge 0 real cross random

def foldErrorScalars (name : String) (real cross random : List F) (challenge : F) :
    Except ProverError (List F) := do
  ensureLen name real.length cross.length
  ensureLen name real.length random.length
  return foldErrorValues challenge real cross random

/-- What the prover holds of a relaxed witness: rows with their blindings, and the evaluation
outputs. -/
structure RelaxedRows (F : Type) where
  u : F
  witness : List (List F)
  witnessBlindings : List F
  error : List (List F)
  errorBlindings : List F
  evalOutputs : List F
  evalBlindings : List F

/-- The prover's fold. -/
def RelaxedRows.fold (real random : RelaxedRows F) (cross : List (List F)) (crossBlindings : List F)
    (challenge : F) : Except ProverError (RelaxedRows F) := do
  let u := real.u + challenge * random.u
  let witness ← foldRows real.witness random.witness challenge
  let witnessBlindings ← foldScalars "folded witness blindings" real.witnessBlindings
    random.witnessBlindings challenge
  let error ← foldErrorRows real.error cross random.error challenge
  let errorBlindings ← foldErrorScalars "folded error blindings" real.errorBlindings crossBlindings
    random.errorBlindings challenge
  let evalOutputs ← foldScalars "folded eval outputs" real.evalOutputs random.evalOutputs challenge
  let evalBlindings ← foldScalars "folded eval blindings" real.evalBlindings random.evalBlindings
    challenge
  return ⟨u, witness, witnessBlindings, error, errorBlindings, evalOutputs, evalBlindings⟩

end Prover

/-! ## Witnesses and instances -/

namespace RelaxedError

def ensureLen (name : String) (expected actual : ℕ) : Except RelaxedError Unit :=
  if expected ≠ actual then .error (.lengthMismatch name expected actual) else .ok ()

end RelaxedError

/-- A relaxed witness, its rows flattened. -/
structure RelaxedWitness (F : Type) where
  witnessRows : List F
  witnessRowBlindings : List F
  errorRows : List F
  errorRowBlindings : List F

def RelaxedWitness.fold {F : Type} [Field F] (self random : RelaxedWitness F)
    (crossTermErrorRows crossTermErrorRowBlindings : List F) (foldingChallenge : F) :
    Except RelaxedError (RelaxedWitness F) := do
  RelaxedError.ensureLen "random witness rows" self.witnessRows.length random.witnessRows.length
  RelaxedError.ensureLen "random witness row blindings" self.witnessRowBlindings.length
    random.witnessRowBlindings.length
  RelaxedError.ensureLen "random error rows" self.errorRows.length random.errorRows.length
  RelaxedError.ensureLen "cross-term error rows" self.errorRows.length crossTermErrorRows.length
  RelaxedError.ensureLen "random error row blindings" self.errorRowBlindings.length
    random.errorRowBlindings.length
  RelaxedError.ensureLen "cross-term error row blindings" self.errorRowBlindings.length
    crossTermErrorRowBlindings.length
  return {
    witnessRows := foldValues foldingChallenge self.witnessRows random.witnessRows
    witnessRowBlindings :=
      foldValues foldingChallenge self.witnessRowBlindings random.witnessRowBlindings
    errorRows :=
      foldErrorValues foldingChallenge self.errorRows crossTermErrorRows random.errorRows
    errorRowBlindings := foldErrorValues foldingChallenge self.errorRowBlindings
      crossTermErrorRowBlindings random.errorRowBlindings }

/-- The relaxed witness of the prover's rows. -/
def RelaxedRows.flatten {F : Type} (rows : RelaxedRows F) : RelaxedWitness F :=
  ⟨rows.witness.flatten, rows.witnessBlindings, rows.error.flatten, rows.errorBlindings⟩

/-- The public side: commitments of rows. -/
structure RelaxedInstance (F Com : Type) where
  u : F
  witnessRowCommitments : List Com
  errorRowCommitments : List Com
  evalCommitments : List Com

section Commitments

variable {F G : Type} [Field F] [AddCommGroup G] [Module F G]

/-- `c1 + scalar * c2`. -/
def linearCombine (c1 c2 : G) (scalar : F) : G := c1 + scalar • c2

def RelaxedInstance.fold (self random : RelaxedInstance F G)
    (crossTermErrorRowCommitments : List G) (foldingChallenge : F) :
    Except RelaxedError (RelaxedInstance F G) := do
  RelaxedError.ensureLen "random witness row commitments" self.witnessRowCommitments.length
    random.witnessRowCommitments.length
  RelaxedError.ensureLen "random error row commitments" self.errorRowCommitments.length
    random.errorRowCommitments.length
  RelaxedError.ensureLen "cross-term error row commitments" self.errorRowCommitments.length
    crossTermErrorRowCommitments.length
  RelaxedError.ensureLen "random eval commitments" self.evalCommitments.length
    random.evalCommitments.length
  let rSquared := foldingChallenge * foldingChallenge
  return {
    u := self.u + foldingChallenge * random.u
    witnessRowCommitments := List.zipWith (linearCombine · · foldingChallenge)
      self.witnessRowCommitments random.witnessRowCommitments
    errorRowCommitments := List.zipWith
      (fun (real, crossTerm) random =>
        linearCombine (linearCombine real crossTerm foldingChallenge) random rSquared)
      (self.errorRowCommitments.zip crossTermErrorRowCommitments) random.errorRowCommitments
    evalCommitments := List.zipWith (linearCombine · · foldingChallenge)
      self.evalCommitments random.evalCommitments }

/-- The generators of a Pedersen commitment. -/
structure PedersenSetup (G : Type) where
  messageGenerators : List G
  blindingGenerator : G
  nonempty : messageGenerators ≠ []

namespace PedersenSetup

variable (setup : PedersenSetup G)

def capacity : ℕ := setup.messageGenerators.length

/-- `Σ values[i] · messageGenerators[i] + blinding · blindingGenerator`; the source asserts that
`values` fits the capacity. -/
def commit (values : List F) (blinding : F) : G :=
  (List.zipWith (fun generator value => value • generator) setup.messageGenerators values).sum +
    blinding • setup.blindingGenerator

/-- Commit to each row. -/
def commitRows (rows : List (List F)) (blindings : List F) (name : String) :
    Except ProverError (List G) := do
  ensureLen name rows.length blindings.length
  match rows.find? fun row => row.length > setup.capacity with
  | some row => .error (.commitmentCapacityExceeded name setup.capacity row.length)
  | none => .ok (List.zipWith setup.commit rows blindings)

end PedersenSetup

end Commitments

end JoltWasm.Blindfold
