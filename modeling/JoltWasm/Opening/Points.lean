import JoltWasm.Claims.Schedule
import JoltWasm.Opening.FinalPoint

/-!
# The unified point lists the challenges of the reference rounds

Whatever dominates the grid, the point of the joint opening is the challenges of all rounds, in the order
of the reference; each polynomial is opened at the challenges of its own rounds.
-/

namespace JoltWasm

open Lib

/-! ## Reversed ranges -/

@[simp] theorem length_rangeRev (start end_ : ℕ) : (rangeRev start end_).length = end_ - start := by
  rw [rangeRev, List.length_reverse, List.length_range']

theorem rangeRev_self (start : ℕ) : rangeRev start start = [] := by
  rw [← List.length_eq_zero_iff, length_rangeRev, Nat.sub_self]

theorem rangeRev_split {start middle end_ : ℕ} (low : start ≤ middle) (high : middle ≤ end_) :
    rangeRev start end_ = rangeRev middle end_ ++ rangeRev start middle := by
  rw [rangeRev, rangeRev, rangeRev, ← List.reverse_append]
  have after : middle = start + 1 * (middle - start) := by omega
  have whole : end_ - start = (middle - start) + (end_ - middle) := by omega
  conv_rhs => rw [show List.range' middle (end_ - middle) =
    List.range' (start + 1 * (middle - start)) (end_ - middle) by rw [← after]]
  rw [List.range'_append, ← whole]

/-! ## Geometry -/

/-- The dimensions of an opening: the address chunks are not empty. -/
structure OpeningGeometry where
  logT : ℕ
  logKChunk : ℕ
  order : TracePolynomialOrder
  families : List PrecommittedFamily
  chunk : 0 < logKChunk

namespace OpeningGeometry

variable (geometry : OpeningGeometry)

def reference : PrecommittedSchedulingReference :=
  PrecommittedClaimReduction.schedulingReferenceOf (geometry.logT + geometry.logKChunk)
    (geometry.families.map (·.totalVars)) geometry.logKChunk

def totalVars : ℕ := geometry.reference.referenceTotalVars

/-- The cycle rounds; the address rounds follow them. -/
def cycleRounds : ℕ := geometry.reference.cycleAlignmentRounds

/-- The cycle rounds before those of the trace. -/
def extraRounds : ℕ := geometry.cycleRounds - geometry.logT

def grid : CommitmentGrid := ⟨geometry.totalVars, geometry.logT, geometry.logKChunk, geometry.order⟩

/-- The rounds of the unified point. -/
def pointRounds : List ℕ :=
  let dominance := decide (geometry.reference.mainTotalVars < geometry.reference.referenceTotalVars)
  PrecommittedClaimReduction.referenceDoryOpeningRoundPermutationBe geometry.reference geometry.order
    dominance (if dominance then geometry.logT else 0)

/-- The rounds of the opening point of a family. -/
def familyRounds (totalVars : ℕ) : List ℕ :=
  let shape := CommitmentMatrixShape.balanced totalVars
  let full := CommitmentMatrixShape.balanced geometry.totalVars
  (geometry.pointRounds.take full.rowVars).drop (full.rowVars - shape.rowVars) ++
    (geometry.pointRounds.drop full.rowVars).drop (full.columnVars - shape.columnVars)

theorem main_le : geometry.logT + geometry.logKChunk ≤ geometry.totalVars := le_max_left _ _

theorem cycleRounds_add : geometry.cycleRounds + geometry.logKChunk = geometry.totalVars :=
  Nat.sub_add_cancel (le_trans (Nat.le_add_left _ _) geometry.main_le)

theorem logT_le : geometry.logT ≤ geometry.cycleRounds := by
  have := geometry.main_le
  have := geometry.cycleRounds_add
  omega

theorem extraRounds_add : geometry.extraRounds + geometry.logT = geometry.cycleRounds :=
  Nat.sub_add_cancel geometry.logT_le

/-- Extra rounds, address rounds and cycle rounds of the trace, in the order of the trace. -/
theorem pointRounds_eq : geometry.pointRounds =
    match geometry.order with
    | .cycleMajor => rangeRev 0 geometry.extraRounds ++
        rangeRev geometry.cycleRounds geometry.totalVars ++
          rangeRev geometry.extraRounds geometry.cycleRounds
    | .addressMajor => rangeRev geometry.extraRounds geometry.cycleRounds ++
        rangeRev geometry.cycleRounds geometry.totalVars ++ rangeRev 0 geometry.extraRounds := by
  have total : geometry.reference.cycleAlignmentRounds + geometry.reference.addressRounds =
      geometry.totalVars := geometry.cycleRounds_add
  have below : geometry.cycleRounds ≤ geometry.totalVars := by
    have := geometry.cycleRounds_add
    omega
  unfold pointRounds
  by_cases wider : geometry.reference.mainTotalVars < geometry.reference.referenceTotalVars
  · have dense : min geometry.logT geometry.reference.cycleAlignmentRounds = geometry.logT :=
      min_eq_left geometry.logT_le
    simp only [wider, decide_true, if_true,
      PrecommittedClaimReduction.referenceDoryOpeningRoundPermutationBe, dense, total]
    rfl
  · have equal : geometry.logT + geometry.logKChunk = geometry.totalVars :=
      le_antisymm geometry.main_le (Nat.not_lt.mp wider)
    have none : geometry.extraRounds = 0 := by
      have := geometry.cycleRounds_add
      have := geometry.extraRounds_add
      omega
    simp only [wider, decide_false, Bool.false_eq_true, if_false,
      PrecommittedClaimReduction.referenceDoryOpeningRoundPermutationBe, total, none, rangeRev_self,
      List.nil_append, List.append_nil]
    cases geometry.order with
    | cycleMajor => exact rangeRev_split (Nat.zero_le _) below
    | addressMajor => rfl

@[simp] theorem length_pointRounds : geometry.pointRounds.length = geometry.totalVars := by
  have := geometry.cycleRounds_add
  have := geometry.extraRounds_add
  rw [pointRounds_eq]
  cases geometry.order <;> simp only [List.length_append, length_rangeRev] <;> omega

/-! ## Schedules -/

variable {geometry} {dimensions : PrecommittedClaimReduction} {n : ℕ}

/-- A schedule of the geometry. -/
structure Dimensions (geometry : OpeningGeometry) (n : ℕ) (dimensions : PrecommittedClaimReduction) :
    Prop where
  rounds : dimensions.polyOpeningRoundPermutationBe = geometry.familyRounds n
  scheduled : dimensions.Scheduled
  cycle : dimensions.cycleAlignmentRounds = geometry.cycleRounds
  address : dimensions.addressPhaseTotalRounds = geometry.logKChunk

end OpeningGeometry

end JoltWasm
