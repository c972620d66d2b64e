import JoltWasm.Claims.CycleRelations
import JoltWasm.Lib.LastWrite

/-!
# The argument for the registers

The read-write check of the registers ties the values that the cycles read and write to a grid of register
contents, and the value evaluation ties this grid to the increments before each cycle.  For selectors that are one-hot, both
hold for every challenge exactly when each read is the last write to its register.
-/

namespace JoltWasm.Stages

open Lib Finset Layout

/-- The columns of the registers: selectors and contents by register and cycle, the rest by cycle. -/
structure RegisterColumns (F : Type) where
  registersVal : ℕ → ℕ → F
  rs1Ra : ℕ → ℕ → F
  rs2Ra : ℕ → ℕ → F
  rdWa : ℕ → ℕ → F
  rdInc : ℕ → F
  rs1Value : ℕ → F
  rs2Value : ℕ → F
  rdWriteValue : ℕ → F

namespace RegisterColumns

variable {F : Type} [Field F] (columns : RegisterColumns F)

/-- The openings of the read-write check as evaluations; the increments do not read the address. -/
def readWritePolys (logT : ℕ) : RegistersReadWriteClaims (List F → F) where
  registersVal := extension (gridColumn logT columns.registersVal)
  rs1Ra := extension (gridColumn logT columns.rs1Ra)
  rs2Ra := extension (gridColumn logT columns.rs2Ra)
  rdWa := extension (gridColumn logT columns.rdWa)
  rdInc point := extension columns.rdInc (point.drop registerAddressBits)

def valEvaluationPolys (logT : ℕ) : RegistersValEvaluationOutputClaims (List F → F) where
  rdInc point := extension columns.rdInc (point.drop registerAddressBits)
  rdWa := extension (gridColumn logT columns.rdWa)

/-- The relations of the registers hold at every point and for every challenge. -/
structure Holds (d : ReadWriteDimensions) : Prop where
  readWrite : ∀ (gamma : F) (fixedCycle : List F), fixedCycle.length = d.logT →
    SumsTo (RegistersReadWriteChecking.rounds ⟨d⟩)
      (RegistersReadWriteChecking.summand ⟨d⟩ fixedCycle gamma (columns.readWritePolys d.logT))
      (RegistersReadWriteChecking.inputExpression gamma (extension columns.rdWriteValue fixedCycle)
        (extension columns.rs1Value fixedCycle) (extension columns.rs2Value fixedCycle))
  valEvaluation : ∀ registersVal : List F, registersVal.length = registerAddressBits + d.logT →
    SumsTo d.logT (RegistersValEvaluation.summand ⟨⟨d.logT⟩⟩ registersVal (columns.valEvaluationPolys d.logT))
      (RegistersValEvaluation.inputExpression (extension (gridColumn d.logT columns.registersVal) registersVal))

/-! ## The read-write check -/

/-- The value that a selector reads out of the contents. -/
def selected (selector : ℕ → ℕ → F) (j : ℕ) : F :=
  ∑ k ∈ range (2 ^ registerAddressBits), selector k j * columns.registersVal k j

/-- The value that a cycle leaves in its register. -/
def left (j : ℕ) : F :=
  ∑ k ∈ range (2 ^ registerAddressBits), columns.rdWa k j * (columns.registersVal k j + columns.rdInc j)

/-- The columns that the output side batches. -/
def batched : ℕ → ℕ → F
  | 0 => columns.left
  | 1 => columns.selected columns.rs1Ra
  | _ => columns.selected columns.rs2Ra

/-- The columns that the input side batches. -/
def claimed : ℕ → ℕ → F
  | 0 => columns.rdWriteValue
  | 1 => columns.rs1Value
  | _ => columns.rs2Value

theorem inputExpression_eq (gamma : F) (cycle : List F) :
    RegistersReadWriteChecking.inputExpression gamma (extension columns.rdWriteValue cycle)
      (extension columns.rs1Value cycle) (extension columns.rs2Value cycle) =
      ∑ i ∈ range 3, gamma ^ i * extension (columns.claimed i) cycle := by
  simp only [sum_range_succ, sum_range_zero, claimed, RegistersReadWriteChecking.inputExpression]
  ring

/-- The openings of the read-write check at an address and a cycle. -/
def openingsAt (logT : ℕ) (address cycle : List F) : RegistersReadWriteClaims F where
  registersVal := (columns.readWritePolys logT).registersVal (address ++ cycle)
  rs1Ra := (columns.readWritePolys logT).rs1Ra (address ++ cycle)
  rs2Ra := (columns.readWritePolys logT).rs2Ra (address ++ cycle)
  rdWa := (columns.readWritePolys logT).rdWa (address ++ cycle)
  rdInc := (columns.readWritePolys logT).rdInc (address ++ cycle)

variable {columns} {d : ReadWriteDimensions}

/-- At a corner of the cycles the addresses add up to the batch. -/
theorem cubeSum_openingsAt (gamma : F) {j : ℕ} (inside : j < 2 ^ d.logT) :
    cubeSum registerAddressBits (fun address => RegistersReadWriteChecking.outputExpression 1 gamma
      (columns.openingsAt d.logT address (bitPoint F d.logT j))) = ∑ i ∈ range 3, gamma ^ i * columns.batched i j := by
  rw [cubeSum_eq_sum, sum_range_succ, sum_range_succ, sum_range_one]
  simp only [batched, left, selected, mul_sum]
  rw [← sum_add_distrib, ← sum_add_distrib]
  refine sum_congr rfl fun k member => ?_
  have drop : (bitPoint F registerAddressBits k ++ bitPoint F d.logT j).drop registerAddressBits = bitPoint F d.logT j :=
    List.drop_left' (length_bitPoint _ _)
  simp only [RegistersReadWriteChecking.outputExpression, openingsAt, readWritePolys, drop,
    extension_gridColumn_corner _ _ inside, extension_bitPoint _ (mem_range.mp member), extension_bitPoint _ inside]
  ring

/-- The check sums to the batch of what the selectors pick. -/
theorem readWrite_sumsTo (fits : d.Fits) (width : d.logK = registerAddressBits) (gamma : F) {fixedCycle : List F}
    (length : fixedCycle.length = d.logT) : SumsTo (RegistersReadWriteChecking.rounds ⟨d⟩)
      (RegistersReadWriteChecking.summand ⟨d⟩ fixedCycle gamma (columns.readWritePolys d.logT))
      (∑ i ∈ range 3, gamma ^ i * extension (columns.batched i) fixedCycle) := by
  have window := ReadWriteDimensions.sumsTo_window
    (g := fun address cycle => RegistersReadWriteChecking.outputExpression (eqMle fixedCycle cycle) gamma
      (columns.openingsAt d.logT address cycle)) fits fun blocks =>
    RegistersReadWriteChecking.summand_window fits width length gamma (columns.readWritePolys d.logT) blocks
  refine (SumsTo.iff window _).mpr ?_
  have cell (cycle : List F) : cubeSum d.logK (fun address => RegistersReadWriteChecking.outputExpression
        (eqMle fixedCycle cycle) gamma (columns.openingsAt d.logT address cycle)) =
      eqMle fixedCycle cycle * cubeSum d.logK (fun address => RegistersReadWriteChecking.outputExpression 1 gamma
        (columns.openingsAt d.logT address cycle)) := by
    rw [← cubeSum_mul]
    refine cubeSum_congr fun address _ => ?_
    simp only [RegistersReadWriteChecking.outputExpression]
    ring
  have weights : ∀ j < 2 ^ d.logT, eqMle fixedCycle (bitPoint F d.logT j) = eqWeight fixedCycle j := fun j inside => by
    rw [eqMle_eq (length.trans (length_bitPoint _ _).symm), extension_bitPoint _ inside]
  rw [cubeSum_comm]
  simp only [cell]
  rw [cubeSum_weights length weights, width]
  simp only [← extension_mul, ← extension_sum]
  exact extension_congr fun j inside => (cubeSum_openingsAt gamma (length ▸ inside)).symm

theorem readWrite_iff (apart : Apart F 3) (fits : d.Fits) (width : d.logK = registerAddressBits) :
    (∀ (gamma : F) (fixedCycle : List F), fixedCycle.length = d.logT →
      SumsTo (RegistersReadWriteChecking.rounds ⟨d⟩)
        (RegistersReadWriteChecking.summand ⟨d⟩ fixedCycle gamma (columns.readWritePolys d.logT))
        (RegistersReadWriteChecking.inputExpression gamma (extension columns.rdWriteValue fixedCycle)
          (extension columns.rs1Value fixedCycle) (extension columns.rs2Value fixedCycle))) ↔
      ∀ j < 2 ^ d.logT, columns.rdWriteValue j = columns.left j ∧
        columns.rs1Value j = columns.selected columns.rs1Ra j ∧ columns.rs2Value j = columns.selected columns.rs2Ra j := by
  have batches := forall_batched_eq_iff (n := d.logT) apart (f := columns.claimed) (g := columns.batched)
  have three : (∀ i < 3, ∀ j < 2 ^ d.logT, columns.claimed i j = columns.batched i j) ↔
      ∀ j < 2 ^ d.logT, columns.rdWriteValue j = columns.left j ∧
        columns.rs1Value j = columns.selected columns.rs1Ra j ∧ columns.rs2Value j = columns.selected columns.rs2Ra j := by
    refine ⟨fun all j inside => ⟨all 0 (by omega) j inside, all 1 (by omega) j inside, all 2 (by omega) j inside⟩,
      fun each i small j inside => ?_⟩
    obtain rfl | rfl | rfl : i = 0 ∨ i = 1 ∨ i = 2 := by omega
    · exact (each j inside).1
    · exact (each j inside).2.1
    · exact (each j inside).2.2
  rw [← three, ← batches]
  refine forall_congr' fun gamma => forall_congr' fun fixedCycle => forall_congr' fun length => ?_
  rw [inputExpression_eq]
  exact SumsTo.iff (readWrite_sumsTo fits width gamma length) _

/-! ## The value evaluation -/

/-- The evaluation sums to the increments before the cycle. -/
theorem valEvaluation_sumsTo {address fixedCycle : List F} (width : address.length = registerAddressBits)
    (length : fixedCycle.length = d.logT) :
    SumsTo d.logT (RegistersValEvaluation.summand ⟨⟨d.logT⟩⟩ (address ++ fixedCycle) (columns.valEvaluationPolys d.logT))
      (extension (gridColumn d.logT (deposited (fun _ => 0) columns.rdWa columns.rdInc)) (address ++ fixedCycle)) := by
  have empty : deposited (fun _ => 0) columns.rdWa columns.rdInc = fun k t => ∑ j ∈ range t, columns.rdInc j * columns.rdWa k j := by
    funext k t
    rw [deposited, zero_add]
  rw [empty, ← cubeSum_deposits_before columns.rdWa columns.rdInc address length]
  refine sumsTo_reversed fun x drawn => ?_
  have drop : (address ++ x.reverse).drop registerAddressBits = x.reverse := List.drop_left' width
  refine (RegistersValEvaluation.summand_eq width length drawn _).trans (congrArg Except.ok ?_)
  simp only [RegistersValEvaluation.outputExpression, valEvaluationPolys, drop, mul_assoc]

theorem valEvaluation_iff :
    (∀ registersVal : List F, registersVal.length = registerAddressBits + d.logT →
      SumsTo d.logT (RegistersValEvaluation.summand ⟨⟨d.logT⟩⟩ registersVal (columns.valEvaluationPolys d.logT))
        (RegistersValEvaluation.inputExpression (extension (gridColumn d.logT columns.registersVal) registersVal))) ↔
      ∀ k < 2 ^ registerAddressBits, ∀ j < 2 ^ d.logT,
        columns.registersVal k j = deposited (fun _ => 0) columns.rdWa columns.rdInc k j := by
  rw [← forall_grid_eq_iff]
  constructor
  · intro holds address cycle width length
    exact (holds _ (by rw [List.length_append, width, length])).unique (valEvaluation_sumsTo width length)
  · intro same point total
    obtain ⟨address, cycle, rfl, width⟩ : ∃ address cycle, point = address ++ cycle ∧ address.length = registerAddressBits :=
      ⟨point.take registerAddressBits, point.drop registerAddressBits, (List.take_append_drop _ _).symm, by
        rw [List.length_take, total, Nat.min_eq_left (Nat.le_add_right _ _)]⟩
    rw [List.length_append, width] at total
    have length : cycle.length = d.logT := by omega
    rw [RegistersValEvaluation.inputExpression, same address cycle width length]
    exact valEvaluation_sumsTo width length

/-! ## What the registers hold -/

/-- The registers that the executed rows read and write. -/
structure Selects (columns : RegisterColumns F) (cycles : ℕ) (rs1 rs2 rd : ℕ → Option ℕ) : Prop where
  rs1Ra : ∀ j < cycles, HotColumn (2 ^ registerAddressBits) (fun k => columns.rs1Ra k j) (rs1 j)
  rs2Ra : ∀ j < cycles, HotColumn (2 ^ registerAddressBits) (fun k => columns.rs2Ra k j) (rs2 j)
  rdWa : ∀ j < cycles, HotColumn (2 ^ registerAddressBits) (fun k => columns.rdWa k j) (rd j)

/-- A run over registers that are zero at first: a read is the last write, and a row without a
destination writes zero. -/
structure Run (columns : RegisterColumns F) (cycles : ℕ) (rs1 rs2 rd : ℕ → Option ℕ) : Prop where
  val : ∀ k < 2 ^ registerAddressBits, ∀ j < cycles,
    columns.registersVal k j = lastWrite (fun _ => 0) rd columns.rdWriteValue j k
  rs1 : ∀ j < cycles, columns.rs1Value j = (rs1 j).elim 0 (lastWrite (fun _ => 0) rd columns.rdWriteValue j)
  rs2 : ∀ j < cycles, columns.rs2Value j = (rs2 j).elim 0 (lastWrite (fun _ => 0) rd columns.rdWriteValue j)
  none : ∀ j < cycles, rd j = none → columns.rdWriteValue j = 0
  inc : ∀ j < cycles, ∀ k, rd j = some k →
    columns.rdInc j = columns.rdWriteValue j - lastWrite (fun _ => 0) rd columns.rdWriteValue j k

/-- The relations of the registers hold for every challenge exactly when the columns are a run of the registers. -/
theorem holds_iff_run (apart : Apart F 3) (fits : d.Fits) (width : d.logK = registerAddressBits) {rs1 rs2 rd : ℕ → Option ℕ}
    (selects : columns.Selects (2 ^ d.logT) rs1 rs2 rd) : columns.Holds d ↔ columns.Run (2 ^ d.logT) rs1 rs2 rd := by
  have holds : columns.Holds d ↔ _ ∧ _ := ⟨fun h => ⟨h.readWrite, h.valEvaluation⟩, fun h => ⟨h.1, h.2⟩⟩
  rw [holds, readWrite_iff apart fits width, valEvaluation_iff]
  have read {selector : ℕ → ℕ → F} {register : Option ℕ} {j : ℕ}
      (hot : HotColumn (2 ^ registerAddressBits) (fun k => selector k j) register) :
      columns.selected selector j = register.elim 0 fun k => columns.registersVal k j := hot.sum _
  have left {j : ℕ} (inside : j < 2 ^ d.logT) :
      columns.left j = (rd j).elim 0 fun k => columns.registersVal k j + columns.rdInc j := (selects.rdWa j inside).sum _
  constructor
  · rintro ⟨reads, contents⟩
    have writes : ∀ j < 2 ^ d.logT, ∀ k, rd j = some k →
        columns.rdWriteValue j = deposited (fun _ => 0) columns.rdWa columns.rdInc k j + columns.rdInc j := by
      intro j inside k here
      rw [(reads j inside).1, left inside, here, Option.elim_some,
        contents k ((selects.rdWa j inside).inside k here) j inside]
    have val : ∀ k < 2 ^ registerAddressBits, ∀ j < 2 ^ d.logT,
        columns.registersVal k j = lastWrite (fun _ => 0) rd columns.rdWriteValue j k := fun k small j inside => by
      rw [contents k small j inside, deposited_eq_lastWrite selects.rdWa writes inside.le small]
    refine ⟨val, fun j inside => ?_, fun j inside => ?_, fun j inside cold => ?_, fun j inside k here => ?_⟩
    · have hot := selects.rs1Ra j inside
      rw [(reads j inside).2.1, read hot]
      cases register : rs1 j with
      | none => rfl
      | some k => exact val k (hot.inside k register) j inside
    · have hot := selects.rs2Ra j inside
      rw [(reads j inside).2.2, read hot]
      cases register : rs2 j with
      | none => rfl
      | some k => exact val k (hot.inside k register) j inside
    · rw [(reads j inside).1, left inside, cold, Option.elim_none]
    · have small := (selects.rdWa j inside).inside k here
      rw [(reads j inside).1, left inside, here, Option.elim_some, val k small j inside, add_sub_cancel_left]
  · intro run
    have writes := written_of_inc selects.rdWa run.inc
    refine ⟨fun j inside => ⟨?_, ?_, ?_⟩, fun k small j inside => ?_⟩
    · rw [left inside]
      cases here : rd j with
      | none => exact run.none j inside here
      | some k =>
          rw [Option.elim_some, run.inc j inside k here, run.val k ((selects.rdWa j inside).inside k here) j inside,
            add_sub_cancel]
    · have hot := selects.rs1Ra j inside
      rw [run.rs1 j inside, read hot]
      cases register : rs1 j with
      | none => rfl
      | some k => exact (run.val k (hot.inside k register) j inside).symm
    · have hot := selects.rs2Ra j inside
      rw [run.rs2 j inside, read hot]
      cases register : rs2 j with
      | none => rfl
      | some k => exact (run.val k (hot.inside k register) j inside).symm
    · rw [run.val k small j inside, deposited_eq_lastWrite selects.rdWa writes inside.le small]

end RegisterColumns

end JoltWasm.Stages
