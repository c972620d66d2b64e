import JoltWasm.Claims.CycleRelations
import JoltWasm.Lib.LastWrite

/-!
# The argument for the RAM

The read-write check, the address check and the value check of the RAM are over a grid of accesses.  When each
cycle of the grid is hot at one word or cold, they hold for every challenge exactly when the columns are a run of
a flat memory: each access is at the address of its word and reads the last write to it, and a cold cycle has
address zero and reads and writes zero.
-/

namespace JoltWasm.Stages

open Lib Finset Layout

/-- The columns of the RAM: contents and accesses by word and cycle, final contents by word, the rest by cycle. -/
structure RamColumns (F : Type) where
  ramVal : ℕ → ℕ → F
  ramRa : ℕ → ℕ → F
  ramInc : ℕ → F
  ramReadValue : ℕ → F
  ramWriteValue : ℕ → F
  ramAddress : ℕ → F
  ramValFinal : ℕ → F

/-- The verifier's decomposition of the initial memory at an address, with the opening of a committed image. -/
structure InitialEvaluations (F : Type) where
  init : List F → RamValCheckInit F
  programImage : List F → Option F

section

variable {F : Type} [Field F]

/-- The decomposition evaluates the words. -/
def InitialEvaluations.Evaluate (initial : InitialEvaluations F) (logK : ℕ) (words : ℕ → F) : Prop :=
  ∀ (d : TraceDimensions) (address : List F), address.length = logK →
    RamValCheck.initEval ⟨d, logK, initial.init address⟩ (initial.programImage address) = extension words address

namespace RamColumns

variable (columns : RamColumns F)

def readWritePolys (logK logT : ℕ) : RamReadWriteClaims (List F → F) where
  val := extension (gridColumn logT columns.ramVal)
  ra := extension (gridColumn logT columns.ramRa)
  inc point := extension columns.ramInc (point.drop logK)

def valCheckPolys (logK logT : ℕ) : RamValCheckOutputClaims (List F → F) where
  ramRa := extension (gridColumn logT columns.ramRa)
  ramInc point := extension columns.ramInc (point.drop logK)

def readWriteChecking (d : ReadWriteDimensions) (tauLow : List F) : RamReadWriteChecking F := ⟨d, d.logK, tauLow⟩

def rafEvaluation (shape : RamRafEvaluationDimensions) (tauLow : List F) : RamRafEvaluation F :=
  ⟨shape, shape.readWrite, shape.readWrite.logK, ramBase, tauLow⟩

def valCheck (d : ReadWriteDimensions) (initial : InitialEvaluations F) (address : List F) : RamValCheck F :=
  ⟨⟨d.logT⟩, d.logK, initial.init address⟩

/-- The relations over the grid of accesses hold at every point and for every challenge. -/
structure Holds (shape : RamRafEvaluationDimensions) (initial : InitialEvaluations F) : Prop where
  readWrite : ∀ (gamma : F) (tauLow : List F), tauLow.length = shape.readWrite.logT →
    SumsTo (readWriteChecking shape.readWrite tauLow).rounds ((readWriteChecking shape.readWrite tauLow).summand gamma
        (columns.readWritePolys shape.readWrite.logK shape.readWrite.logT))
      (RamReadWriteChecking.inputExpression gamma (extension columns.ramReadValue tauLow)
        (extension columns.ramWriteValue tauLow))
  raf : ∀ tauLow : List F, tauLow.length = shape.readWrite.logT →
    ∃ rounds claim, (rafEvaluation shape tauLow).rounds = .ok rounds ∧
      (rafEvaluation shape tauLow).inputExpression (extension columns.ramAddress tauLow) = .ok claim ∧
      SumsTo rounds ((rafEvaluation shape tauLow).summand (extension (gridColumn shape.readWrite.logT columns.ramRa))) claim
  valCheck : ∀ (gamma : F) (address cycle : List F), address.length = shape.readWrite.logK →
    cycle.length = shape.readWrite.logT →
    SumsTo shape.readWrite.logT ((valCheck shape.readWrite initial address).summand gamma (address ++ cycle)
        (columns.valCheckPolys shape.readWrite.logK shape.readWrite.logT))
      ((valCheck shape.readWrite initial address).inputExpression gamma
        ⟨extension (gridColumn shape.readWrite.logT columns.ramVal) (address ++ cycle), extension columns.ramValFinal address,
          initial.programImage address⟩)

/-! ## The read-write check -/

/-- The value that a cycle reads, and the one that it leaves. -/
def accessed (logK : ℕ) : ℕ → ℕ → F
  | 0, j => ∑ k ∈ range (2 ^ logK), columns.ramRa k j * columns.ramVal k j
  | _, j => ∑ k ∈ range (2 ^ logK), columns.ramRa k j * (columns.ramVal k j + columns.ramInc j)

def claimed : ℕ → ℕ → F
  | 0 => columns.ramReadValue
  | _ => columns.ramWriteValue

variable {columns} {d : ReadWriteDimensions}

/-- The sum over the addresses of what an access has to do with a cycle. -/
theorem accessSum_corner {logK logT : ℕ} {tauLow : List F} (length : tauLow.length = logT) (g : List F → List F → F) :
    accessSum logT logK (fun address cycle => eqMle tauLow cycle * g address cycle) =
      extension (fun j => ∑ k ∈ range (2 ^ logK), g (bitPoint F logK k) (bitPoint F logT j)) tauLow := by
  have weights : ∀ j < 2 ^ logT, eqMle tauLow (bitPoint F logT j) = eqWeight tauLow j := fun j inside => by
    rw [eqMle_eq (length.trans (length_bitPoint _ _).symm), extension_bitPoint _ inside]
  rw [accessSum, cubeSum_comm]
  simp only [cubeSum_mul]
  rw [cubeSum_weights length weights]
  exact extension_congr fun j _ => cubeSum_eq_sum _ _

theorem readWrite_sumsTo (fits : d.Fits) (gamma : F) {tauLow : List F} (length : tauLow.length = d.logT) :
    SumsTo (readWriteChecking d tauLow).rounds
      ((readWriteChecking d tauLow).summand gamma (columns.readWritePolys d.logK d.logT))
      (∑ i ∈ range 2, gamma ^ i * extension (columns.accessed d.logK i) tauLow) := by
  have window : SumsTo (readWriteChecking d tauLow).rounds
      ((readWriteChecking d tauLow).summand gamma (columns.readWritePolys d.logK d.logT))
      (accessSum d.logT d.logK fun address cycle => readTerm tauLow (columns.readWritePolys d.logK d.logT) address cycle +
        gamma * writeTerm tauLow (columns.readWritePolys d.logK d.logT) address cycle) :=
    ReadWriteDimensions.sumsTo_window fits fun blocks => except_bind_eq_ok.mpr ⟨_,
      @RamReadWriteChecking.deriveOpeningPoints_window F (readWriteChecking d tauLow) fits blocks,
      RamReadWriteChecking.expectedOutput_blocks fits length gamma (columns.readWritePolys d.logK d.logT) blocks⟩
  have read : accessSum d.logT d.logK (readTerm tauLow (columns.readWritePolys d.logK d.logT)) =
      extension (columns.accessed d.logK 0) tauLow := by
    refine (accessSum_corner length _).trans (extension_congr fun j inside => sum_congr rfl fun k member => ?_)
    rw [length] at inside
    simp only [readWritePolys, extension_gridColumn_corner _ _ inside, extension_bitPoint _ (mem_range.mp member)]
  have write : accessSum d.logT d.logK (writeTerm tauLow (columns.readWritePolys d.logK d.logT)) =
      extension (columns.accessed d.logK 1) tauLow := by
    refine (accessSum_corner length _).trans (extension_congr fun j inside => sum_congr rfl fun k member => ?_)
    rw [length] at inside
    have drop : (bitPoint F d.logK k ++ bitPoint F d.logT j).drop d.logK = bitPoint F d.logT j :=
      List.drop_left' (length_bitPoint _ _)
    simp only [readWritePolys, drop, extension_gridColumn_corner _ _ inside, extension_bitPoint _ (mem_range.mp member),
      extension_bitPoint _ inside]
  refine (SumsTo.iff window _).mpr ?_
  rw [accessSum_add, accessSum_mul, read, write, sum_range_succ, sum_range_one, pow_zero, one_mul, pow_one]

theorem readWrite_iff (fits : d.Fits) :
    (∀ (gamma : F) (tauLow : List F), tauLow.length = d.logT →
      SumsTo (readWriteChecking d tauLow).rounds
        ((readWriteChecking d tauLow).summand gamma (columns.readWritePolys d.logK d.logT))
        (RamReadWriteChecking.inputExpression gamma (extension columns.ramReadValue tauLow)
          (extension columns.ramWriteValue tauLow))) ↔
      ∀ j < 2 ^ d.logT, columns.ramReadValue j = columns.accessed d.logK 0 j ∧
        columns.ramWriteValue j = columns.accessed d.logK 1 j := by
  have batches := forall_batched_eq_iff (n := d.logT) apart_two (f := columns.claimed) (g := columns.accessed d.logK)
  have two : (∀ i < 2, ∀ j < 2 ^ d.logT, columns.claimed i j = columns.accessed d.logK i j) ↔
      ∀ j < 2 ^ d.logT, columns.ramReadValue j = columns.accessed d.logK 0 j ∧
        columns.ramWriteValue j = columns.accessed d.logK 1 j := by
    refine ⟨fun all j inside => ⟨all 0 (by omega) j inside, all 1 (by omega) j inside⟩, fun each i small j inside => ?_⟩
    obtain rfl | rfl : i = 0 ∨ i = 1 := by omega
    · exact (each j inside).1
    · exact (each j inside).2
  rw [← two, ← batches]
  refine forall_congr' fun gamma => forall_congr' fun tauLow => forall_congr' fun length => ?_
  have input : RamReadWriteChecking.inputExpression gamma (extension columns.ramReadValue tauLow)
      (extension columns.ramWriteValue tauLow) = ∑ i ∈ range 2, gamma ^ i * extension (columns.claimed i) tauLow := by
    rw [sum_range_succ, sum_range_one, pow_zero, one_mul, pow_one]
    rfl
  rw [input]
  exact SumsTo.iff (readWrite_sumsTo fits gamma length) _

/-! ## The address check -/

/-- The byte address of a word, in the field. -/
def wordAddress (k : ℕ) : F := k * 8 + (ramBase : F)

theorem byteAddress_corner {logK k : ℕ} (inside : k < 2 ^ logK) : byteAddress (bitPoint F logK k) = wordAddress k := by
  rw [byteAddress, identityEvaluate_eq, extension_bitPoint _ inside, wordAddress]

/-- The address that an access is at. -/
def unmapped (columns : RamColumns F) (logK j : ℕ) : F := ∑ k ∈ range (2 ^ logK), columns.ramRa k j * wordAddress k

theorem raf_sumsTo {shape : RamRafEvaluationDimensions} (fits : shape.readWrite.Fits) {tauLow : List F}
    (length : tauLow.length = shape.readWrite.logT) :
    SumsTo (shape.readWrite.logT + shape.readWrite.logK - shape.readWrite.phase1NumRounds)
      ((rafEvaluation shape tauLow).summand (extension (gridColumn shape.readWrite.logT columns.ramRa)))
      (2 ^ (shape.readWrite.logT - shape.readWrite.phase1NumRounds) *
        extension (columns.unmapped shape.readWrite.logK) tauLow) := by
  have addresses : (cubeSum shape.readWrite.logK fun address =>
      byteAddress address * extension (gridColumn shape.readWrite.logT columns.ramRa) (address ++ tauLow)) =
      extension (columns.unmapped shape.readWrite.logK) tauLow := by
    unfold unmapped
    rw [cubeSum_eq_sum, extension_sum]
    refine sum_congr rfl fun k member => ?_
    have inside := mem_range.mp member
    rw [byteAddress_corner inside, extension_gridColumn _ _ length, extension_bitPoint _ inside, ← extension_mul]
    exact extension_congr fun j _ => mul_comm _ _
  rw [← addresses]
  exact ReadWriteDimensions.sumsTo_tail fits fun blocks => except_bind_eq_ok.mpr ⟨_,
    @RamRafEvaluation.deriveOpeningPoints_tail F (rafEvaluation shape tauLow) fits rfl blocks,
    RamRafEvaluation.expectedOutput_blocks tauLow fits shape _ blocks⟩

theorem raf_iff (two : (2 : F) ≠ 0) {shape : RamRafEvaluationDimensions} (fits : shape.readWrite.Fits) :
    (∀ tauLow : List F, tauLow.length = shape.readWrite.logT →
      ∃ rounds claim, (rafEvaluation shape tauLow).rounds = .ok rounds ∧
        (rafEvaluation shape tauLow).inputExpression (extension columns.ramAddress tauLow) = .ok claim ∧
        SumsTo rounds ((rafEvaluation shape tauLow).summand (extension (gridColumn shape.readWrite.logT columns.ramRa))) claim) ↔
      ∀ j < 2 ^ shape.readWrite.logT, columns.ramAddress j = columns.unmapped shape.readWrite.logK j := by
  have first := fits.phase1
  have rounds (tauLow : List F) : (rafEvaluation shape tauLow).rounds =
      .ok (shape.readWrite.logT + shape.readWrite.logK - shape.readWrite.phase1NumRounds) :=
    VerifierStop.checkedSub_of_le (first.trans (Nat.le_add_right _ _))
  have claim (tauLow : List F) : (rafEvaluation shape tauLow).inputExpression (extension columns.ramAddress tauLow) =
      .ok (2 ^ (shape.readWrite.logT - shape.readWrite.phase1NumRounds) * extension columns.ramAddress tauLow) := by
    refine except_bind_eq_ok.mpr ⟨_, VerifierStop.checkedSub_of_le first, ?_⟩
    rw [pow2_eq]
    rfl
  rw [← forall_extension_eq_iff]
  refine forall_congr' fun tauLow => forall_congr' fun length => ?_
  constructor
  · rintro ⟨_, _, rounds_, claim_, sums⟩
    obtain rfl := Except.ok.inj (rounds_.symm.trans (rounds tauLow))
    obtain rfl := Except.ok.inj (claim_.symm.trans (claim tauLow))
    exact mul_left_cancel₀ (pow_ne_zero _ two) (sums.unique (raf_sumsTo fits length))
  · intro same
    refine ⟨_, _, rounds tauLow, claim tauLow, ?_⟩
    rw [same]
    exact raf_sumsTo fits length

/-! ## The value check -/

/-- The increments of a word before a cycle. -/
def deposits (columns : RamColumns F) (k t : ℕ) : F := ∑ j ∈ range t, columns.ramInc j * columns.ramRa k j

theorem valCheck_sumsTo (initial : InitialEvaluations F) (gamma : F) {address cycle : List F}
    (width : address.length = d.logK) (length : cycle.length = d.logT) :
    SumsTo d.logT ((valCheck d initial address).summand gamma (address ++ cycle) (columns.valCheckPolys d.logK d.logT))
      (extension (gridColumn d.logT columns.deposits) (address ++ cycle) +
        gamma * extension (fun k => columns.deposits k (2 ^ d.logT)) address) := by
  unfold deposits
  rw [← cubeSum_deposits_before columns.ramRa columns.ramInc address length,
    ← cubeSum_deposits columns.ramRa columns.ramInc address, ← cubeSum_mul, ← cubeSum_add]
  refine sumsTo_reversed fun x drawn => ?_
  have drop : (address ++ x.reverse).drop d.logK = x.reverse := List.drop_left' width
  refine (RamValCheck.summand_eq gamma width length drawn _).trans (congrArg Except.ok ?_)
  simp only [RamValCheck.outputExpression, valCheckPolys, drop]
  ring

theorem valCheck_iff {initial : InitialEvaluations F} {words : ℕ → F} (evaluate : initial.Evaluate d.logK words) :
    (∀ (gamma : F) (address cycle : List F), address.length = d.logK → cycle.length = d.logT →
      SumsTo d.logT ((valCheck d initial address).summand gamma (address ++ cycle) (columns.valCheckPolys d.logK d.logT))
        ((valCheck d initial address).inputExpression gamma
          ⟨extension (gridColumn d.logT columns.ramVal) (address ++ cycle), extension columns.ramValFinal address,
            initial.programImage address⟩)) ↔
      (∀ k < 2 ^ d.logK, ∀ j < 2 ^ d.logT, columns.ramVal k j = deposited words columns.ramRa columns.ramInc k j) ∧
        ∀ k < 2 ^ d.logK, columns.ramValFinal k = deposited words columns.ramRa columns.ramInc k (2 ^ d.logT) := by
  have grid {address cycle : List F} (length : cycle.length = d.logT) :
      extension (gridColumn d.logT (deposited words columns.ramRa columns.ramInc)) (address ++ cycle) =
        extension words address + extension (gridColumn d.logT columns.deposits) (address ++ cycle) := by
    rw [extension_gridColumn _ _ length, extension_gridColumn _ _ length, ← extension_add]
    refine extension_congr fun k _ => ?_
    rw [← mul_one (words k), ← extension_one cycle, ← extension_mul, ← extension_add]
    exact extension_congr fun j _ => by rw [mul_one, deposited, deposits]
  have final (address : List F) : extension (fun k => deposited words columns.ramRa columns.ramInc k (2 ^ d.logT)) address =
      extension words address + extension (fun k => columns.deposits k (2 ^ d.logT)) address := by
    rw [← extension_add]
    rfl
  have input {gamma : F} {address cycle : List F} (width : address.length = d.logK) :
      (valCheck d initial address).inputExpression gamma
        ⟨extension (gridColumn d.logT columns.ramVal) (address ++ cycle), extension columns.ramValFinal address,
          initial.programImage address⟩ =
        extension (gridColumn d.logT columns.ramVal) (address ++ cycle) + gamma * extension columns.ramValFinal address -
          (1 + gamma) * extension words address := by
    rw [RamValCheck.inputExpression]
    exact congrArg _ (congrArg _ (evaluate ⟨d.logT⟩ address width))
  rw [← forall_grid_eq_iff, ← forall_extension_eq_iff]
  constructor
  · intro holds
    have at_ (gamma : F) {address cycle : List F} (width : address.length = d.logK) (length : cycle.length = d.logT) :=
      (holds gamma address cycle width length).unique (valCheck_sumsTo initial gamma width length)
    refine ⟨fun address cycle width length => ?_, fun address width => ?_⟩
    · have zero := at_ 0 width length
      rw [input width] at zero
      rw [grid length]
      linear_combination zero
    · have zero := at_ 0 width (length_bitPoint d.logT 0)
      have one := at_ 1 width (length_bitPoint d.logT 0)
      rw [input width] at zero one
      rw [final]
      linear_combination one - zero
  · rintro ⟨contents, last⟩ gamma address cycle width length
    refine ((valCheck_sumsTo initial gamma width length).iff _).mpr ?_
    rw [input width, contents address cycle width length, last address width, grid length, final]
    ring

/-! ## What the memory holds -/

/-- A run of a flat memory over the words: an access reads the last write to its word, and a cycle without an
access has address zero and reads and writes zero. -/
structure Run (columns : RamColumns F) (logK cycles : ℕ) (words : ℕ → F) (place : ℕ → Option ℕ) : Prop where
  val : ∀ k < 2 ^ logK, ∀ j < cycles, columns.ramVal k j = lastWrite words place columns.ramWriteValue j k
  read : ∀ j < cycles, columns.ramReadValue j = (place j).elim 0 (lastWrite words place columns.ramWriteValue j)
  cold : ∀ j < cycles, place j = none → columns.ramWriteValue j = 0
  inc : ∀ j < cycles, ∀ k, place j = some k →
    columns.ramInc j = columns.ramWriteValue j - lastWrite words place columns.ramWriteValue j k
  address : ∀ j < cycles, columns.ramAddress j = (place j).elim 0 wordAddress
  final : ∀ k < 2 ^ logK, columns.ramValFinal k = lastWrite words place columns.ramWriteValue cycles k

/-- Over one-hot accesses the relations hold for every challenge exactly when the columns are a run of the memory. -/
theorem holds_iff_run (two : (2 : F) ≠ 0) {shape : RamRafEvaluationDimensions} (fits : shape.readWrite.Fits)
    {initial : InitialEvaluations F} {words : ℕ → F} (evaluate : initial.Evaluate shape.readWrite.logK words)
    {place : ℕ → Option ℕ}
    (hot : ∀ j < 2 ^ shape.readWrite.logT, HotColumn (2 ^ shape.readWrite.logK) (fun k => columns.ramRa k j) (place j)) :
    columns.Holds shape initial ↔ columns.Run shape.readWrite.logK (2 ^ shape.readWrite.logT) words place := by
  have holds : columns.Holds shape initial ↔ _ ∧ _ ∧ _ :=
    ⟨fun h => ⟨h.readWrite, h.raf, h.valCheck⟩, fun h => ⟨h.1, h.2.1, h.2.2⟩⟩
  rw [holds, readWrite_iff fits, raf_iff two fits, valCheck_iff evaluate]
  have read {j : ℕ} (inside : j < 2 ^ shape.readWrite.logT) : columns.accessed shape.readWrite.logK 0 j =
      (place j).elim 0 fun k => columns.ramVal k j := (hot j inside).sum _
  have write {j : ℕ} (inside : j < 2 ^ shape.readWrite.logT) : columns.accessed shape.readWrite.logK 1 j =
      (place j).elim 0 fun k => columns.ramVal k j + columns.ramInc j := (hot j inside).sum _
  have unmap {j : ℕ} (inside : j < 2 ^ shape.readWrite.logT) : columns.unmapped shape.readWrite.logK j =
      (place j).elim 0 wordAddress := (hot j inside).sum _
  constructor
  · rintro ⟨accesses, addresses, contents, last⟩
    have writes : ∀ j < 2 ^ shape.readWrite.logT, ∀ k, place j = some k →
        columns.ramWriteValue j = deposited words columns.ramRa columns.ramInc k j + columns.ramInc j := by
      intro j inside k here
      rw [(accesses j inside).2, write inside, here, Option.elim_some, contents k ((hot j inside).inside k here) j inside]
    have val : ∀ k < 2 ^ shape.readWrite.logK, ∀ j < 2 ^ shape.readWrite.logT,
        columns.ramVal k j = lastWrite words place columns.ramWriteValue j k := fun k small j inside => by
      rw [contents k small j inside, deposited_eq_lastWrite hot writes inside.le small]
    refine ⟨val, fun j inside => ?_, fun j inside cold => ?_, fun j inside k here => ?_, fun j inside => ?_,
      fun k small => ?_⟩
    · rw [(accesses j inside).1, read inside]
      cases here : place j with
      | none => rfl
      | some k => exact val k ((hot j inside).inside k here) j inside
    · rw [(accesses j inside).2, write inside, cold, Option.elim_none]
    · rw [(accesses j inside).2, write inside, here, Option.elim_some, val k ((hot j inside).inside k here) j inside,
        add_sub_cancel_left]
    · rw [addresses j inside, unmap inside]
    · rw [last k small, deposited_eq_lastWrite hot writes le_rfl small]
  · intro run
    have writes := written_of_inc hot run.inc
    refine ⟨fun j inside => ⟨?_, ?_⟩, fun j inside => ?_, fun k small j inside => ?_, fun k small => ?_⟩
    · rw [run.read j inside, read inside]
      cases here : place j with
      | none => rfl
      | some k => exact (run.val k ((hot j inside).inside k here) j inside).symm
    · rw [write inside]
      cases here : place j with
      | none => exact run.cold j inside here
      | some k =>
          rw [Option.elim_some, run.inc j inside k here, run.val k ((hot j inside).inside k here) j inside, add_sub_cancel]
    · rw [run.address j inside, unmap inside]
    · rw [run.val k small j inside, deposited_eq_lastWrite hot writes inside.le small]
    · rw [run.final k small, deposited_eq_lastWrite hot writes le_rfl small]

end RamColumns

end

end JoltWasm.Stages
