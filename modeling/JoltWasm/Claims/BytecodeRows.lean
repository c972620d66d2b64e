import Mathlib.Algebra.BigOperators.Fin
import Mathlib.Data.List.Iterate
import JoltWasm.Claims.BytecodeLanes

/-!
# The lanes of a row add up to its stage values

Each update of the lane weights meets the value of one lane, and the values of the lanes are the
attributes of the row.
-/

namespace JoltWasm

open Lib

/-- Every register id names one of the lanes of its block, or none. -/
structure BytecodeRow.RegistersInRange (row : BytecodeRow) : Prop where
  rs1 : row.rs1 = registerNone ∨ row.rs1 < laneRegisterCount
  rs2 : row.rs2 = registerNone ∨ row.rs2 < laneRegisterCount
  rd : row.rd = registerNone ∨ row.rd < laneRegisterCount

theorem registerId_inRange (reg : Option Reg) :
    registerId reg = registerNone ∨ registerId reg < laneRegisterCount := by
  cases reg with
  | none => exact Or.inl rfl
  | some r => exact Or.inr (r.isLt.trans_le (by decide))

theorem BytecodeRow.fromSpec_registersInRange (spec : RowSpec) :
    (BytecodeRow.fromSpec spec).RegistersInRange :=
  ⟨registerId_inRange _, registerId_inRange _, registerId_inRange _⟩

namespace BytecodeLaneLayout

theorem rs1Start_eq : bytecodeLaneLayout.rs1Start = 0 := rfl

theorem rs2Start_eq : bytecodeLaneLayout.rs2Start = 128 := rfl

theorem rdStart_eq : bytecodeLaneLayout.rdStart = 256 := rfl

theorem pcIdx_eq : bytecodeLaneLayout.pcIdx = 384 := rfl

theorem immIdx_eq : bytecodeLaneLayout.immIdx = 385 := rfl

theorem flagStart_eq : bytecodeLaneLayout.flagStart = 386 := rfl

theorem lookupStart_eq : bytecodeLaneLayout.lookupStart = 401 := rfl

theorem rafFlagIdx_eq : bytecodeLaneLayout.rafFlagIdx = 425 := rfl

end BytecodeLaneLayout

theorem committedLaneVars_eq : committedLaneVars = 9 := by
  refine le_antisymm (Nat.clog_le_of_le_pow (by decide)) ?_
  exact (Nat.lt_clog_iff_pow_lt one_lt_two).mpr (by decide : 2 ^ 8 < totalLanes)

theorem committedBytecodeLaneCapacity_eq : committedBytecodeLaneCapacity = 512 := by
  rw [committedBytecodeLaneCapacity, committedLaneVars_eq]
  rfl

theorem WasmTable.index_lt (t : WasmTable) : t.index < WasmTable.count := by
  cases t <;> decide

theorem RowFlag.getElem_bit (flag : RowFlag) : RowFlag.all[flag.bit]? = some flag := by
  cases flag <;> rfl

variable {F : Type} [Field F]

/-! ## The values of the lanes -/

theorem hits_register (start id lane : ℕ) :
    hits (if id ≠ registerNone then [(start + id, (1 : F))] else []) lane =
      if id ≠ registerNone ∧ start + id = lane then 1 else 0 := by
  by_cases some : id ≠ registerNone
  · simp [some, hits_singleton]
  · simp [some]

theorem hits_nonzero [DecidableEq F] (i : ℕ) (v : F) (lane : ℕ) :
    hits (if v = 0 then [] else [(i, v)]) lane = if i = lane then v else 0 := by
  by_cases zero : v = 0
  · simp [zero]
  · rw [if_neg zero, hits_singleton]

/-- Indexed flags stand at their positions. -/
theorem hits_flags (has : RowFlag → Bool) (flags : List RowFlag) (k start lane : ℕ) :
    hits ((flags.zipIdx k).filterMap fun (flag, index) =>
        if has flag then some (start + index, (1 : F)) else none) lane =
      if start + k ≤ lane ∧ (flags[lane - (start + k)]?.any has) then 1 else 0 := by
  induction flags generalizing k with
  | nil => simp
  | cons flag flags ih =>
      have step : hits (((flag :: flags).zipIdx k).filterMap fun (flag, index) =>
            if has flag then some (start + index, (1 : F)) else none) lane =
          (if has flag ∧ start + k = lane then 1 else 0) +
            hits ((flags.zipIdx (k + 1)).filterMap fun (flag, index) =>
              if has flag then some (start + index, (1 : F)) else none) lane := by
        rw [List.zipIdx_cons]
        by_cases set : has flag = true <;> simp [set, hits_cons]
      rw [step, ih]
      rcases Nat.lt_trichotomy lane (start + k) with low | rfl | high
      · rw [if_neg (by omega), if_neg (by omega), if_neg (by omega), add_zero]
      · rw [if_neg (by omega : ¬ (start + (k + 1) ≤ start + k ∧ _)), Nat.sub_self]
        simp
      · have index : lane - (start + k) = lane - (start + (k + 1)) + 1 := by omega
        have above : start + (k + 1) ≤ lane ↔ start + k ≤ lane := by omega
        rw [if_neg (by omega : ¬ (_ ∧ start + k = lane)), zero_add, index, List.getElem?_cons_succ]
        simp only [above]

theorem hits_option (table : Option ℕ) (start lane : ℕ) :
    hits (table.toList.map fun t => (start + t, (1 : F))) lane =
      if table.map (start + ·) = some lane then 1 else 0 := by
  cases table <;> simp [hits_singleton]

/-- The value of a lane of a row. -/
theorem hits_activeLaneValues [DecidableEq F] (pc : ℕ) (row : BytecodeRow) (lane : ℕ) :
    hits (activeLaneValues pc row) lane =
      (if row.rs1 ≠ registerNone ∧ 0 + row.rs1 = lane then 1 else 0) +
      (if row.rs2 ≠ registerNone ∧ 128 + row.rs2 = lane then 1 else 0) +
      (if row.rd ≠ registerNone ∧ 256 + row.rd = lane then 1 else 0) +
      (if 384 = lane then (pc : F) else 0) + (if 385 = lane then (row.immSigned : F) else 0) +
      (if 386 ≤ lane ∧ (RowFlag.all[lane - 386]?.any row.flags.has) then 1 else 0) +
      (if (bytecodeTableId row).map (401 + ·) = some lane then 1 else 0) +
      (if row.rafFlag ∧ 425 = lane then 1 else 0) := by
  have raf : hits (if row.rafFlag then [(425, (1 : F))] else []) lane =
      if row.rafFlag ∧ 425 = lane then 1 else 0 := by
    by_cases set : row.rafFlag = true
    · simp [set, hits_singleton]
    · simp [set]
  unfold activeLaneValues
  simp only [hits_append]
  rw [hits_register, hits_register, hits_register, hits_nonzero, hits_nonzero, hits_flags, hits_option]
  exact congrArg _ raf

/-! ## The lane weights -/

/-- The updates of the lane weights, in order. -/
def laneWeightUpdates (eta : F) (gammas : StageGammas F) (readWriteEq valEvaluationEq : List F) :
    List (ℕ × F) :=
  ((385, gammas.stage1.getD 0 0) ::
    (List.range RowFlag.count).map fun i => (386 + i, gammas.stage1.getD (1 + i) 0)) ++
  [(386 + RowFlag.branch.bit, eta * gammas.stage2.getD 0 0)] ++
  [(385, eta ^ 2 * gammas.stage3.getD 0 0),
    (386 + RowFlag.leftIsRs1.bit, eta ^ 2 * gammas.stage3.getD 1 0),
    (386 + RowFlag.rightIsRs2.bit, eta ^ 2 * gammas.stage3.getD 2 0),
    (386 + RowFlag.rightIsImm.bit, eta ^ 2 * gammas.stage3.getD 3 0)] ++
  ((List.range laneRegisterCount).flatMap fun r =>
    [(256 + r, eta ^ 3 * gammas.stage4.getD 0 0 * readWriteEq.getD r 0),
      (0 + r, eta ^ 3 * gammas.stage4.getD 1 0 * readWriteEq.getD r 0),
      (128 + r, eta ^ 3 * gammas.stage4.getD 2 0 * readWriteEq.getD r 0)]) ++
  ((List.range laneRegisterCount).map fun r =>
    (256 + r, eta ^ 4 * gammas.stage5.getD 0 0 * valEvaluationEq.getD r 0)) ++
  [(425, eta ^ 4 * gammas.stage5.getD 1 0)] ++
  ((List.range WasmTable.count).map fun i => (401 + i, eta ^ 4 * gammas.stage5.getD (2 + i) 0))

theorem getD_gammaPowers (count : ℕ) (gamma : F) {i : ℕ} (small : i < count) :
    (gammaPowers count gamma).getD i 0 = gamma ^ i := by
  unfold gammaPowers
  rw [List.getD_eq_getElem _ _ (by rwa [List.length_iterate]), List.getElem_iterate,
    mul_right_iterate_apply_one]

@[simp] theorem length_gammaPowers (count : ℕ) (gamma : F) :
    (gammaPowers count gamma).length = count := List.length_iterate _ _ _

/-- The gamma powers are long enough, and the first power of the stages with an immediate is one. -/
structure StageGammas.Powers (gammas : StageGammas F) : Prop where
  long : requireStageGammas gammas = .ok ()
  stage1 : gammas.stage1.getD 0 0 = 1
  stage3 : gammas.stage3.getD 0 0 = 1
  stage5 : gammas.stage5.getD 0 0 = 1

theorem stageGammaPowers_powers (gamma1 gamma2 gamma3 gamma4 gamma5 : F) :
    (stageGammaPowers gamma1 gamma2 gamma3 gamma4 gamma5).Powers := by
  have first (count : ℕ) (gamma : F) (positive : 0 < count) : (gammaPowers count gamma).getD 0 0 = 1 :=
    (getD_gammaPowers count gamma positive).trans (pow_zero gamma)
  refine ⟨?_, first _ _ (by decide), first _ _ (by decide), first _ _ (by decide)⟩
  unfold requireStageGammas stageGammaPowers
  simp only [requireLen_ok (length_gammaPowers _ _).ge]
  rfl

theorem laneWeights_ok {inputs : BytecodeLaneWeightInputs F} (powers : inputs.gammas.Powers)
    (readWrite : registerAddressBits ≤ inputs.registerReadWritePoint.length)
    (valEvaluation : registerAddressBits ≤ inputs.registerValEvaluationPoint.length) :
    laneWeights inputs = .ok (scatter (List.replicate committedBytecodeLaneCapacity 0)
      (laneWeightUpdates inputs.eta inputs.gammas
        (eqEvals (inputs.registerReadWritePoint.take registerAddressBits))
        (eqEvals (inputs.registerValEvaluationPoint.take registerAddressBits)))) := by
  have eta (stage : ℕ) (small : stage < 5) :
      (gammaPowers numBytecodeValStages inputs.eta).getD stage 0 = inputs.eta ^ stage :=
    getD_gammaPowers _ _ small
  unfold laneWeights
  refine except_bind_eq_ok.mpr ⟨(), powers.long, except_bind_eq_ok.mpr
    ⟨(), requireOpeningPointLen_ok readWrite, except_bind_eq_ok.mpr
      ⟨(), requireOpeningPointLen_ok valEvaluation, congrArg Except.ok ?_⟩⟩⟩
  unfold laneWeightUpdates
  simp only [scatter_append, eta 0 (by decide), eta 1 (by decide), eta 2 (by decide),
    eta 3 (by decide), eta 4 (by decide), pow_zero, pow_one, one_mul]
  rfl

/-! ## The row -/

/-- A register block against an equality table reads the register's entry. -/
theorem sum_registerEq {id : ℕ} (inRange : id = registerNone ∨ id < laneRegisterCount) (eq : List F)
    (c : F) :
    ∑ r ∈ Finset.range laneRegisterCount, c * eq.getD r 0 * (if id = r then 1 else 0) =
      c * registerEq id eq := by
  simp only [mul_ite, mul_one, mul_zero]
  rw [Finset.sum_ite_eq]
  unfold registerEq
  rcases inRange with rfl | small
  · rw [if_neg (by decide), if_neg (by simp)]
    simp
  · have some : id ≠ registerNone := by
      have none_ : registerNone = 255 := rfl
      have count : laneRegisterCount = 128 := rfl
      omega
    rw [if_pos (Finset.mem_range.mpr small), if_pos some, Option.bind_some,
      List.getD_eq_getElem?_getD]

/-- The conditional sums of a loop. -/
theorem foldl_if {α : Type} (p : α → Bool) (f : α → F) (items : List α) (start : F) :
    items.foldl (fun sum item => if p item then sum + f item else sum) start =
      start + (items.map fun item => if p item then f item else 0).sum := by
  induction items generalizing start with
  | nil => simp
  | cons item items ih =>
      rw [List.foldl_cons, ih, List.map_cons, List.sum_cons]
      split_ifs <;> ring

theorem readRafRowValues_stage1 (row : BytecodeRow) (gammas : StageGammas F)
    (readWriteEq valEvaluationEq : List F) :
    readRafRowValues row readWriteEq valEvaluationEq gammas 0 =
      row.immSigned + (RowFlag.all.zipIdx.map fun entry =>
        if row.flags.has entry.1 then gammas.stage1.getD (entry.2 + 1) 0 else 0).sum := by
  rw [← foldl_if (fun entry : RowFlag × ℕ => row.flags.has entry.1)
    fun entry => gammas.stage1.getD (entry.2 + 1) 0]
  unfold readRafRowValues
  rw [Matrix.cons_val_zero]

theorem readRafRowValues_stage2 (row : BytecodeRow) (gammas : StageGammas F)
    (readWriteEq valEvaluationEq : List F) :
    readRafRowValues row readWriteEq valEvaluationEq gammas 1 =
      if row.flags.has .branch then gammas.stage2.getD 0 0 else 0 := by
  unfold readRafRowValues
  by_cases branch : row.flags.has .branch <;> simp [branch]

theorem readRafRowValues_stage3 (row : BytecodeRow) (gammas : StageGammas F)
    (readWriteEq valEvaluationEq : List F) :
    readRafRowValues row readWriteEq valEvaluationEq gammas 2 = row.immSigned +
      (if row.flags.has .leftIsRs1 then gammas.stage3.getD 1 0 else 0) +
      (if row.flags.has .rightIsRs2 then gammas.stage3.getD 2 0 else 0) +
      (if row.flags.has .rightIsImm then gammas.stage3.getD 3 0 else 0) := by
  unfold readRafRowValues
  by_cases left : row.flags.has .leftIsRs1 <;> by_cases right : row.flags.has .rightIsRs2 <;>
    by_cases imm : row.flags.has .rightIsImm <;> simp [left, right, imm]

theorem readRafRowValues_stage5 (row : BytecodeRow) (gammas : StageGammas F)
    (readWriteEq valEvaluationEq : List F) :
    readRafRowValues row readWriteEq valEvaluationEq gammas 4 =
      registerEq row.rd valEvaluationEq + (if row.rafFlag then gammas.stage5.getD 1 0 else 0) +
        match row.tableOp with
        | some op => gammas.stage5.getD (2 + (WasmTable.of op).index) 0
        | none => 0 := by
  unfold readRafRowValues
  cases row.tableOp <;> by_cases raf : row.rafFlag <;> simp [raf]

section

variable [DecidableEq F] {row : BytecodeRow} (pc : ℕ)

theorem bytecodeTableId_lt {t : ℕ} (is_ : bytecodeTableId row = some t) : t < 24 := by
  obtain ⟨op, -, rfl⟩ := Option.map_eq_some_iff.mp is_
  exact WasmTable.index_lt _

theorem tableLane_ne {lane : ℕ} (outside : lane < 401 ∨ 425 ≤ lane) :
    ¬ (bytecodeTableId row).map (401 + ·) = some lane := by
  intro same
  obtain ⟨t, is_, rfl⟩ := Option.map_eq_some_iff.mp same
  have := bytecodeTableId_lt is_
  omega

theorem flagLane_ne {lane : ℕ} (outside : lane < 386 ∨ 401 ≤ lane) :
    ¬ (386 ≤ lane ∧ (RowFlag.all[lane - 386]?.any row.flags.has)) := by
  rintro ⟨above, set⟩
  have none_ : RowFlag.all[lane - 386]? = none := List.getElem?_eq_none (by
    change 15 ≤ _
    omega)
  rw [none_] at set
  cases set

/-- The lanes of the register blocks hold registers only. -/
theorem hits_block {lane : ℕ} (low : lane < 384) :
    hits (activeLaneValues pc row) lane =
      (if row.rs1 ≠ registerNone ∧ 0 + row.rs1 = lane then (1 : F) else 0) +
      (if row.rs2 ≠ registerNone ∧ 128 + row.rs2 = lane then 1 else 0) +
      (if row.rd ≠ registerNone ∧ 256 + row.rd = lane then 1 else 0) := by
  rw [hits_activeLaneValues, if_neg (by omega : ¬ 384 = _), if_neg (by omega : ¬ 385 = _),
    if_neg (flagLane_ne (by omega)), if_neg (tableLane_ne (by omega)),
    if_neg (by omega : ¬ (_ ∧ 425 = _))]
  simp only [add_zero]

namespace BytecodeRow.RegistersInRange

variable (valid : row.RegistersInRange)
include valid

theorem blocks : (row.rs1 = 255 ∨ row.rs1 < 128) ∧ (row.rs2 = 255 ∨ row.rs2 < 128) ∧
    (row.rd = 255 ∨ row.rd < 128) :=
  ⟨valid.rs1, valid.rs2, valid.rd⟩

theorem hits_rs1 {r : ℕ} (small : r < 128) :
    hits (activeLaneValues pc row) (0 + r) = if row.rs1 = r then (1 : F) else 0 := by
  obtain ⟨rs1, rs2, rd⟩ := valid.blocks
  have none_ : registerNone = 255 := rfl
  have same : row.rs1 ≠ registerNone ∧ 0 + row.rs1 = 0 + r ↔ row.rs1 = r := by omega
  rw [hits_block pc (by omega), if_neg (by omega : ¬ (row.rs2 ≠ _ ∧ _)),
    if_neg (by omega : ¬ (row.rd ≠ _ ∧ _)), add_zero, add_zero]
  simp only [same]

theorem hits_rs2 {r : ℕ} (small : r < 128) :
    hits (activeLaneValues pc row) (128 + r) = if row.rs2 = r then (1 : F) else 0 := by
  obtain ⟨rs1, rs2, rd⟩ := valid.blocks
  have none_ : registerNone = 255 := rfl
  have same : row.rs2 ≠ registerNone ∧ 128 + row.rs2 = 128 + r ↔ row.rs2 = r := by omega
  rw [hits_block pc (by omega), if_neg (by omega : ¬ (row.rs1 ≠ _ ∧ _)),
    if_neg (by omega : ¬ (row.rd ≠ _ ∧ _)), zero_add, add_zero]
  simp only [same]

theorem hits_rd {r : ℕ} (small : r < 128) :
    hits (activeLaneValues pc row) (256 + r) = if row.rd = r then (1 : F) else 0 := by
  obtain ⟨rs1, rs2, rd⟩ := valid.blocks
  have none_ : registerNone = 255 := rfl
  have same : row.rd ≠ registerNone ∧ 256 + row.rd = 256 + r ↔ row.rd = r := by omega
  rw [hits_block pc (by omega), if_neg (by omega : ¬ (row.rs1 ≠ _ ∧ _)),
    if_neg (by omega : ¬ (row.rs2 ≠ _ ∧ _)), zero_add, zero_add]
  simp only [same]

/-- The lanes past the register blocks hold no register. -/
theorem hits_scalar {lane : ℕ} (past : 385 ≤ lane) :
    hits (activeLaneValues pc row) lane = (if 385 = lane then (row.immSigned : F) else 0) +
      (if 386 ≤ lane ∧ (RowFlag.all[lane - 386]?.any row.flags.has) then 1 else 0) +
      (if (bytecodeTableId row).map (401 + ·) = some lane then 1 else 0) +
      (if row.rafFlag ∧ 425 = lane then 1 else 0) := by
  obtain ⟨rs1, rs2, rd⟩ := valid.blocks
  have none_ : registerNone = 255 := rfl
  rw [hits_activeLaneValues, if_neg (by omega : ¬ (row.rs1 ≠ _ ∧ _)),
    if_neg (by omega : ¬ (row.rs2 ≠ _ ∧ _)), if_neg (by omega : ¬ (row.rd ≠ _ ∧ _)),
    if_neg (by omega : ¬ 384 = _), zero_add, zero_add, zero_add, zero_add]

theorem hits_imm : hits (activeLaneValues pc row) 385 = (row.immSigned : F) := by
  rw [valid.hits_scalar pc le_rfl, if_pos rfl, if_neg (flagLane_ne (by omega)),
    if_neg (tableLane_ne (by omega)), if_neg (by omega), add_zero, add_zero, add_zero]

theorem hits_flag {i : ℕ} (small : i < 15) :
    hits (activeLaneValues pc row) (386 + i) =
      if RowFlag.all[i]?.any row.flags.has then (1 : F) else 0 := by
  rw [valid.hits_scalar pc (by omega), if_neg (by omega), if_neg (tableLane_ne (by omega)),
    if_neg (by omega : ¬ (_ ∧ 425 = _)), Nat.add_sub_cancel_left, zero_add, add_zero, add_zero]
  simp

theorem hits_flagBit (flag : RowFlag) :
    hits (activeLaneValues pc row) (386 + flag.bit) = if row.flags.has flag then (1 : F) else 0 := by
  rw [valid.hits_flag pc (by cases flag <;> decide), RowFlag.getElem_bit]
  rfl

theorem hits_table {i : ℕ} (small : i < 24) :
    hits (activeLaneValues pc row) (401 + i) = if bytecodeTableId row = some i then (1 : F) else 0 := by
  have same : (bytecodeTableId row).map (401 + ·) = some (401 + i) ↔ bytecodeTableId row = some i := by
    cases bytecodeTableId row <;> simp
  rw [valid.hits_scalar pc (by omega), if_neg (by omega), if_neg (flagLane_ne (by omega)),
    if_neg (by omega : ¬ (_ ∧ 425 = _)), zero_add, zero_add, add_zero]
  simp only [same]

theorem hits_raf : hits (activeLaneValues pc row) 425 = if row.rafFlag then (1 : F) else 0 := by
  rw [valid.hits_scalar pc (by omega), if_neg (by omega), if_neg (flagLane_ne (by omega)),
    if_neg (tableLane_ne (by omega)), zero_add, zero_add, zero_add]
  simp

end BytecodeRow.RegistersInRange

/-- The flags that stage one folds. -/
theorem sum_flags (valid : row.RegistersInRange) (gammas : StageGammas F) :
    ∑ i ∈ Finset.range RowFlag.count,
        gammas.stage1.getD (1 + i) 0 * hits (activeLaneValues pc row) (386 + i) =
      (RowFlag.all.zipIdx.map fun entry =>
        if row.flags.has entry.1 then gammas.stage1.getD (entry.2 + 1) 0 else 0).sum := by
  rw [sum_zipIdx _ RowFlag.leftIsRs1]
  refine Finset.sum_congr rfl fun i member => ?_
  have inside : i < RowFlag.all.length := Finset.mem_range.mp member
  rw [valid.hits_flag pc inside, List.getElem?_eq_getElem inside, List.getD_eq_getElem _ _ inside,
    Option.any_some, mul_ite, mul_one, mul_zero, Nat.add_comm]

/-- The tables that stage five folds. -/
theorem sum_tables (valid : row.RegistersInRange) (c : F) (gammas : StageGammas F) :
    ∑ i ∈ Finset.range WasmTable.count,
        c * gammas.stage5.getD (2 + i) 0 * hits (activeLaneValues pc row) (401 + i) =
      match row.tableOp with
      | some op => c * gammas.stage5.getD (2 + (WasmTable.of op).index) 0
      | none => 0 := by
  have each : ∀ i ∈ Finset.range WasmTable.count,
      c * gammas.stage5.getD (2 + i) 0 * hits (activeLaneValues pc row) (401 + i) =
        if bytecodeTableId row = some i then c * gammas.stage5.getD (2 + i) 0 else 0 := by
    intro i member
    rw [valid.hits_table pc (Finset.mem_range.mp member), mul_ite, mul_one, mul_zero]
  rw [Finset.sum_congr rfl each]
  unfold bytecodeTableId
  cases row.tableOp with
  | none => simp
  | some op =>
      simp only [Option.map_some, Option.some_inj]
      rw [Finset.sum_ite_eq, if_pos (Finset.mem_range.mpr (WasmTable.index_lt _))]

/-- The lanes of a row, weighted, are its stage values batched by `eta`. -/
theorem sum_laneWeightUpdates (valid : row.RegistersInRange) {gammas : StageGammas F}
    (powers : gammas.Powers) (eta : F) (readWriteEq valEvaluationEq : List F) :
    ((laneWeightUpdates eta gammas readWriteEq valEvaluationEq).map fun update =>
        update.2 * hits (activeLaneValues pc row) update.1).sum =
      ∑ stage, eta ^ (stage : Fin 5).val *
        readRafRowValues row readWriteEq valEvaluationEq gammas stage := by
  have range (n : ℕ) (f : ℕ → F) : ((List.range n).map f).sum = ∑ i ∈ Finset.range n, f i := rfl
  have stage4 : readRafRowValues row readWriteEq valEvaluationEq gammas 3 =
      registerEq row.rd readWriteEq * gammas.stage4.getD 0 0 +
        registerEq row.rs1 readWriteEq * gammas.stage4.getD 1 0 +
        registerEq row.rs2 readWriteEq * gammas.stage4.getD 2 0 := rfl
  have block (c : F) (eq : List F) {id start : ℕ} (inRange : id = registerNone ∨ id < laneRegisterCount)
      (hit : ∀ r < 128, hits (activeLaneValues pc row) (start + r) = if id = r then (1 : F) else 0) :
      ∑ r ∈ Finset.range laneRegisterCount, c * eq.getD r 0 * hits (activeLaneValues pc row) (start + r) =
        c * registerEq id eq := by
    rw [← sum_registerEq inRange eq c]
    exact Finset.sum_congr rfl fun r member => by rw [hit r (Finset.mem_range.mp member)]
  have registers : ((List.range laneRegisterCount).flatMap fun r =>
        [eta ^ 3 * gammas.stage4.getD 0 0 * readWriteEq.getD r 0 *
            hits (activeLaneValues pc row) (256 + r),
          eta ^ 3 * gammas.stage4.getD 1 0 * readWriteEq.getD r 0 *
            hits (activeLaneValues pc row) (0 + r),
          eta ^ 3 * gammas.stage4.getD 2 0 * readWriteEq.getD r 0 *
            hits (activeLaneValues pc row) (128 + r)]).sum =
      eta ^ 3 * readRafRowValues row readWriteEq valEvaluationEq gammas 3 := by
    rw [List.flatMap_def, List.sum_flatten, List.map_map, range]
    simp only [Function.comp_def, List.sum_cons, List.sum_nil, add_zero, Finset.sum_add_distrib]
    rw [block _ _ valid.rd fun r => valid.hits_rd pc, block _ _ valid.rs1 fun r => valid.hits_rs1 pc,
      block _ _ valid.rs2 fun r => valid.hits_rs2 pc, stage4]
    ring
  unfold laneWeightUpdates
  simp only [List.map_append, List.sum_append, List.map_cons, List.map_nil, List.sum_cons, List.sum_nil,
    List.map_map, List.map_flatMap, Function.comp_def, range]
  rw [registers, sum_flags pc valid, sum_tables pc valid,
    block _ _ valid.rd fun r => valid.hits_rd pc, valid.hits_imm, valid.hits_raf, valid.hits_flagBit,
    valid.hits_flagBit, valid.hits_flagBit, valid.hits_flagBit, powers.stage1, powers.stage3,
    powers.stage5, Fin.sum_univ_five, readRafRowValues_stage1, readRafRowValues_stage2,
    readRafRowValues_stage3, readRafRowValues_stage5]
  have tables : (match row.tableOp with
      | some op => eta ^ 4 * gammas.stage5.getD (2 + (WasmTable.of op).index) 0
      | none => 0) = eta ^ 4 * match row.tableOp with
        | some op => gammas.stage5.getD (2 + (WasmTable.of op).index) 0
        | none => 0 := by
    cases row.tableOp with
    | none => exact (mul_zero _).symm
    | some op => rfl
  rw [tables]
  have scaled (c v : F) (p : Prop) [Decidable p] : (c * v * if p then 1 else 0) =
      c * if p then v else 0 := by
    split_ifs <;> ring
  simp only [scaled]
  change _ = eta ^ 0 * _ + eta ^ 1 * _ + eta ^ 2 * _ + eta ^ 3 * _ + eta ^ 4 * _
  ring

end

/-- The weight of a lane of the second register block. -/
theorem hits_laneWeightUpdates_rs2 (eta : F) (gammas : StageGammas F) (readWriteEq valEvaluationEq : List F)
    {r : ℕ} (small : r < 128) :
    hits (laneWeightUpdates eta gammas readWriteEq valEvaluationEq) (128 + r) =
      eta ^ 3 * gammas.stage4.getD 2 0 * readWriteEq.getD r 0 := by
  have bits (flag : RowFlag) : 386 + flag.bit ≠ 128 + r := by omega
  have blocks (start : ℕ) (f : ℕ → F) (n : ℕ) (apart : 256 ≤ start) :
      hits ((List.range n).map fun i => (start + i, f i)) (128 + r) = 0 := by
    refine hits_eq_zero fun update member => ?_
    obtain ⟨i, -, rfl⟩ := List.mem_map.mp member
    change start + i ≠ 128 + r
    omega
  have registers : hits ((List.range laneRegisterCount).flatMap fun r =>
      [(256 + r, eta ^ 3 * gammas.stage4.getD 0 0 * readWriteEq.getD r 0),
        (0 + r, eta ^ 3 * gammas.stage4.getD 1 0 * readWriteEq.getD r 0),
        (128 + r, eta ^ 3 * gammas.stage4.getD 2 0 * readWriteEq.getD r 0)]) (128 + r) =
      eta ^ 3 * gammas.stage4.getD 2 0 * readWriteEq.getD r 0 := by
    have each : ∀ i ∈ Finset.range laneRegisterCount,
        hits [(256 + i, eta ^ 3 * gammas.stage4.getD 0 0 * readWriteEq.getD i 0),
          (0 + i, eta ^ 3 * gammas.stage4.getD 1 0 * readWriteEq.getD i 0),
          (128 + i, eta ^ 3 * gammas.stage4.getD 2 0 * readWriteEq.getD i 0)] (128 + r) =
        if r = i then eta ^ 3 * gammas.stage4.getD 2 0 * readWriteEq.getD i 0 else 0 := by
      intro i member
      have inBlock : i < 128 := Finset.mem_range.mp member
      have same : 128 + i = 128 + r ↔ r = i := by omega
      rw [hits_cons, hits_cons, hits_singleton, if_neg (by omega), if_neg (by omega), zero_add, zero_add]
      simp only [same]
    rw [hits_flatMap]
    refine (Finset.sum_congr rfl each).trans ?_
    rw [Finset.sum_ite_eq]
    exact if_pos (Finset.mem_range.mpr small)
  unfold laneWeightUpdates
  simp only [hits_append, hits_cons, hits_nil, registers, blocks 386 _ _ (by omega),
    blocks 256 _ _ le_rfl, blocks 401 _ _ (by omega), if_neg (bits _)]
  rw [if_neg (by omega), if_neg (by omega), if_neg (by omega)]
  simp only [add_zero, zero_add]

end JoltWasm
