import JoltWasm.Claims.PhaseSplitPoints

/-!
# What a phase split leaves as it is

The points that an accepted split leads to, and the sums of the members over their windows.  The cycle
variables that a member does not read double its sum, once for each; the RAF evaluation has that factor in
its claim, and the output check claims zero.
-/

namespace JoltWasm

open Lib VerifierStop Layout

variable {F : Type}

/-! ## The stages -/

theorem instancePoint_ok {stage : RelationId} {offset : ℕ → StageM ℕ} {at_ count : ℕ} {front middle back : List F}
    (starts : offset (front ++ (middle ++ back)).length = .ok at_) (length : front.length = at_)
    (rounds : middle.length = count) (short : (front ++ (middle ++ back)).length < 2 ^ 64) :
    instancePoint stage offset (.ok count) (front ++ (middle ++ back)) = .ok middle := by
  subst length rounds
  have fits : front.length + middle.length ≤ (front ++ (middle ++ back)).length := by
    rw [List.length_append, List.length_append]
    omega
  unfold instancePoint
  rw [starts]
  simp only [bind, Except.bind]
  rw [if_pos ⟨lt_of_le_of_lt fits short, fits⟩, List.drop_left, List.take_left]
  rfl

theorem instancePointOffset_ok (stage : RelationId) {rounds batchNumVars : ℕ} (enough : rounds ≤ batchNumVars) :
    instancePointOffset stage rounds batchNumVars = .ok (batchNumVars - rounds) :=
  if_neg (Nat.not_lt.mpr enough)

theorem phase1InstancePointOffset_ok (stage : RelationId) {d : ReadWriteDimensions} {batchNumVars : ℕ}
    (fits : d.Fits) (enough : d.logT + d.logK ≤ batchNumVars) (short : batchNumVars < 2 ^ 64) :
    phase1InstancePointOffset d stage batchNumVars =
      .ok (batchNumVars - (d.logT + d.logK) + d.phase1NumRounds) := by
  have := fits.phase1
  unfold phase1InstancePointOffset ReadWriteDimensions.readWriteRounds
  simp only
  rw [if_neg (by omega), if_pos (by omega)]

/-- The stage ends with an error, and not with a panic. -/
def Refused {α : Type} (x : StageM α) : Prop := ∃ error, x = .error (.refused error)

theorem Refused.bind {α β : Type} {x : StageM α} (refused : Refused x) (f : α → StageM β) :
    Refused (x >>= f) := by
  obtain ⟨error, rfl⟩ := refused
  exact ⟨error, rfl⟩

theorem Refused.of_bind {α β : Type} {x : StageM α} {a : α} {f : α → StageM β} (value : x = .ok a)
    (refused : Refused (f a)) : Refused (x >>= f) := by
  rw [value]
  exact refused

section

variable {config : JoltReadWriteConfig} {statement : Stage2RamStatement F}

/-- The members of a split whose first phase fits. -/
def Stage2RamCells.of (d : RamRafEvaluationDimensions) (statement : Stage2RamStatement F) :
    Stage2RamMembers F where
  ramReadWrite := ⟨d.readWrite, statement.logK, statement.tauLow⟩
  ramRafEvaluation := ⟨d, d.readWrite, statement.logK, ramBase, statement.tauLow⟩
  ramOutputCheck := ⟨d.readWrite, statement.publicMemory⟩

theorem Stage2RamCells.new_ok (phase1 : config.ramRwPhase1NumRounds.toNat ≤ statement.logT) :
    Stage2RamCells.new config statement =
      .ok (.of ⟨config.ramDimensions statement.logT statement.logK, phase1⟩ statement) := by
  unfold Stage2RamCells.new RamRafEvaluationDimensions.tryFrom
  simp only
  rw [dif_pos (show (config.ramDimensions statement.logT statement.logK).phase1NumRounds ≤
    (config.ramDimensions statement.logT statement.logK).logT from phase1)]
  rfl

theorem Stage2RamCells.new_refused (wide : ¬ config.ramRwPhase1NumRounds.toNat ≤ statement.logT) :
    Refused (Stage2RamCells.new config statement) := by
  unfold Stage2RamCells.new RamRafEvaluationDimensions.tryFrom
  simp only
  rw [dif_neg (show ¬ (config.ramDimensions statement.logT statement.logK).phase1NumRounds ≤
    (config.ramDimensions statement.logT statement.logK).logT from wide)]
  exact ⟨_, rfl⟩

theorem pow2Loop_eq [Field F] (result base : F) (remaining : ℕ) :
    RamRafEvaluation.pow2Loop result base remaining = result * base ^ remaining := by
  fun_induction RamRafEvaluation.pow2Loop result base remaining with
  | case1 result base => rw [pow_zero, mul_one]
  | case2 result base remaining more ih =>
      rw [dite_eq_ite] at ih
      rw [ih, ← pow_two, ← pow_mul]
      split_ifs with odd
      · rw [mul_assoc, ← pow_succ', show 2 * (remaining / 2) + 1 = remaining by omega]
      · rw [show 2 * (remaining / 2) = remaining by omega]

theorem pow2_eq [Field F] (exponent : ℕ) : (RamRafEvaluation.pow2 exponent : F) = 2 ^ exponent := by
  rw [RamRafEvaluation.pow2, pow2Loop_eq, one_mul, one_add_one_eq_two]

/-- The rounds and offsets of the batch are differences of what fits: the dummy rounds of the first phase
come first. -/
theorem Stage2RamCells.batchMembers_of [Field F] (d : RamRafEvaluationDimensions)
    (coefficients : Stage2RamCells F F F) (logT : d.readWrite.logT = statement.logT)
    (logK : d.readWrite.logK = statement.logK) :
    (Stage2RamCells.of d statement).batchMembers statement coefficients =
      .ok ([⟨statement.ramReadValue + statement.gamma * statement.ramWriteValue, coefficients.ramReadWrite,
            statement.logT + statement.logK, 0⟩,
          ⟨2 ^ (statement.logT - d.readWrite.phase1NumRounds) * statement.ramAddress,
            coefficients.ramRafEvaluation, statement.logT + statement.logK - d.readWrite.phase1NumRounds,
            d.readWrite.phase1NumRounds⟩,
          ⟨0, coefficients.ramOutputCheck, statement.logT + statement.logK - d.readWrite.phase1NumRounds,
            d.readWrite.phase1NumRounds⟩], statement.logT + statement.logK) := by
  have first : d.readWrite.phase1NumRounds ≤ statement.logT := logT ▸ d.fits
  have gap : (checkedSub statement.logT d.readWrite.phase1NumRounds : StageM ℕ) =
      .ok (statement.logT - d.readWrite.phase1NumRounds) := checkedSub_of_le first
  have counts : (checkedSub (statement.logT + statement.logK) d.readWrite.phase1NumRounds : StageM ℕ) =
      .ok (statement.logT + statement.logK - d.readWrite.phase1NumRounds) := checkedSub_of_le (by omega)
  have most : max (statement.logT + statement.logK)
      (max (statement.logT + statement.logK - d.readWrite.phase1NumRounds)
        (statement.logT + statement.logK - d.readWrite.phase1NumRounds)) =
      statement.logT + statement.logK := by omega
  have leader : instancePointOffset .ramReadWriteChecking (statement.logT + statement.logK)
      (statement.logT + statement.logK) = .ok 0 := by
    rw [instancePointOffset_ok _ le_rfl, Nat.sub_self]
  have follower (stage : RelationId) : phase1InstancePointOffset d.readWrite stage
      (statement.logT + statement.logK) = .ok d.readWrite.phase1NumRounds := by
    unfold phase1InstancePointOffset ReadWriteDimensions.readWriteRounds
    have short := statement.rounds_lt
    simp only [logT, logK, lt_self_iff_false, if_false, Nat.sub_self, Nat.zero_add]
    rw [if_pos (by omega)]
  unfold batchMembers RamRafEvaluation.inputExpression RamRafEvaluationDimensions.phase3CycleRounds
    ReadWriteDimensions.phase3CycleRounds RamRafEvaluation.rounds RamOutputCheck.rounds
    RamReadWriteChecking.rounds ReadWriteDimensions.rafEvaluationRounds ReadWriteDimensions.outputCheckRounds
    readWriteOffset rafOffset outputOffset Stage2RamCells.of
  simp only [gap, counts, bind, Except.bind, pure, Except.pure, RamReadWriteChecking.rounds,
    ReadWriteDimensions.readWriteRounds, logT, logK, most, leader, follower, pow2_eq,
    RamReadWriteChecking.inputExpression, RamOutputCheck.inputExpression]

theorem RamReadWriteChecking.deriveOpeningPoints_window {this : RamReadWriteChecking F}
    (fits : this.dimensions.Fits) (blocks : this.dimensions.Blocks F) :
    this.deriveOpeningPoints blocks.window =
      .ok ⟨blocks.address ++ blocks.cycle, blocks.address ++ blocks.cycle, blocks.address ++ blocks.cycle⟩ := by
  rw [deriveOpeningPoints, ReadWriteDimensions.readWriteOpeningPoint_window fits]
  rfl

theorem RamRafEvaluation.deriveOpeningPoints_tail {this : RamRafEvaluation F}
    (fits : this.readWriteDimensions.Fits) (same : this.ramLogK = this.readWriteDimensions.logK)
    (blocks : this.readWriteDimensions.Blocks F) :
    this.deriveOpeningPoints blocks.tail = .ok (blocks.address ++ this.tauLow) := by
  have length : blocks.address.length = this.ramLogK := (blocks.length_address fits).trans same.symm
  rw [deriveOpeningPoints, ReadWriteDimensions.addressOpeningPoint_tail fits, publicPointFailed, mapRefusal_ok]
  simp only [bind, Except.bind, length, ne_eq, not_true_eq_false, if_false]
  rfl

theorem RamOutputCheck.deriveOpeningPoints_tail {this : RamOutputCheck}
    (fits : this.readWriteDimensions.Fits) (blocks : this.readWriteDimensions.Blocks F) :
    this.deriveOpeningPoints blocks.tail = .ok blocks.address := by
  rw [deriveOpeningPoints, ReadWriteDimensions.addressOpeningPoint_tail fits, publicPointFailed, mapRefusal_ok]

theorem RegistersReadWriteChecking.deriveOpeningPoints_window {this : RegistersReadWriteChecking}
    (fits : this.registerDimensions.Fits) (blocks : this.registerDimensions.Blocks F) :
    this.deriveOpeningPoints blocks.window =
      .ok ⟨blocks.address ++ blocks.cycle, blocks.address ++ blocks.cycle, blocks.address ++ blocks.cycle,
        blocks.address ++ blocks.cycle, blocks.address ++ blocks.cycle⟩ := by
  rw [deriveOpeningPoints, ReadWriteDimensions.readWriteOpeningPoint_window fits]
  rfl

/-- The last rounds of the batch. -/
theorem instancePoint_default {stage : RelationId} {rounds : ℕ} {front window : List F}
    (length : window.length = rounds) (short : (front ++ window).length < 2 ^ 64) :
    instancePoint stage (instancePointOffset stage rounds) (.ok rounds) (front ++ window) = .ok window := by
  have total : (front ++ window).length = front.length + rounds := by rw [List.length_append, length]
  have starts : instancePointOffset stage rounds (front ++ window).length = .ok front.length := by
    rw [total, instancePointOffset_ok _ (by omega), Nat.add_sub_cancel]
  have cut : front ++ window = front ++ (window ++ []) := by rw [List.append_nil]
  rw [cut] at starts short ⊢
  exact instancePoint_ok starts rfl length short

/-- The last rounds but those of the first phase. -/
theorem instancePoint_phase1 {stage : RelationId} {d : ReadWriteDimensions} (fits : d.Fits) {front : List F}
    (blocks : d.Blocks F) (short : (front ++ blocks.window).length < 2 ^ 64) :
    instancePoint stage (phase1InstancePointOffset d stage) (checkedSub (d.logT + d.logK) d.phase1NumRounds)
      (front ++ blocks.window) = .ok blocks.tail := by
  have first := fits.phase1
  have total : (front ++ blocks.window).length = front.length + (d.logT + d.logK) := by
    rw [List.length_append, blocks.length_window fits]
  have starts : phase1InstancePointOffset d stage (front ++ blocks.window).length =
      .ok (front.length + d.phase1NumRounds) := by
    rw [phase1InstancePointOffset_ok stage fits (by rw [total]; exact Nat.le_add_left _ _) short, total,
      Nat.add_sub_cancel]
  have cut : front ++ blocks.window = front ++ blocks.phase1 ++ (blocks.tail ++ []) := by
    rw [List.append_nil, List.append_assoc, ReadWriteDimensions.Blocks.window]
  have length : (front ++ blocks.phase1).length = front.length + d.phase1NumRounds := by
    rw [List.length_append, blocks.length_phase1]
  rw [checkedSub_of_le (by omega)]
  rw [cut] at starts short ⊢
  exact instancePoint_ok starts length (blocks.length_tail fits) short

/-- The points of a split that fits, whatever stands before the window. -/
theorem Stage2RamCells.deriveOpeningPoints_window (statement : Stage2RamStatement F) (d : RamRafEvaluationDimensions) (fits : d.readWrite.Fits)
    (logK : d.readWrite.logK = statement.logK) (front : List F) (blocks : d.readWrite.Blocks F)
    (short : (front ++ blocks.window).length < 2 ^ 64) :
    (Stage2RamCells.of d statement).deriveOpeningPoints (front ++ blocks.window) =
      .ok ⟨⟨blocks.address ++ blocks.cycle, blocks.address ++ blocks.cycle, blocks.address ++ blocks.cycle⟩,
        blocks.address ++ statement.tauLow, blocks.address⟩ := by
  have readWrite := @RamReadWriteChecking.deriveOpeningPoints_window F
    (Stage2RamCells.of d statement).ramReadWrite fits blocks
  have raf := @RamRafEvaluation.deriveOpeningPoints_tail F
    (Stage2RamCells.of d statement).ramRafEvaluation fits logK.symm blocks
  have output := @RamOutputCheck.deriveOpeningPoints_tail F
    (Stage2RamCells.of d statement).ramOutputCheck fits blocks
  refine except_bind_eq_ok.mpr ⟨_, instancePoint_default (blocks.length_window fits) short, ?_⟩
  refine except_bind_eq_ok.mpr ⟨_, readWrite, ?_⟩
  refine except_bind_eq_ok.mpr ⟨_, instancePoint_phase1 fits blocks short, ?_⟩
  refine except_bind_eq_ok.mpr ⟨_, raf, ?_⟩
  refine except_bind_eq_ok.mpr ⟨_, instancePoint_phase1 fits blocks short, ?_⟩
  exact except_bind_eq_ok.mpr ⟨_, output, rfl⟩

/-! ### Refusals -/

theorem instancePoint_short {stage : RelationId} {rounds : ℕ} {batchPoint : List F}
    (few : batchPoint.length < rounds) :
    Refused (instancePoint stage (instancePointOffset stage rounds) (.ok rounds) batchPoint) := by
  unfold instancePoint instancePointOffset
  rw [if_pos few]
  exact ⟨_, rfl⟩

/-- A batch vector that is long enough ends in a window. -/
theorem exists_window {n : ℕ} {batchPoint : List F} (enough : n ≤ batchPoint.length) :
    ∃ front window : List F, front ++ window = batchPoint ∧ window.length = n :=
  ⟨batchPoint.take (batchPoint.length - n), batchPoint.drop (batchPoint.length - n),
    List.take_append_drop _ _, by rw [List.length_drop]; omega⟩

theorem readWritePoint_refused {d : ReadWriteDimensions} (wide : ¬ d.Fits) (stage : RelationId) (window : List F) :
    Refused (publicPointFailed stage (d.readWriteOpeningPoint window)) := by
  obtain ⟨error, refused⟩ := ReadWriteDimensions.readWriteOpeningPoint_of_not_fits wide window
  rw [refused]
  exact ⟨_, rfl⟩

/-- The leader refuses a split that does not fit and a vector that is too short. -/
theorem leader_refused {d : ReadWriteDimensions} (stage : RelationId) {batchPoint : List F} {α : Type}
    (short : batchPoint.length < 2 ^ 64) (refuses : ¬ (d.Fits ∧ d.logT + d.logK ≤ batchPoint.length))
    (f : ReadWriteOpeningPoint F → StageM α) :
    Refused (instancePoint stage (instancePointOffset stage (d.logT + d.logK)) (.ok (d.logT + d.logK)) batchPoint
      >>= fun point => publicPointFailed stage (d.readWriteOpeningPoint point) >>= f) := by
  by_cases enough : d.logT + d.logK ≤ batchPoint.length
  · have wide : ¬ d.Fits := fun fits => refuses ⟨fits, enough⟩
    obtain ⟨front, window, rfl, length⟩ := exists_window enough
    exact .of_bind (instancePoint_default length short) ((readWritePoint_refused wide stage window).bind f)
  · exact (instancePoint_short (Nat.not_le.mp enough)).bind _

/-- Nothing panics: a split that does not fit is refused, and so is a vector that is too short. -/
theorem stage2RamPoints_refused [Field F] (coefficients : Stage2RamCells F F F) {batchPoint : List F}
    (short : batchPoint.length < 2 ^ 64)
    (refuses : ¬ ((config.ramDimensions statement.logT statement.logK).Fits ∧
      statement.logT + statement.logK ≤ batchPoint.length)) :
    Refused (stage2RamPoints config statement coefficients batchPoint) := by
  unfold stage2RamPoints
  by_cases phase1 : config.ramRwPhase1NumRounds.toNat ≤ statement.logT
  · refine .of_bind (Stage2RamCells.new_ok phase1) ?_
    refine .of_bind (Stage2RamCells.batchMembers_of _ coefficients rfl rfl) ?_
    have refused := leader_refused (d := config.ramDimensions statement.logT statement.logK) .ramReadWriteChecking
      short refuses
      fun point => (.ok ⟨point.openingPoint, point.openingPoint, point.openingPoint⟩ : StageM (RamReadWriteClaims _))
    unfold Stage2RamCells.deriveOpeningPoints
    rw [← bind_assoc]
    exact refused.bind _
  · exact (Stage2RamCells.new_refused phase1).bind _

theorem stage2RamPoints_of_fits [Field F] (coefficients : Stage2RamCells F F F)
    (fits : (config.ramDimensions statement.logT statement.logK).Fits) (front : List F)
    (blocks : (config.ramDimensions statement.logT statement.logK).Blocks F)
    (short : (front ++ blocks.window).length < 2 ^ 64) :
    stage2RamPoints config statement coefficients (front ++ blocks.window) =
      .ok ⟨⟨blocks.address ++ blocks.cycle, blocks.address ++ blocks.cycle, blocks.address ++ blocks.cycle⟩,
        blocks.address ++ statement.tauLow, blocks.address⟩ := by
  refine except_bind_eq_ok.mpr ⟨_, Stage2RamCells.new_ok fits.phase1, ?_⟩
  refine except_bind_eq_ok.mpr ⟨_, Stage2RamCells.batchMembers_of _ coefficients rfl rfl, ?_⟩
  exact Stage2RamCells.deriveOpeningPoints_window statement
    ⟨config.ramDimensions statement.logT statement.logK, fits.phase1⟩ fits rfl front blocks short

theorem stage4RegisterPoints_refused {logT : ℕ} {batchPoint : List F} (short : batchPoint.length < 2 ^ 64)
    (refuses : ¬ ((config.registerDimensions logT registerAddressBits).Fits ∧
      logT + registerAddressBits ≤ batchPoint.length)) :
    Refused (stage4RegisterPoints config logT batchPoint) := by
  unfold stage4RegisterPoints
  by_cases fits : (config.registerDimensions logT registerAddressBits).Fits
  · refine .of_bind (a := ()) ?_ ?_
    · rw [ReadWriteDimensions.validatePhaseSplit_of_fits fits]
      rfl
    · exact leader_refused (d := config.registerDimensions logT registerAddressBits) _ short refuses _
  · obtain ⟨error, refused⟩ := ReadWriteDimensions.validatePhaseSplit_of_not_fits fits
    simp only [refused]
    exact ⟨_, rfl⟩

theorem stage4RegisterPoints_of_fits {logT : ℕ} (fits : (config.registerDimensions logT registerAddressBits).Fits)
    (front : List F) (blocks : (config.registerDimensions logT registerAddressBits).Blocks F)
    (short : (front ++ blocks.window).length < 2 ^ 64) :
    stage4RegisterPoints config logT (front ++ blocks.window) =
      .ok ⟨blocks.address ++ blocks.cycle, blocks.address ++ blocks.cycle, blocks.address ++ blocks.cycle,
        blocks.address ++ blocks.cycle, blocks.address ++ blocks.cycle⟩ := by
  have points := @RegistersReadWriteChecking.deriveOpeningPoints_window F
    ⟨config.registerDimensions logT registerAddressBits⟩ fits blocks
  unfold stage4RegisterPoints
  refine except_bind_eq_ok.mpr ⟨(), ?_, ?_⟩
  · rw [ReadWriteDimensions.validatePhaseSplit_of_fits fits]
    rfl
  · exact except_bind_eq_ok.mpr ⟨_, instancePoint_default (blocks.length_window fits) short, points⟩

end

end JoltWasm
