import JoltWasm.Claims.PhaseSplitSums

/-!
# The checks do not depend on the split

For every split that fits, the members derive one address and the claims of the batch are one statement
about the trace.
-/

namespace JoltWasm

open Lib VerifierStop Layout

variable {F : Type} [Field F]

/-! ## The RAM checks -/

/-- The batch of the second stage has a claimed sum, and the members' output claims sum to it over the batch
challenges. -/
def RamBatchHolds (config : JoltReadWriteConfig) (statement : Stage2RamStatement F)
    (coefficients : Stage2RamCells F F F) (polys : Stage2RamPolys F) : Prop :=
  ∃ (members : Stage2RamMembers F) (batch : List (BatchMember F)) (maxNumVars : ℕ) (prelude : BatchPrelude F),
    Stage2RamCells.new config statement = .ok members ∧
    members.batchMembers statement coefficients = .ok (batch, maxNumVars) ∧
    BatchPrelude.new batch maxNumVars 3 = .ok prelude ∧
    SumsTo maxNumVars (fun batchPoint => members.deriveOpeningPoints batchPoint >>=
      members.expectedFinalClaim statement coefficients polys) prelude.claimedSum

/-- What the batch says about the trace. -/
def RamBatchStatement (statement : Stage2RamStatement F) (coefficients : Stage2RamCells F F F)
    (polys : Stage2RamPolys F) (publics : List F → F × F × F) : Prop :=
  coefficients.ramReadWrite * (statement.ramReadValue + statement.gamma * statement.ramWriteValue) +
      coefficients.ramRafEvaluation * (2 ^ statement.logT * statement.ramAddress) =
    coefficients.ramReadWrite *
        (accessSum statement.logT statement.logK (readTerm statement.tauLow polys.ramReadWrite) +
          statement.gamma * accessSum statement.logT statement.logK (writeTerm statement.tauLow polys.ramReadWrite)) +
      coefficients.ramRafEvaluation * (2 ^ statement.logT * cubeSum statement.logK fun address =>
        byteAddress address * polys.ramRafEvaluation (address ++ statement.tauLow)) +
      coefficients.ramOutputCheck * (2 ^ statement.logT * cubeSum statement.logK fun address =>
        outputCheckExpression (publics address) (polys.ramOutputCheck address))

/-- The checks of the RAM under a split. -/
structure RamSplitChecked (config : JoltReadWriteConfig) (statement : Stage2RamStatement F) : Prop where
  /-- No round count underflows and no slice is out of range. -/
  noPanic : ∀ (coefficients : Stage2RamCells F F F) (batchPoint : List F) (message : String),
    batchPoint.length < 2 ^ 64 → stage2RamPoints config statement coefficients batchPoint ≠ .error (.panicked message)
  accepts : ∀ (coefficients : Stage2RamCells F F F) (batchPoint : List F), batchPoint.length < 2 ^ 64 →
    ((∃ points, stage2RamPoints config statement coefficients batchPoint = .ok points) ↔
      config.ramRwPhase1NumRounds.toNat ≤ statement.logT ∧ config.ramRwPhase2NumRounds.toNat ≤ statement.logK ∧
        statement.logT + statement.logK ≤ batchPoint.length)
  /-- One address, and each coordinate is the challenge of the round that binds its variable. -/
  points : ∀ (coefficients : Stage2RamCells F F F) (batchPoint : List F) (points : Stage2RamPoints F),
    batchPoint.length < 2 ^ 64 → stage2RamPoints config statement coefficients batchPoint = .ok points →
    ∃ address cycle : List F, address.length = statement.logK ∧ cycle.length = statement.logT ∧
      points = ⟨⟨address ++ cycle, address ++ cycle, address ++ cycle⟩, address ++ statement.tauLow, address⟩ ∧
      (∀ v < statement.logT, cycle[statement.logT - 1 - v]? =
        batchPoint[batchPoint.length - (statement.logT + statement.logK) +
          (config.ramDimensions statement.logT statement.logK).cycleRound v]?) ∧
      ∀ v < statement.logK, address[statement.logK - 1 - v]? =
        batchPoint[batchPoint.length - (statement.logT + statement.logK) +
          (config.ramDimensions statement.logT statement.logK).addressRound v]?
  /-- The rounds of the window and the variables are one to one, low variables first. -/
  order : (config.ramDimensions statement.logT statement.logK).Fits →
    StrictMono (config.ramDimensions statement.logT statement.logK).cycleRound ∧
    StrictMono (config.ramDimensions statement.logT statement.logK).addressRound ∧
    ∀ round, round < statement.logT + statement.logK ↔
      ∃! variable_, (config.ramDimensions statement.logT statement.logK).boundAt variable_ = round
  readWrite : (config.ramDimensions statement.logT statement.logK).Fits →
    ∀ (members : Stage2RamMembers F) (polys : RamReadWriteClaims (List F → F)),
    Stage2RamCells.new config statement = .ok members →
    (SumsTo members.ramReadWrite.rounds (members.ramReadWrite.summand statement.gamma polys)
        (RamReadWriteChecking.inputExpression statement.gamma statement.ramReadValue statement.ramWriteValue) ↔
      statement.ramReadValue + statement.gamma * statement.ramWriteValue =
        accessSum statement.logT statement.logK (readTerm statement.tauLow polys) +
          statement.gamma * accessSum statement.logT statement.logK (writeTerm statement.tauLow polys))
  /-- The claim and the sum have one factor. -/
  rafEvaluation : (config.ramDimensions statement.logT statement.logK).Fits →
    ∀ (members : Stage2RamMembers F) (ramRa : List F → F), Stage2RamCells.new config statement = .ok members →
    ∃ rounds, members.ramRafEvaluation.rounds = .ok rounds ∧
      members.ramRafEvaluation.inputExpression statement.ramAddress =
        .ok (2 ^ (statement.logT - config.ramRwPhase1NumRounds.toNat) * statement.ramAddress) ∧
      SumsTo rounds (members.ramRafEvaluation.summand ramRa)
        (2 ^ (statement.logT - config.ramRwPhase1NumRounds.toNat) * cubeSum statement.logK fun address =>
          byteAddress address * ramRa (address ++ statement.tauLow)) ∧
      ((2 : F) ≠ 0 → (SumsTo rounds (members.ramRafEvaluation.summand ramRa)
          (2 ^ (statement.logT - config.ramRwPhase1NumRounds.toNat) * statement.ramAddress) ↔
        statement.ramAddress = cubeSum statement.logK fun address =>
          byteAddress address * ramRa (address ++ statement.tauLow)))
  /-- The claim is zero. -/
  outputCheck : (config.ramDimensions statement.logT statement.logK).Fits →
    ∀ (members : Stage2RamMembers F) (valFinal : List F → F) (publics : List F → F × F × F),
    Stage2RamCells.new config statement = .ok members →
    (∀ address : List F, address.length = statement.logK →
      ramOutputCheckPublics statement.publicMemory statement.outputAddress address = .ok (publics address)) →
    ∃ rounds, members.ramOutputCheck.rounds = .ok rounds ∧
      SumsTo rounds (members.ramOutputCheck.summand statement.outputAddress valFinal)
        (2 ^ (statement.logT - config.ramRwPhase1NumRounds.toNat) * cubeSum statement.logK fun address =>
          outputCheckExpression (publics address) (valFinal address)) ∧
      ((2 : F) ≠ 0 → (SumsTo rounds (members.ramOutputCheck.summand statement.outputAddress valFinal)
          RamOutputCheck.inputExpression ↔
        (cubeSum statement.logK fun address => outputCheckExpression (publics address) (valFinal address)) = 0))
  /-- The dummy rounds that the batch adds and those inside the window make one factor together. -/
  batch : (config.ramDimensions statement.logT statement.logK).Fits →
    ∀ (coefficients : Stage2RamCells F F F) (polys : Stage2RamPolys F) (publics : List F → F × F × F),
    (∀ address : List F, address.length = statement.logK →
      ramOutputCheckPublics statement.publicMemory statement.outputAddress address = .ok (publics address)) →
    (RamBatchHolds config statement coefficients polys ↔ RamBatchStatement statement coefficients polys publics)

section

variable {config : JoltReadWriteConfig} {statement : Stage2RamStatement F}

/-- An accepted batch vector ends in the blocks of a window. -/
theorem stage2RamPoints_cases (config : JoltReadWriteConfig) (statement : Stage2RamStatement F) (coefficients : Stage2RamCells F F F) {batchPoint : List F}
    (short : batchPoint.length < 2 ^ 64) :
    Refused (stage2RamPoints config statement coefficients batchPoint) ∧
        ¬ ((config.ramDimensions statement.logT statement.logK).Fits ∧
          statement.logT + statement.logK ≤ batchPoint.length) ∨
      (config.ramDimensions statement.logT statement.logK).Fits ∧
        ∃ (front : List F) (blocks : (config.ramDimensions statement.logT statement.logK).Blocks F),
          front ++ blocks.window = batchPoint ∧
          stage2RamPoints config statement coefficients batchPoint =
            .ok ⟨⟨blocks.address ++ blocks.cycle, blocks.address ++ blocks.cycle, blocks.address ++ blocks.cycle⟩,
              blocks.address ++ statement.tauLow, blocks.address⟩ := by
  by_cases accepted : (config.ramDimensions statement.logT statement.logK).Fits ∧
      statement.logT + statement.logK ≤ batchPoint.length
  · obtain ⟨fits, enough⟩ := accepted
    obtain ⟨front, window, rfl, length⟩ := exists_window enough
    obtain ⟨blocks, rfl⟩ := ReadWriteDimensions.exists_blocks fits length
    exact .inr ⟨fits, front, blocks, rfl, stage2RamPoints_of_fits coefficients fits front blocks short⟩
  · exact .inl ⟨stage2RamPoints_refused coefficients short accepted, accepted⟩

omit [Field F] in
/-- What a coordinate of the window is in the batch vector. -/
theorem getElem?_append_window {front window : List F} {n : ℕ} (length : window.length = n) (round : ℕ) :
    (front ++ window)[(front ++ window).length - n + round]? = window[round]? := by
  rw [List.length_append, length, Nat.add_sub_cancel, List.getElem?_append_right (Nat.le_add_right _ _),
    Nat.add_sub_cancel_left]

omit [Field F] in
theorem Stage2RamCells.eq_of {members : Stage2RamMembers F}
    (fits : (config.ramDimensions statement.logT statement.logK).Fits)
    (new : Stage2RamCells.new config statement = .ok members) :
    members = .of ⟨config.ramDimensions statement.logT statement.logK, fits.phase1⟩ statement :=
  Except.ok.inj (new.symm.trans (Stage2RamCells.new_ok fits.phase1))

section

variable (statement) (d : RamRafEvaluationDimensions) (fits : d.readWrite.Fits) (logT : d.readWrite.logT = statement.logT)
  (logK : d.readWrite.logK = statement.logK)

include fits logT logK

theorem readWrite_sumsTo (polys : RamReadWriteClaims (List F → F)) :
    SumsTo (statement.logT + statement.logK)
      ((Stage2RamCells.of d statement).ramReadWrite.summand statement.gamma polys)
      (accessSum statement.logT statement.logK (readTerm statement.tauLow polys) +
        statement.gamma * accessSum statement.logT statement.logK (writeTerm statement.tauLow polys)) := by
  rw [← accessSum_mul, ← accessSum_add, ← logT, ← logK]
  refine ReadWriteDimensions.sumsTo_window fits fun blocks => except_bind_eq_ok.mpr ⟨_,
    @RamReadWriteChecking.deriveOpeningPoints_window F (Stage2RamCells.of d statement).ramReadWrite fits blocks, ?_⟩
  have value := RamReadWriteChecking.expectedOutput_blocks fits (statement.length_tauLow.trans logT.symm)
    statement.gamma polys blocks
  rwa [logK] at value

theorem raf_sumsTo (ramRa : List F → F) :
    SumsTo (statement.logT + statement.logK - d.readWrite.phase1NumRounds)
      ((Stage2RamCells.of d statement).ramRafEvaluation.summand ramRa)
      (2 ^ (statement.logT - d.readWrite.phase1NumRounds) * cubeSum statement.logK fun address =>
        byteAddress address * ramRa (address ++ statement.tauLow)) := by
  rw [← logT, ← logK]
  refine ReadWriteDimensions.sumsTo_tail fits fun blocks => except_bind_eq_ok.mpr ⟨_,
    @RamRafEvaluation.deriveOpeningPoints_tail F (Stage2RamCells.of d statement).ramRafEvaluation fits logK.symm
      blocks, ?_⟩
  have value := RamRafEvaluation.expectedOutput_blocks statement.tauLow fits d ramRa blocks
  rwa [logK] at value

theorem output_sumsTo {publics : List F → F × F × F} (public_ : ∀ address : List F,
      address.length = statement.logK →
      ramOutputCheckPublics statement.publicMemory statement.outputAddress address = .ok (publics address))
    (valFinal : List F → F) :
    SumsTo (statement.logT + statement.logK - d.readWrite.phase1NumRounds)
      ((Stage2RamCells.of d statement).ramOutputCheck.summand statement.outputAddress valFinal)
      (2 ^ (statement.logT - d.readWrite.phase1NumRounds) * cubeSum statement.logK fun address =>
        outputCheckExpression (publics address) (valFinal address)) := by
  rw [← logK] at public_
  rw [← logT, ← logK]
  exact ReadWriteDimensions.sumsTo_tail fits fun blocks => except_bind_eq_ok.mpr ⟨_,
    @RamOutputCheck.deriveOpeningPoints_tail F (Stage2RamCells.of d statement).ramOutputCheck fits blocks,
    RamOutputCheck.expectedOutput_blocks fits public_ valFinal blocks⟩

/-- The whole batch: each member's sum over all the batch challenges. -/
theorem batch_sumsTo (coefficients : Stage2RamCells F F F) (polys : Stage2RamPolys F)
    {publics : List F → F × F × F} (public_ : ∀ address : List F, address.length = statement.logK →
      ramOutputCheckPublics statement.publicMemory statement.outputAddress address = .ok (publics address)) :
    SumsTo (statement.logT + statement.logK)
      (fun batchPoint => (Stage2RamCells.of d statement).deriveOpeningPoints batchPoint >>=
        (Stage2RamCells.of d statement).expectedFinalClaim statement coefficients polys)
      (coefficients.ramReadWrite *
          (accessSum statement.logT statement.logK (readTerm statement.tauLow polys.ramReadWrite) +
            statement.gamma * accessSum statement.logT statement.logK (writeTerm statement.tauLow polys.ramReadWrite)) +
        coefficients.ramRafEvaluation * (2 ^ statement.logT * cubeSum statement.logK fun address =>
          byteAddress address * polys.ramRafEvaluation (address ++ statement.tauLow)) +
        coefficients.ramOutputCheck * (2 ^ statement.logT * cubeSum statement.logK fun address =>
          outputCheckExpression (publics address) (polys.ramOutputCheck address))) := by
  rw [← accessSum_address, ← accessSum_address, ← accessSum_mul _ _ statement.gamma, ← accessSum_add,
    ← accessSum_mul, ← accessSum_mul, ← accessSum_mul, ← accessSum_add, ← accessSum_add]
  have window : statement.logT + statement.logK = d.readWrite.logT + d.readWrite.logK := by rw [logT, logK]
  rw [window, ← logT, ← logK]
  refine ReadWriteDimensions.sumsTo_window fits fun blocks => ?_
  have short : ([] ++ blocks.window).length < 2 ^ 64 := by
    rw [List.nil_append, blocks.length_window fits, ← window]
    exact statement.rounds_lt
  have points := Stage2RamCells.deriveOpeningPoints_window statement d fits logK [] blocks short
  rw [List.nil_append] at points
  have readWrite := RamReadWriteChecking.expectedOutput_blocks fits (statement.length_tauLow.trans logT.symm)
    statement.gamma polys.ramReadWrite blocks
  have raf := RamRafEvaluation.expectedOutput_blocks statement.tauLow fits d polys.ramRafEvaluation blocks
  rw [← logK] at public_
  have output := RamOutputCheck.expectedOutput_blocks fits public_ polys.ramOutputCheck blocks
  rw [logK] at readWrite raf
  refine except_bind_eq_ok.mpr ⟨_, points, ?_⟩
  refine except_bind_eq_ok.mpr ⟨_, readWrite, ?_⟩
  refine except_bind_eq_ok.mpr ⟨_, raf, ?_⟩
  exact except_bind_eq_ok.mpr ⟨_, output, rfl⟩

end

theorem mul_pow_two_iff (two : (2 : F) ≠ 0) (n : ℕ) (a b : F) : 2 ^ n * a = 2 ^ n * b ↔ a = b :=
  mul_right_inj' (pow_ne_zero n two)

/-- The padded sum of the batch does not depend on the first phase: what it leaves of the dummy rounds the batch
adds. -/
theorem batch_claimedSum (statement : Stage2RamStatement F) (coefficients : Stage2RamCells F F F) {phase1 : ℕ} (fits : phase1 ≤ statement.logT)
    (narrow : phase1 < 256) (maxDegree : ℕ) :
    ∃ prelude, BatchPrelude.new
      [⟨statement.ramReadValue + statement.gamma * statement.ramWriteValue, coefficients.ramReadWrite,
          statement.logT + statement.logK, 0⟩,
        ⟨2 ^ (statement.logT - phase1) * statement.ramAddress, coefficients.ramRafEvaluation,
          statement.logT + statement.logK - phase1, phase1⟩,
        ⟨0, coefficients.ramOutputCheck, statement.logT + statement.logK - phase1, phase1⟩]
      (statement.logT + statement.logK) maxDegree = .ok prelude ∧
      prelude.claimedSum =
        coefficients.ramReadWrite * (statement.ramReadValue + statement.gamma * statement.ramWriteValue) +
          coefficients.ramRafEvaluation * (2 ^ statement.logT * statement.ramAddress) := by
  refine ⟨_, BatchPrelude.new_ok maxDegree ?_ ?_, ?_⟩
  · simp only [List.mem_cons, List.not_mem_nil, or_false]
    rintro member (rfl | rfl | rfl) <;> simp only <;> omega
  · simp only [List.mem_cons, List.not_mem_nil, or_false]
    rintro member (rfl | rfl | rfl) <;> simp only <;> omega
  · have padding : statement.logT + statement.logK - (statement.logT + statement.logK - phase1) = phase1 := by omega
    have whole : (2 : F) ^ statement.logT = 2 ^ (statement.logT - phase1) * 2 ^ phase1 := by
      rw [← pow_add, Nat.sub_add_cancel fits]
    simp only [paddedSum, List.map_cons, List.map_nil, List.sum_cons, List.sum_nil, padding, Nat.sub_self, pow_zero,
      mul_one, zero_mul, mul_zero, add_zero, whole]
    ring

theorem ramSplit_checked (config : JoltReadWriteConfig) (statement : Stage2RamStatement F) :
    RamSplitChecked config statement where
  noPanic coefficients batchPoint message short panics := by
    rcases stage2RamPoints_cases config statement coefficients short with
      ⟨⟨error, refused⟩, -⟩ | ⟨_, _, _, _, value⟩
    · rw [refused] at panics
      cases panics
    · rw [value] at panics
      cases panics
  accepts coefficients batchPoint short := by
    have fitsIff : (config.ramDimensions statement.logT statement.logK).Fits ↔
        config.ramRwPhase1NumRounds.toNat ≤ statement.logT ∧ config.ramRwPhase2NumRounds.toNat ≤ statement.logK :=
      ReadWriteDimensions.fits_iff
    rw [← and_assoc, ← fitsIff]
    rcases stage2RamPoints_cases config statement coefficients short with
      ⟨⟨error, refused⟩, rejected⟩ | ⟨fits, front, blocks, rfl, value⟩
    · refine ⟨?_, fun accepted => absurd accepted rejected⟩
      rintro ⟨points, ok⟩
      rw [refused] at ok
      cases ok
    · refine ⟨fun _ => ⟨fits, ?_⟩, fun _ => ⟨_, value⟩⟩
      rw [List.length_append, blocks.length_window fits]
      exact Nat.le_add_left _ _
  points coefficients batchPoint points short ok := by
    rcases stage2RamPoints_cases config statement coefficients short with
      ⟨⟨error, refused⟩, -⟩ | ⟨fits, front, blocks, rfl, value⟩
    · rw [refused] at ok
      cases ok
    · have length := blocks.length_window fits
      refine ⟨blocks.address, blocks.cycle, blocks.length_address fits, blocks.length_cycle fits,
        (Except.ok.inj (value.symm.trans ok)).symm, fun v inside => ?_, fun v inside => ?_⟩
      · exact (blocks.getElem?_cycle fits inside).trans (getElem?_append_window length _).symm
      · exact (blocks.getElem?_address fits inside).trans (getElem?_append_window length _).symm
  order fits := ⟨ReadWriteDimensions.cycleRound_strictMono _, ReadWriteDimensions.addressRound_strictMono fits,
    ReadWriteDimensions.boundAt_bijective fits⟩
  readWrite fits members polys new := by
    rw [Stage2RamCells.eq_of fits new]
    exact (readWrite_sumsTo statement ⟨_, fits.phase1⟩ fits rfl rfl polys).iff _
  rafEvaluation fits members ramRa new := by
    rw [Stage2RamCells.eq_of fits new]
    have sums := raf_sumsTo statement ⟨_, fits.phase1⟩ fits rfl rfl ramRa
    have within : config.ramRwPhase1NumRounds.toNat ≤ statement.logT + statement.logK :=
      le_trans fits.phase1 (Nat.le_add_right _ _)
    refine ⟨_, checkedSub_of_le within, ?_, sums, fun two => (sums.iff _).trans (mul_pow_two_iff two _ _ _)⟩
    refine except_bind_eq_ok.mpr ⟨_, checkedSub_of_le fits.phase1, ?_⟩
    rw [pow2_eq]
    rfl
  outputCheck fits members valFinal publics new public_ := by
    rw [Stage2RamCells.eq_of fits new]
    have sums := output_sumsTo statement ⟨_, fits.phase1⟩ fits rfl rfl public_ valFinal
    have within : config.ramRwPhase1NumRounds.toNat ≤ statement.logT + statement.logK :=
      le_trans fits.phase1 (Nat.le_add_right _ _)
    have zero : (RamOutputCheck.inputExpression : F) =
      2 ^ (statement.logT - config.ramRwPhase1NumRounds.toNat) * 0 := (mul_zero _).symm
    refine ⟨_, checkedSub_of_le within, sums, fun two => (sums.iff _).trans ?_⟩
    rw [zero]
    exact (mul_pow_two_iff two _ _ _).trans eq_comm
  batch fits coefficients polys publics public_ := by
    have new : Stage2RamCells.new config statement = .ok _ := Stage2RamCells.new_ok fits.phase1
    have members := Stage2RamCells.batchMembers_of
      ⟨config.ramDimensions statement.logT statement.logK, fits.phase1⟩ coefficients rfl rfl
    have sums := batch_sumsTo statement ⟨_, fits.phase1⟩ fits rfl rfl coefficients polys public_
    obtain ⟨prelude, built, claimed⟩ := batch_claimedSum statement coefficients
      (show config.ramRwPhase1NumRounds.toNat ≤ statement.logT from fits.phase1)
      (UInt8.toNat_lt config.ramRwPhase1NumRounds) 3
    constructor
    · rintro ⟨members', batch', maxNumVars', prelude', new', batched, built', holds⟩
      obtain rfl := Except.ok.inj (new'.symm.trans new)
      obtain ⟨rfl, rfl⟩ := Prod.mk.inj (Except.ok.inj (batched.symm.trans members))
      obtain rfl := Except.ok.inj (built'.symm.trans built)
      exact claimed.symm.trans ((sums.iff _).mp holds)
    · intro holds
      exact ⟨_, _, _, prelude, new, members, built, (sums.iff _).mpr (claimed.trans holds)⟩

end

/-! ## The register check -/

section

variable (fixedCycle : List F) (polys : RegistersReadWriteClaims (List F → F)) (address cycle : List F)

/-- The value that a cycle writes. -/
def rdTerm : F := eqMle fixedCycle cycle * (polys.rdWa (address ++ cycle) *
  (polys.rdInc (address ++ cycle) + polys.registersVal (address ++ cycle)))

/-- The value that a cycle reads through one of its operands. -/
def operandTerm (ra : List F → F) : F :=
  eqMle fixedCycle cycle * (ra (address ++ cycle) * polys.registersVal (address ++ cycle))

end

/-- The check of the registers under a split. -/
structure RegisterSplitChecked (F : Type) [Field F] (config : JoltReadWriteConfig) (logT : ℕ) : Prop where
  noPanic : ∀ (batchPoint : List F) (message : String), batchPoint.length < 2 ^ 64 →
    stage4RegisterPoints config logT batchPoint ≠ .error (.panicked message)
  accepts : ∀ batchPoint : List F, batchPoint.length < 2 ^ 64 →
    ((∃ points, stage4RegisterPoints config logT batchPoint = .ok points) ↔
      config.registersRwPhase1NumRounds.toNat ≤ logT ∧
        config.registersRwPhase2NumRounds.toNat ≤ registerAddressBits ∧
        logT + registerAddressBits ≤ batchPoint.length)
  points : ∀ (batchPoint : List F) (points : RegistersReadWriteClaims (List F)), batchPoint.length < 2 ^ 64 →
    stage4RegisterPoints config logT batchPoint = .ok points →
    ∃ address cycle : List F, address.length = registerAddressBits ∧ cycle.length = logT ∧
      points = ⟨address ++ cycle, address ++ cycle, address ++ cycle, address ++ cycle, address ++ cycle⟩ ∧
      (∀ v < logT, cycle[logT - 1 - v]? = batchPoint[batchPoint.length - (logT + registerAddressBits) +
        (config.registerDimensions logT registerAddressBits).cycleRound v]?) ∧
      ∀ v < registerAddressBits, address[registerAddressBits - 1 - v]? =
        batchPoint[batchPoint.length - (logT + registerAddressBits) +
          (config.registerDimensions logT registerAddressBits).addressRound v]?
  order : (config.registerDimensions logT registerAddressBits).Fits →
    StrictMono (config.registerDimensions logT registerAddressBits).cycleRound ∧
    StrictMono (config.registerDimensions logT registerAddressBits).addressRound ∧
    ∀ round, round < logT + registerAddressBits ↔
      ∃! variable_, (config.registerDimensions logT registerAddressBits).boundAt variable_ = round
  readWrite : (config.registerDimensions logT registerAddressBits).Fits →
    ∀ (fixedCycle : List F) (polys : RegistersReadWriteClaims (List F → F)) (gamma rd rs1 rs2 : F),
    fixedCycle.length = logT →
    (SumsTo (config.registerDimensions logT registerAddressBits).readWriteRounds
        (RegistersReadWriteChecking.summand ⟨config.registerDimensions logT registerAddressBits⟩ fixedCycle gamma polys)
        (RegistersReadWriteChecking.inputExpression gamma rd rs1 rs2) ↔
      rd + gamma * rs1 + gamma ^ 2 * rs2 =
        accessSum logT registerAddressBits (rdTerm fixedCycle polys) +
          gamma * accessSum logT registerAddressBits (fun a c => operandTerm fixedCycle polys a c polys.rs1Ra) +
          gamma ^ 2 * accessSum logT registerAddressBits (fun a c => operandTerm fixedCycle polys a c polys.rs2Ra))

section

variable {config : JoltReadWriteConfig} {logT : ℕ}

omit [Field F] in
theorem stage4RegisterPoints_cases (config : JoltReadWriteConfig) (logT : ℕ) {batchPoint : List F} (short : batchPoint.length < 2 ^ 64) :
    Refused (stage4RegisterPoints config logT batchPoint) ∧
        ¬ ((config.registerDimensions logT registerAddressBits).Fits ∧
          logT + registerAddressBits ≤ batchPoint.length) ∨
      (config.registerDimensions logT registerAddressBits).Fits ∧
        ∃ (front : List F) (blocks : (config.registerDimensions logT registerAddressBits).Blocks F),
          front ++ blocks.window = batchPoint ∧
          stage4RegisterPoints config logT batchPoint =
            .ok ⟨blocks.address ++ blocks.cycle, blocks.address ++ blocks.cycle, blocks.address ++ blocks.cycle,
              blocks.address ++ blocks.cycle, blocks.address ++ blocks.cycle⟩ := by
  by_cases accepted : (config.registerDimensions logT registerAddressBits).Fits ∧
      logT + registerAddressBits ≤ batchPoint.length
  · obtain ⟨fits, enough⟩ := accepted
    obtain ⟨front, window, rfl, length⟩ := exists_window enough
    obtain ⟨blocks, rfl⟩ := ReadWriteDimensions.exists_blocks fits length
    exact .inr ⟨fits, front, blocks, rfl, stage4RegisterPoints_of_fits fits front blocks short⟩
  · exact .inl ⟨stage4RegisterPoints_refused short accepted, accepted⟩

/-- The five products of the output expression, by the power of the challenge. -/
theorem registers_sumsTo (fits : (config.registerDimensions logT registerAddressBits).Fits) {fixedCycle : List F}
    (length : fixedCycle.length = logT) (polys : RegistersReadWriteClaims (List F → F)) (gamma : F) :
    SumsTo (config.registerDimensions logT registerAddressBits).readWriteRounds
      (RegistersReadWriteChecking.summand ⟨config.registerDimensions logT registerAddressBits⟩ fixedCycle gamma polys)
      (accessSum logT registerAddressBits (rdTerm fixedCycle polys) +
        gamma * accessSum logT registerAddressBits (fun a c => operandTerm fixedCycle polys a c polys.rs1Ra) +
        gamma ^ 2 * accessSum logT registerAddressBits (fun a c => operandTerm fixedCycle polys a c polys.rs2Ra)) := by
  rw [← accessSum_mul, ← accessSum_mul, ← accessSum_add, ← accessSum_add]
  refine ReadWriteDimensions.sumsTo_window fits fun blocks => ?_
  rw [RegistersReadWriteChecking.summand_window fits rfl length]
  congr 1
  simp only [RegistersReadWriteChecking.outputExpression, rdTerm, operandTerm]
  ring

end

theorem registerSplit_checked (config : JoltReadWriteConfig) (logT : ℕ) : RegisterSplitChecked F config logT where
  noPanic batchPoint message short panics := by
    rcases stage4RegisterPoints_cases config logT short with
      ⟨⟨error, refused⟩, -⟩ | ⟨_, _, _, _, value⟩
    · rw [refused] at panics
      cases panics
    · rw [value] at panics
      cases panics
  accepts batchPoint short := by
    have fitsIff : (config.registerDimensions logT registerAddressBits).Fits ↔
        config.registersRwPhase1NumRounds.toNat ≤ logT ∧
          config.registersRwPhase2NumRounds.toNat ≤ registerAddressBits := ReadWriteDimensions.fits_iff
    rw [← and_assoc, ← fitsIff]
    rcases stage4RegisterPoints_cases config logT short with
      ⟨⟨error, refused⟩, rejected⟩ | ⟨fits, front, blocks, rfl, value⟩
    · refine ⟨?_, fun accepted => absurd accepted rejected⟩
      rintro ⟨points, ok⟩
      rw [refused] at ok
      cases ok
    · refine ⟨fun _ => ⟨fits, ?_⟩, fun _ => ⟨_, value⟩⟩
      rw [List.length_append, blocks.length_window fits]
      exact Nat.le_add_left _ _
  points batchPoint points short ok := by
    rcases stage4RegisterPoints_cases config logT short with
      ⟨⟨error, refused⟩, -⟩ | ⟨fits, front, blocks, rfl, value⟩
    · rw [refused] at ok
      cases ok
    · have length := blocks.length_window fits
      refine ⟨blocks.address, blocks.cycle, blocks.length_address fits, blocks.length_cycle fits,
        (Except.ok.inj (value.symm.trans ok)).symm, fun v inside => ?_, fun v inside => ?_⟩
      · exact (blocks.getElem?_cycle fits inside).trans (getElem?_append_window length _).symm
      · exact (blocks.getElem?_address fits inside).trans (getElem?_append_window length _).symm
  order fits := ⟨ReadWriteDimensions.cycleRound_strictMono _, ReadWriteDimensions.addressRound_strictMono fits,
    ReadWriteDimensions.boundAt_bijective fits⟩
  readWrite fits fixedCycle polys gamma rd rs1 rs2 length := (registers_sumsTo fits length polys gamma).iff _

/-- The checks of the RAM and of the registers do the same under every split that fits, and refuse the others: two
accepted splits make the second stage claim the same of the trace. -/
theorem phaseSplit_independent (config : JoltReadWriteConfig) (statement : Stage2RamStatement F) :
    RamSplitChecked config statement ∧ RegisterSplitChecked F config statement.logT ∧
    ∀ (other : JoltReadWriteConfig) (coefficients : Stage2RamCells F F F) (polys : Stage2RamPolys F)
      (publics : List F → F × F × F),
      (config.ramDimensions statement.logT statement.logK).Fits →
      (other.ramDimensions statement.logT statement.logK).Fits →
      (∀ address : List F, address.length = statement.logK →
        ramOutputCheckPublics statement.publicMemory statement.outputAddress address = .ok (publics address)) →
      (RamBatchHolds config statement coefficients polys ↔ RamBatchHolds other statement coefficients polys) :=
  ⟨ramSplit_checked config statement, registerSplit_checked config statement.logT,
    fun other coefficients polys publics fits fits' public_ =>
      ((ramSplit_checked config statement).batch fits coefficients polys publics public_).trans
        ((ramSplit_checked other statement).batch fits' coefficients polys publics public_).symm⟩

/-- One cycle variable, one address variable, and one public word. -/
def twoRounds : Stage2RamStatement (ZMod 3) where
  logT := 1
  logK := 1
  publicMemory := ⟨[], 0, 1, 0⟩
  tauLow := [2]
  outputAddress := [1]
  gamma := 2
  ramReadValue := 1
  ramWriteValue := 2
  ramAddress := 1
  length_tauLow := rfl
  length_outputAddress := rfl
  rounds_lt := by norm_num

theorem phaseSplit_independent_two :
    RamBatchHolds ⟨0, 0, 0, 0⟩ twoRounds ⟨1, 2, 1⟩ ⟨⟨List.sum, List.sum, List.prod⟩, List.prod, List.sum⟩ ↔
      RamBatchHolds ⟨1, 1, 0, 0⟩ twoRounds ⟨1, 2, 1⟩ ⟨⟨List.sum, List.sum, List.prod⟩, List.prod, List.sum⟩ :=
  haveI : Fact (Nat.Prime 3) := ⟨Nat.prime_three⟩
  (phaseSplit_independent ⟨0, 0, 0, 0⟩ twoRounds).2.2 ⟨1, 1, 0, 0⟩ _ _
    (fun address => (ramOutputCheckPublics ⟨[], 0, 1, 0⟩ [1] address).toOption.getD (0, 0, 0))
    ⟨by decide, by decide⟩ ⟨by decide, by decide⟩ fun
      | [_], _ => rfl

/-- A window of three cycle and two address variables, one of each kind bound first. -/
example : (⟨3, 2, 1, 1⟩ : ReadWriteDimensions).readWriteOpeningPoint [0, 1, 2, 3, 4] =
    .ok ⟨[4, 1], [3, 2, 0], [4, 1, 3, 2, 0]⟩ := rfl

end JoltWasm
