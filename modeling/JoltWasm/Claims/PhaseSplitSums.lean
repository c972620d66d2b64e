import JoltWasm.Claims.PhaseSplitClaims
import JoltWasm.Sumcheck.Completeness

/-!
# The sums of the members

Over its window a member sums to a sum over addresses and cycles that does not mention the split, times two
for each cycle variable that it does not read.
-/

namespace JoltWasm

open Lib VerifierStop Layout

variable {F : Type} [Field F]

namespace ReadWriteDimensions

variable {d : ReadWriteDimensions}

theorem exists_blocks_tail (fits : d.Fits) {tail : List F} (length : tail.length = d.logT + d.logK - d.phase1NumRounds) :
    ∃ blocks : d.Blocks F, blocks.tail = tail := by
  have first := fits.phase1
  have whole : (List.replicate d.phase1NumRounds 0 ++ tail).length = d.logT + d.logK := by
    rw [List.length_append, List.length_replicate, length]
    omega
  obtain ⟨blocks, cut⟩ := exists_blocks fits whole
  refine ⟨blocks, List.append_inj_right cut ?_⟩
  rw [blocks.length_phase1, List.length_replicate]

/-- A sum over the window is a sum over addresses and cycles. -/
theorem cubeSum_window (fits : d.Fits) {f : List F → F} {g : List F → List F → F}
    (reads : ∀ blocks : d.Blocks F, f blocks.window = g blocks.address blocks.cycle) :
    cubeSum (d.logT + d.logK) f = cubeSum d.logK fun address => cubeSum d.logT fun cycle => g address cycle := by
  have first := fits.phase1
  have second := fits.phase2
  have cycles : d.phase1NumRounds + (d.logT - d.phase1NumRounds) = d.logT := by omega
  have addresses : d.phase2NumRounds + (d.logK - d.phase2NumRounds) = d.logK := by omega
  have total : d.logT + d.logK = d.phase1NumRounds + (d.phase2NumRounds +
      ((d.logT - d.phase1NumRounds) + (d.logK - d.phase2NumRounds))) := by omega
  have blockSums := cubeSum_interleaved d.phase1NumRounds d.phase2NumRounds (d.logT - d.phase1NumRounds)
    (d.logK - d.phase2NumRounds) g
  rw [cycles, addresses] at blockSums
  rw [total, cubeSum_append, ← blockSums]
  refine cubeSum_congr fun a lengthA => ?_
  rw [cubeSum_append]
  refine cubeSum_congr fun b lengthB => ?_
  rw [cubeSum_append]
  refine cubeSum_congr fun c lengthC => cubeSum_congr fun e lengthE => ?_
  exact reads ⟨a, b, c, e, lengthA, lengthB, lengthC, lengthE⟩

/-- A sum over the window without the first phase is a sum over addresses, doubled for each cycle variable
that is left in it. -/
theorem cubeSum_tail (fits : d.Fits) {f : List F → F} {g : List F → F}
    (reads : ∀ blocks : d.Blocks F, f blocks.tail = g blocks.address) :
    cubeSum (d.logT + d.logK - d.phase1NumRounds) f =
      2 ^ (d.logT - d.phase1NumRounds) * cubeSum d.logK g := by
  have first := fits.phase1
  have second := fits.phase2
  have addresses : d.phase2NumRounds + (d.logK - d.phase2NumRounds) = d.logK := by omega
  have total : d.logT + d.logK - d.phase1NumRounds = d.phase2NumRounds +
      ((d.logT - d.phase1NumRounds) + (d.logK - d.phase2NumRounds)) := by omega
  have gapSum := cubeSum_gap d.phase2NumRounds (d.logT - d.phase1NumRounds) (d.logK - d.phase2NumRounds) g
  rw [addresses] at gapSum
  rw [total, cubeSum_append, ← gapSum]
  refine cubeSum_congr fun b lengthB => ?_
  rw [cubeSum_append]
  refine cubeSum_congr fun c lengthC => cubeSum_congr fun e lengthE => ?_
  exact reads ⟨List.replicate d.phase1NumRounds 0, b, c, e, List.length_replicate, lengthB, lengthC, lengthE⟩

theorem sumsTo_window {ε : Type} (fits : d.Fits) {summand : List F → Except ε F} {g : List F → List F → F}
    (values : ∀ blocks : d.Blocks F, summand blocks.window = .ok (g blocks.address blocks.cycle)) :
    SumsTo (d.logT + d.logK) summand
      (cubeSum d.logK fun address => cubeSum d.logT fun cycle => g address cycle) := by
  refine .of_values (fun x length => ?_) fun f known => cubeSum_window fits fun blocks => known _ _ (values blocks)
  obtain ⟨blocks, rfl⟩ := exists_blocks fits length
  exact ⟨_, values blocks⟩

theorem sumsTo_tail {ε : Type} (fits : d.Fits) {summand : List F → Except ε F} {g : List F → F}
    (values : ∀ blocks : d.Blocks F, summand blocks.tail = .ok (g blocks.address)) :
    SumsTo (d.logT + d.logK - d.phase1NumRounds) summand
      (2 ^ (d.logT - d.phase1NumRounds) * cubeSum d.logK g) := by
  refine .of_values (fun x length => ?_) fun f known => cubeSum_tail fits fun blocks => known _ _ (values blocks)
  obtain ⟨blocks, rfl⟩ := exists_blocks_tail fits length
  exact ⟨_, values blocks⟩

end ReadWriteDimensions

/-! ## The terms of the members -/

/-- The sum over all addresses and cycles. -/
def accessSum (logT logK : ℕ) (g : List F → List F → F) : F :=
  cubeSum logK fun address => cubeSum logT fun cycle => g address cycle

theorem accessSum_add (logT logK : ℕ) (f g : List F → List F → F) :
    accessSum logT logK (fun a c => f a c + g a c) = accessSum logT logK f + accessSum logT logK g := by
  simp only [accessSum, cubeSum_add]

theorem accessSum_mul (logT logK : ℕ) (s : F) (g : List F → List F → F) :
    accessSum logT logK (fun a c => s * g a c) = s * accessSum logT logK g := by
  simp only [accessSum, cubeSum_mul]

theorem accessSum_address (logT logK : ℕ) (g : List F → F) :
    accessSum logT logK (fun a _ => g a) = 2 ^ logT * cubeSum logK g := by
  simp only [accessSum, cubeSum_const, cubeSum_mul]

/-- The byte address of a word. -/
def byteAddress (address : List F) : F := identityEvaluate address * 8 + (ramBase : F)

section

variable (tauLow : List F) (polys : RamReadWriteClaims (List F → F)) (address cycle : List F)

/-- The value that a cycle reads. -/
def readTerm : F := eqMle tauLow cycle * (polys.ra (address ++ cycle) * polys.val (address ++ cycle))

/-- The value that a cycle leaves. -/
def writeTerm : F :=
  eqMle tauLow cycle * (polys.ra (address ++ cycle) * (polys.val (address ++ cycle) + polys.inc (address ++ cycle)))

end

section

variable {d : ReadWriteDimensions} {tauLow : List F}

theorem publicEqFailed_ok (stage : RelationId) {left right : List F} (arity : left.length = right.length) :
    publicEqFailed stage (tryEqMle left right) = .ok (eqMle left right) := by
  rw [tryEqMle, if_neg (by rw [arity]; exact fun differ => differ rfl)]
  rfl

theorem RamReadWriteChecking.expectedOutput_blocks (fits : d.Fits) (length : tauLow.length = d.logT) (gamma : F)
    (polys : RamReadWriteClaims (List F → F)) (blocks : d.Blocks F) :
    RamReadWriteChecking.expectedOutput ⟨d, d.logK, tauLow⟩ gamma polys
      ⟨blocks.address ++ blocks.cycle, blocks.address ++ blocks.cycle, blocks.address ++ blocks.cycle⟩ =
      .ok (readTerm tauLow polys blocks.address blocks.cycle +
        gamma * writeTerm tauLow polys blocks.address blocks.cycle) := by
  have cycle : (blocks.address ++ blocks.cycle).drop d.logK = blocks.cycle := by
    rw [← blocks.length_address fits, List.drop_left]
  have long : ¬ (blocks.address ++ blocks.cycle).length < d.logK := by
    rw [List.length_append, blocks.length_address fits]
    omega
  have value : RamReadWriteChecking.eqCycle ⟨d, d.logK, tauLow⟩
      ⟨blocks.address ++ blocks.cycle, blocks.address ++ blocks.cycle, blocks.address ++ blocks.cycle⟩ =
      .ok (eqMle tauLow blocks.cycle) := by
    unfold RamReadWriteChecking.eqCycle
    rw [if_neg long, cycle, publicEqFailed_ok _ (length.trans (blocks.length_cycle fits).symm)]
  refine except_bind_eq_ok.mpr ⟨_, value, congrArg Except.ok ?_⟩
  simp only [outputExpression, readTerm, writeTerm]
  ring

theorem RamRafEvaluation.expectedOutput_blocks (tauLow : List F) (fits : d.Fits) (shape : RamRafEvaluationDimensions)
    (ramRa : List F → F) (blocks : d.Blocks F) :
    RamRafEvaluation.expectedOutput ⟨shape, d, d.logK, ramBase, tauLow⟩ ramRa (blocks.address ++ tauLow) =
      .ok (byteAddress blocks.address * ramRa (blocks.address ++ tauLow)) := by
  have address : (blocks.address ++ tauLow).take d.logK = blocks.address := by
    rw [← blocks.length_address fits, List.take_left]
  have long : ¬ (blocks.address ++ tauLow).length < d.logK := by
    rw [List.length_append, blocks.length_address fits]
    omega
  have value : RamRafEvaluation.unmapAddress ⟨shape, d, d.logK, ramBase, tauLow⟩ (blocks.address ++ tauLow) =
      .ok (byteAddress blocks.address) := by
    unfold RamRafEvaluation.unmapAddress
    rw [if_neg long, address]
    rfl
  exact except_bind_eq_ok.mpr ⟨_, value, rfl⟩

theorem RamOutputCheck.expectedOutput_blocks (fits : d.Fits) {memory : PublicIoMemory} {outputAddress : List F}
    {publics : List F → F × F × F} (public_ : ∀ address : List F, address.length = d.logK →
      ramOutputCheckPublics memory outputAddress address = .ok (publics address))
    (valFinal : List F → F) (blocks : d.Blocks F) :
    RamOutputCheck.expectedOutput ⟨d, memory⟩ outputAddress valFinal blocks.address =
      .ok (outputCheckExpression (publics blocks.address) (valFinal blocks.address)) := by
  unfold RamOutputCheck.expectedOutput
  rw [public_ _ (blocks.length_address fits)]
  rfl

theorem RegistersReadWriteChecking.summand_window {fixedCycle : List F} (fits : d.Fits)
    (width : d.logK = registerAddressBits) (length : fixedCycle.length = d.logT) (gamma : F)
    (polys : RegistersReadWriteClaims (List F → F)) (blocks : d.Blocks F) :
    RegistersReadWriteChecking.summand ⟨d⟩ fixedCycle gamma polys blocks.window =
      .ok (outputExpression (eqMle fixedCycle blocks.cycle) gamma
        ⟨polys.registersVal (blocks.address ++ blocks.cycle), polys.rs1Ra (blocks.address ++ blocks.cycle),
          polys.rs2Ra (blocks.address ++ blocks.cycle), polys.rdWa (blocks.address ++ blocks.cycle),
          polys.rdInc (blocks.address ++ blocks.cycle)⟩) := by
  have cycle : (blocks.address ++ blocks.cycle).drop registerAddressBits = blocks.cycle := by
    rw [← width, ← blocks.length_address fits, List.drop_left]
  have long : ¬ (blocks.address ++ blocks.cycle).length < registerAddressBits := by
    rw [List.length_append, blocks.length_address fits, width]
    omega
  have points := @RegistersReadWriteChecking.deriveOpeningPoints_window F ⟨d⟩ fits blocks
  refine except_bind_eq_ok.mpr ⟨_, points, except_bind_eq_ok.mpr ⟨eqMle fixedCycle blocks.cycle, ?_, rfl⟩⟩
  unfold RegistersReadWriteChecking.eqCycle
  rw [if_neg long, cycle, publicEqFailed_ok _ (length.trans (blocks.length_cycle fits).symm)]

end

end JoltWasm
