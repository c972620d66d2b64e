import JoltWasm.Claims.AccessChunks
import JoltWasm.Claims.RamArgument
import JoltWasm.Program.PublicBinding

/-!
# The memory argument

All relations of the RAM together, over arbitrary columns: they hold for every challenge exactly when the committed
columns are one-hot and the virtual ones are a run of a flat memory, from the public initial words to a final
memory with the claimed inputs and outputs.
-/

namespace JoltWasm.Stages

open Lib Finset Layout VerifierStop

theorem apart_of_wide {F : Type} [WideField F] {n : ℕ} (small : n ≤ 2 ^ 253) : Apart F n := fun _ less _ less' same =>
  natCast_inj_of_lt (less.trans_le small) (less'.trans_le small) same

theorem two_ne_zero_of_wide {F : Type} [WideField F] : (2 : F) ≠ 0 := by
  have two := WideField.natCast_ne_zero (F := F) 2 two_pos (Nat.lt_pow_self one_lt_two |>.trans_le' (by norm_num))
  rwa [Nat.cast_ofNat] at two

section

variable {F : Type} [Field F] (committed : OneHotColumns F) (ram : RamColumns F)

/-- The relations of the RAM hold at every point and for every challenge. -/
structure MemoryHolds (d : BooleanityDimensions) (shape : RamRafEvaluationDimensions) (initial : InitialEvaluations F)
    (publicMemory : PublicIoMemory) (addressBits : ℕ) : Prop where
  oneHot : committed.Holds d addressBits
  virtualization : ∀ address cycle : List F, address.length = shape.readWrite.logK → cycle.length = d.logT →
    SumsTo d.logT (RamRaVirtualization.summand ⟨⟨d.logT, d.layout.ram⟩, address, cycle, d.logKChunk⟩
        fun i => committed.polys d.logT (.ram i))
      (RamRaVirtualization.inputExpression (extension (gridColumn d.logT ram.ramRa) (address ++ cycle)))
  accesses : ram.Holds shape initial
  outputs : ∀ outputAddress : List F, outputAddress.length = shape.readWrite.logK →
    ∃ rounds, RamOutputCheck.rounds ⟨shape.readWrite, publicMemory⟩ = .ok rounds ∧
      SumsTo rounds (RamOutputCheck.summand ⟨shape.readWrite, publicMemory⟩ outputAddress (extension ram.ramValFinal))
        RamOutputCheck.inputExpression

variable {committed ram}

/-! ## The output check -/

/-- The check vanishes at every point exactly when the final words agree with the public ones in the window. -/
theorem outputs_iff (two : (2 : F) ≠ 0) {d : ReadWriteDimensions} (fits : d.Fits) {program : ProgramPreprocessing} {io : PublicIo}
    {checked : CheckedInputs} (valid : Checked program io checked) (domain : d.logK = checked.ramK.log2) :
    (∀ outputAddress : List F, outputAddress.length = d.logK →
      ∃ rounds, RamOutputCheck.rounds ⟨d, PublicIoMemory.new checked.publicIo⟩ = .ok rounds ∧
        SumsTo rounds (RamOutputCheck.summand ⟨d, PublicIoMemory.new checked.publicIo⟩ outputAddress (extension ram.ramValFinal))
          RamOutputCheck.inputExpression) ↔
      ∀ k, 1 ≤ k → k < 1536 → ram.ramValFinal k = finalVector io k := by
  have rounds : RamOutputCheck.rounds ⟨d, PublicIoMemory.new checked.publicIo⟩ = .ok (d.logT + d.logK - d.phase1NumRounds) :=
    checkedSub_of_le (fits.phase1.trans (Nat.le_add_right _ _))
  have sums {outputAddress : List F} (width : outputAddress.length = d.logK) :
      SumsTo (d.logT + d.logK - d.phase1NumRounds)
        (RamOutputCheck.summand ⟨d, PublicIoMemory.new checked.publicIo⟩ outputAddress (extension ram.ramValFinal))
        (2 ^ (d.logT - d.phase1NumRounds) *
          extension (fun k => windowMask k * (ram.ramValFinal k - finalVector io k)) outputAddress) := by
    have public_ : ∀ address : List F, address.length = d.logK →
        ramOutputCheckPublics (PublicIoMemory.new checked.publicIo) outputAddress address =
          .ok (extension (eqWeight outputAddress) address, extension windowMask address, extension (finalVector io) address) :=
      fun address length => ramOutputCheckPublics_eq valid (width.trans domain) (length.trans domain)
    have total : (cubeSum d.logK fun address => outputCheckExpression
        (extension (eqWeight outputAddress) address, extension windowMask address, extension (finalVector io) address)
        (extension ram.ramValFinal address)) =
        extension (fun k => windowMask k * (ram.ramValFinal k - finalVector io k)) outputAddress := by
      rw [cubeSum_eq_sum, extension, width]
      refine sum_congr rfl fun k member => ?_
      have inside := mem_range.mp member
      rw [extension_bitPoint _ inside, extension_bitPoint _ inside, extension_bitPoint _ inside, extension_bitPoint _ inside,
        outputCheckExpression]
      ring
    rw [← total]
    exact ReadWriteDimensions.sumsTo_tail fits fun blocks => except_bind_eq_ok.mpr ⟨_,
      @RamOutputCheck.deriveOpeningPoints_tail F ⟨d, PublicIoMemory.new checked.publicIo⟩ fits blocks,
      RamOutputCheck.expectedOutput_blocks fits public_ _ blocks⟩
  have window : 1536 ≤ 2 ^ d.logK := by rw [domain, valid.power]; exact valid.window
  have first : wordIndex terminationAddr = 1 := rfl
  have last := ioEndIndex_eq
  have entries : (∀ k, 1 ≤ k → k < 1536 → ram.ramValFinal k = finalVector io k) ↔
      ∀ k < 2 ^ d.logK, windowMask k * (ram.ramValFinal k - finalVector io k) = 0 := by
    constructor
    · intro same k _
      rw [windowMask]
      split_ifs with masked
      · rw [same k (by omega) (by omega), sub_self, mul_zero]
      · exact zero_mul _
    · intro zero k lower upper
      have masked := zero k (upper.trans_le window)
      rw [windowMask, if_pos ⟨by omega, by omega⟩, one_mul] at masked
      exact sub_eq_zero.mp masked
  rw [entries, ← forall_extension_eq_iff (g := fun _ => 0)]
  refine forall_congr' fun outputAddress => forall_congr' fun width => ?_
  rw [extension_zero]
  constructor
  · rintro ⟨_, rounds_, holds⟩
    obtain rfl := Except.ok.inj (rounds_.symm.trans rounds)
    exact (mul_eq_zero.mp (holds.unique (sums width)).symm).resolve_left (pow_ne_zero _ two)
  · intro zero
    refine ⟨_, rounds, ((sums width).iff _).mpr ?_⟩
    rw [zero, mul_zero]
    rfl

end

/-! ## The whole argument -/

/-- The verifier's initial memory of a program in the open. -/
def InitialEvaluations.OfFull {F : Type} [Field F] (initial : InitialEvaluations F) (checked : CheckedInputs)
    (preprocessing : WasmProgramPreprocessing) : Prop :=
  ∀ address : List F, address.length = checked.ramK.log2 →
    ∃ publicEval, publicInitialRamEvaluation checked (.full preprocessing) address = .ok publicEval ∧
      initial.init address = RamValCheckInitStructure.decomposition ⟨publicEval, none⟩

/-- The place of a cycle's access to the RAM. -/
def ramPlace (logK logKChunk : ℕ) (hots : JoltRaPolynomial → ℕ → Option ℕ) (j : ℕ) : Option ℕ :=
  accessedPlace logK logKChunk fun i => hots (.ram i) j

/-- The relations of the RAM hold for every challenge exactly when the columns are a run of the memory from the
public initial words to the claimed final ones. -/
theorem memoryHolds_iff {F : Type} [WideField F] {committed : OneHotColumns F} {ram : RamColumns F} {source : IrProgram}
    {maxTraceLength : ℕ} {preprocessing : WasmProgramPreprocessing}
    (preprocessed : WasmProgramPreprocessing.new source maxTraceLength = .ok preprocessing) {io : PublicIo} {checked : CheckedInputs}
    (valid : Checked (.full preprocessing) io checked) {d : BooleanityDimensions} {shape : RamRafEvaluationDimensions}
    (fits : shape.readWrite.Fits) (cycles : shape.readWrite.logT = d.logT) (domain : shape.readWrite.logK = checked.ramK.log2)
    (chunked : d.layout.ram = chunkCount shape.readWrite.logK d.logKChunk) (positive : 0 < d.logKChunk) (narrow : d.logKChunk < 253)
    (few : d.layout.total * 3 ≤ 2 ^ 253) {initial : InitialEvaluations F} (opened : initial.OfFull checked preprocessing)
    (addressBits : ℕ) :
    MemoryHolds committed ram d shape initial (PublicIoMemory.new checked.publicIo) addressBits ↔
      ∃ hots, committed.Hot d hots ∧
        (∀ j < 2 ^ d.logT, HotColumn (2 ^ shape.readWrite.logK) (fun k => ram.ramRa k j)
          (ramPlace shape.readWrite.logK d.logKChunk hots j)) ∧
        ram.Run shape.readWrite.logK (2 ^ d.logT) (initialVector preprocessing io.inputs)
          (ramPlace shape.readWrite.logK d.logKChunk hots) ∧
        ∀ k, 1 ≤ k → k < 1536 → ram.ramValFinal k = finalVector io k := by
  have window : 1536 ≤ 2 ^ shape.readWrite.logK := by rw [domain, valid.power]; exact valid.window
  have some_ : 0 < shape.readWrite.logK := Nat.pos_of_ne_zero fun zero => by
    rw [zero, pow_zero] at window
    omega
  have nonempty : 0 < d.layout.total := by
    have more : 0 < d.layout.ram := by
      rw [chunked]
      exact Nat.div_pos (by omega) positive
    rw [JoltRaPolynomialLayout.total]
    omega
  have evaluate : initial.Evaluate shape.readWrite.logK (initialVector preprocessing io.inputs) := by
    intro _ address width
    obtain ⟨publicEval, evaluated, init⟩ := opened address (width.trans domain)
    rw [publicInitialRamEvaluation_full preprocessed valid (width.trans domain)] at evaluated
    rw [Except.ok.inj evaluated]
    unfold RamValCheck.initEval
    rw [init]
    rfl
  have bits : Apart F (2 ^ d.logKChunk + 1) := apart_of_wide (Nat.pow_lt_pow_right one_lt_two narrow)
  have hotIff := committed.holds_iff_hot nonempty (apart_of_wide few) bits addressBits
  have joined {hots : JoltRaPolynomial → ℕ → Option ℕ} (hot : committed.Hot d hots) {j : ℕ} (below : j < 2 ^ d.logT) :
      HotColumn (2 ^ shape.readWrite.logK) (fun k => committed.chunkProduct .ram shape.readWrite.logK d.logKChunk k j)
        (ramPlace shape.readWrite.logK d.logKChunk hots j) :=
    OneHotColumns.chunkProduct_hot positive fun i listed => hot.hot _ (d.layout.ram_mem (by rwa [chunked])) j below
  have products := @OneHotColumns.ramRaVirtualization_iff F _ committed d.logKChunk shape.readWrite.logK d.logT positive some_ ram.ramRa
  rw [← chunked] at products
  have run {hots : JoltRaPolynomial → ℕ → Option ℕ} (hot : ∀ j < 2 ^ d.logT, HotColumn (2 ^ shape.readWrite.logK)
      (fun k => ram.ramRa k j) (ramPlace shape.readWrite.logK d.logKChunk hots j)) :=
    RamColumns.holds_iff_run two_ne_zero_of_wide fits evaluate (by rwa [cycles])
  rw [cycles] at run
  constructor
  · intro holds
    obtain ⟨hots, hot⟩ := hotIff.mp holds.oneHot
    have accesses : ∀ j < 2 ^ d.logT, HotColumn (2 ^ shape.readWrite.logK) (fun k => ram.ramRa k j)
        (ramPlace shape.readWrite.logK d.logKChunk hots j) := fun j below =>
      (joined hot below).congr fun k inside => products.mp holds.virtualization k inside j below
    exact ⟨hots, hot, accesses, (run accesses).mp holds.accesses, (outputs_iff two_ne_zero_of_wide fits valid domain).mp holds.outputs⟩
  · rintro ⟨hots, hot, accesses, ran, final⟩
    refine ⟨hotIff.mpr ⟨hots, hot⟩, products.mpr fun k inside j below => ?_, (run accesses).mpr ran,
      (outputs_iff two_ne_zero_of_wide fits valid domain).mpr final⟩
    exact ((accesses j below).entry k inside).trans ((joined hot below).entry k inside).symm

end JoltWasm.Stages
