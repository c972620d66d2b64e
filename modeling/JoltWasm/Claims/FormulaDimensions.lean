import JoltWasm.Claims.LookupRelations
import JoltWasm.Claims.FetchRelations
import JoltWasm.Claims.OneHotRelations
import JoltWasm.Program.Transcript

/-!
# The dimensions of the relations

One configuration fixes the dimensions of all relations over one-hot columns: the verifier derives them from the
chunk sizes of the proof and from the sizes of the trace, the bytecode table and the RAM.
-/

namespace JoltWasm

open Lib

/-- What the derivation refuses. -/
inductive OneHotDimensionsError where
  | zero (name : String)
  | overflow (name : String)
  | invalidChunkOrder (committedChunkBits lookupVirtualChunkBits : ℕ)
  | notDivisible (valueName : String) (value : ℕ) (divisorName : String) (divisor : ℕ)
  deriving DecidableEq

def OneHotDimensionsError.message : OneHotDimensionsError → String
  | zero name => s!"{name} must be nonzero"
  | overflow name => s!"{name} overflowed"
  | invalidChunkOrder committedChunkBits lookupVirtualChunkBits =>
      s!"lookup_virtual_chunk_bits ({lookupVirtualChunkBits}) must be >= committed_chunk_bits ({committedChunkBits})"
  | notDivisible valueName value divisorName divisor => s!"{valueName} ({value}) must be divisible by {divisorName} ({divisor})"

def JoltRaPolynomialLayout.new (instruction bytecode ram : ℕ) : Except OneHotDimensionsError JoltRaPolynomialLayout :=
  if 2 ^ 64 ≤ instruction + bytecode + ram then .error (.overflow "Jolt RA polynomial count")
  else if instruction + bytecode + ram = 0 then .error (.zero "Jolt RA polynomial count")
  else .ok ⟨instruction, bytecode, ram⟩

namespace Stages

structure JoltOneHotDimensions where
  logT : ℕ
  instructionAddressBits : ℕ
  bytecodeK : ℕ
  ramK : ℕ
  committedChunkBits : ℕ
  lookupVirtualChunkBits : ℕ

/-- `JoltOneHotConfig::dimensions`. -/
def JoltOneHotDimensions.of (config : FiatShamir.JoltOneHotConfig) (logT instructionAddressBits bytecodeK ramK : ℕ) :
    JoltOneHotDimensions :=
  ⟨logT, instructionAddressBits, bytecodeK, ramK, config.logKChunk.toNat, config.lookupsRaVirtualLogKChunk.toNat⟩

def requireNonzero (value : ℕ) (name : String) : Except OneHotDimensionsError Unit :=
  if value = 0 then .error (.zero name) else .ok ()

def requireDivisible (valueName : String) (value : ℕ) (divisorName : String) (divisor : ℕ) :
    Except OneHotDimensionsError Unit :=
  if value % divisor = 0 then .ok () else .error (.notDivisible valueName value divisorName divisor)

/-- `ceil_log_2`. -/
def ceilLog2 (value : ℕ) : ℕ := if value ≤ 1 then 0 else (value - 1).log2 + 1

def InstructionReadRafDimensions.tryFrom (logT instructionAddressBits numVirtualRaPolys : ℕ) :
    Except OneHotDimensionsError InstructionReadRafDimensions :=
  if instructionAddressBits = 0 then .error (.zero "instruction_address_bits")
  else if numVirtualRaPolys = 0 then .error (.zero "instruction virtual RA polynomial count")
  else .ok ⟨logT, instructionAddressBits, numVirtualRaPolys⟩

def InstructionRaVirtualizationDimensions.tryFrom (logT numVirtualRaPolys numCommittedPerVirtual : ℕ) :
    Except OneHotDimensionsError InstructionRaVirtualizationDimensions :=
  if numVirtualRaPolys = 0 then .error (.zero "instruction virtual RA polynomial count")
  else if numCommittedPerVirtual = 0 then .error (.zero "committed RA polynomials per virtual RA")
  else if 2 ^ 64 ≤ numCommittedPerVirtual + 1 then .error (.overflow "instruction RA virtualization sumcheck degree")
  else if 2 ^ 64 ≤ numVirtualRaPolys * numCommittedPerVirtual then
    .error (.overflow "instruction committed RA polynomial count")
  else .ok ⟨logT, numVirtualRaPolys, numCommittedPerVirtual⟩

structure JoltFormulaDimensions where
  trace : TraceDimensions
  raLayout : JoltRaPolynomialLayout
  instructionReadRaf : InstructionReadRafDimensions
  instructionRaVirtualization : InstructionRaVirtualizationDimensions
  bytecodeReadRaf : BytecodeReadRafDimensions
  ramRaVirtualization : RamRaVirtualizationDimensions

namespace JoltFormulaDimensions

def tryFrom (dimensions : JoltOneHotDimensions) : Except OneHotDimensionsError JoltFormulaDimensions := do
  requireNonzero dimensions.instructionAddressBits "instruction_address_bits"
  requireNonzero dimensions.bytecodeK "bytecode_k"
  requireNonzero dimensions.ramK "ram_k"
  requireNonzero dimensions.committedChunkBits "committed_chunk_bits"
  requireNonzero dimensions.lookupVirtualChunkBits "lookup_virtual_chunk_bits"
  if dimensions.lookupVirtualChunkBits < dimensions.committedChunkBits then
    .error (.invalidChunkOrder dimensions.committedChunkBits dimensions.lookupVirtualChunkBits)
  requireDivisible "lookup_virtual_chunk_bits" dimensions.lookupVirtualChunkBits "committed_chunk_bits"
    dimensions.committedChunkBits
  requireDivisible "instruction_address_bits" dimensions.instructionAddressBits "lookup_virtual_chunk_bits"
    dimensions.lookupVirtualChunkBits
  let bytecodeLogK := ceilLog2 dimensions.bytecodeK
  let ramLogK := ceilLog2 dimensions.ramK
  let instructionD := chunkCount dimensions.instructionAddressBits dimensions.committedChunkBits
  let bytecodeD := chunkCount bytecodeLogK dimensions.committedChunkBits
  let ramD := chunkCount ramLogK dimensions.committedChunkBits
  let virtualInstructionRaPolys := dimensions.instructionAddressBits / dimensions.lookupVirtualChunkBits
  let committedPerVirtual := dimensions.lookupVirtualChunkBits / dimensions.committedChunkBits
  let raLayout ← JoltRaPolynomialLayout.new instructionD bytecodeD ramD
  let instructionReadRaf ← InstructionReadRafDimensions.tryFrom dimensions.logT dimensions.instructionAddressBits
    virtualInstructionRaPolys
  let instructionRaVirtualization ← InstructionRaVirtualizationDimensions.tryFrom dimensions.logT
    virtualInstructionRaPolys committedPerVirtual
  return ⟨⟨dimensions.logT⟩, raLayout, instructionReadRaf, instructionRaVirtualization,
    ⟨dimensions.logT, bytecodeLogK, bytecodeD⟩, ⟨dimensions.logT, ramD⟩⟩

/-- What derived dimensions have in common: the chunks tile the instruction address, and every address has its
number of chunks. -/
structure Tiled (dimensions : JoltOneHotDimensions) (derived : JoltFormulaDimensions) : Prop where
  positive : 0 < dimensions.committedChunkBits
  wide : 0 < dimensions.instructionAddressBits
  virtual : dimensions.committedChunkBits ∣ dimensions.lookupVirtualChunkBits
  address : dimensions.lookupVirtualChunkBits ∣ dimensions.instructionAddressBits
  trace : derived.trace = ⟨dimensions.logT⟩
  layout : derived.raLayout = ⟨chunkCount dimensions.instructionAddressBits dimensions.committedChunkBits,
    chunkCount (ceilLog2 dimensions.bytecodeK) dimensions.committedChunkBits,
    chunkCount (ceilLog2 dimensions.ramK) dimensions.committedChunkBits⟩
  readRaf : derived.instructionReadRaf = ⟨dimensions.logT, dimensions.instructionAddressBits,
    dimensions.instructionAddressBits / dimensions.lookupVirtualChunkBits⟩
  virtualization : derived.instructionRaVirtualization = ⟨dimensions.logT,
    dimensions.instructionAddressBits / dimensions.lookupVirtualChunkBits,
    dimensions.lookupVirtualChunkBits / dimensions.committedChunkBits⟩
  bytecode : derived.bytecodeReadRaf = ⟨dimensions.logT, ceilLog2 dimensions.bytecodeK,
    chunkCount (ceilLog2 dimensions.bytecodeK) dimensions.committedChunkBits⟩
  ram : derived.ramRaVirtualization = ⟨dimensions.logT, chunkCount (ceilLog2 dimensions.ramK) dimensions.committedChunkBits⟩

theorem requireNonzero_ok {value : ℕ} {name : String} (required : requireNonzero value name = .ok ()) : 0 < value := by
  unfold requireNonzero at required
  split at required
  · cases required
  · omega

theorem requireDivisible_ok {valueName divisorName : String} {value divisor : ℕ}
    (required : requireDivisible valueName value divisorName divisor = .ok ()) : divisor ∣ value := by
  unfold requireDivisible at required
  split at required
  · next zero => exact Nat.dvd_of_mod_eq_zero zero
  · cases required

theorem tryFrom_tiled {dimensions : JoltOneHotDimensions} {derived : JoltFormulaDimensions}
    (from_ : tryFrom dimensions = .ok derived) : Tiled dimensions derived := by
  obtain ⟨⟨⟩, wide, from_⟩ := except_bind_eq_ok.mp from_
  obtain ⟨-, -, from_⟩ := except_bind_eq_ok.mp from_
  obtain ⟨-, -, from_⟩ := except_bind_eq_ok.mp from_
  obtain ⟨⟨⟩, positive, from_⟩ := except_bind_eq_ok.mp from_
  obtain ⟨-, -, from_⟩ := except_bind_eq_ok.mp from_
  obtain ⟨-, from_⟩ := except_check_eq_ok.mp from_
  obtain ⟨⟨⟩, virtual, from_⟩ := except_bind_eq_ok.mp from_
  obtain ⟨⟨⟩, address, from_⟩ := except_bind_eq_ok.mp from_
  obtain ⟨layout, laid, from_⟩ := except_bind_eq_ok.mp from_
  obtain ⟨readRaf, reads, from_⟩ := except_bind_eq_ok.mp from_
  obtain ⟨virtualization, virtualizes, from_⟩ := except_bind_eq_ok.mp from_
  cases from_
  refine ⟨requireNonzero_ok positive, requireNonzero_ok wide, requireDivisible_ok virtual, requireDivisible_ok address, rfl, ?_,
    ?_, ?_, rfl, rfl⟩
  · unfold JoltRaPolynomialLayout.new at laid
    split_ifs at laid
    exact (Except.ok.inj laid).symm
  · unfold InstructionReadRafDimensions.tryFrom at reads
    split_ifs at reads
    exact (Except.ok.inj reads).symm
  · unfold InstructionRaVirtualizationDimensions.tryFrom at virtualizes
    split_ifs at virtualizes
    exact (Except.ok.inj virtualizes).symm

theorem ceilLog2_two_pow (n : ℕ) : ceilLog2 (2 ^ n) = n := by
  unfold ceilLog2
  rcases n with _ | n
  · rfl
  · have large : 1 < 2 ^ (n + 1) := Nat.one_lt_two_pow (Nat.succ_ne_zero n)
    rw [if_neg (Nat.not_le.mpr large)]
    refine congrArg Nat.succ ((Nat.log2_eq_iff (by omega)).mpr ⟨?_, by omega⟩)
    rw [pow_succ] at large ⊢
    omega

end JoltFormulaDimensions

end Stages

end JoltWasm
