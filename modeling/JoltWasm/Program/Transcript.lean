import JoltWasm.Lib.Delimits
import JoltWasm.Claims.PhaseSplit
import JoltWasm.Opening.FinalPoint

/-!
# What the transcript absorbs before the first challenge

The preamble and the commitments, as bytes.  Each append is marked and carries its length; labels and words
are padded to thirty-two bytes, and the configuration says how many commitments follow.
-/

namespace JoltWasm.FiatShamir

open Lib

/-! ## The transcript -/

/-- A slice: its length is a `usize`. -/
@[ext] structure Slice (α : Type) where
  toList : List α
  bounded : toList.length < 2 ^ 64

/-- The bytes of `u64::to_le_bytes`. -/
def toLeBytes (x : U64) : List UInt8 := (List.range 8).map fun i => ⟨x.extractLsb' (8 * i) 8⟩

def toBeBytes (x : U64) : List UInt8 := (toLeBytes x).reverse

/-- `usize as u64` for the length of a slice. -/
def u64FromUsize (n : ℕ) : U64 := BitVec.ofNat 64 n

/-- The bytes that the sponge has absorbed. -/
structure SpongeTranscript where
  absorbed : List UInt8

def appendMarker : UInt8 := 0x9B

/-- The marker, the length and the body of one append. -/
def frame (bytes : Slice UInt8) : List UInt8 :=
  appendMarker :: (toLeBytes (u64FromUsize bytes.toList.length) ++ bytes.toList)

/-- A type whose values absorb themselves, in one append. -/
class AppendToTranscript (A : Type) where
  transcriptBytes : A → Slice UInt8
  transcriptPayloadLen : A → Option U64 := fun _ => none

open AppendToTranscript

/-- The bytes of a label. -/
def ascii (text : String) : List UInt8 := text.toList.map fun c => c.toNat.toUInt8

/-- A label of at most 32 bytes; `append_to_transcript` asserts it. -/
structure Label where
  text : String
  short : (ascii text).length ≤ 32

structure LabelWithCount where
  text : String
  count : U64
  short : (ascii text).length ≤ 24

structure U64Word where
  word : U64

@[simp] theorem length_toLeBytes (x : U64) : (toLeBytes x).length = 8 := by rw [toLeBytes, List.length_map, List.length_range]

@[simp] theorem length_toBeBytes (x : U64) : (toBeBytes x).length = 8 := by rw [toBeBytes, List.length_reverse, length_toLeBytes]

instance : AppendToTranscript Label where
  transcriptBytes label :=
    { toList := ascii label.text ++ List.replicate (32 - (ascii label.text).length) 0
      bounded := by
        have short := label.short
        rw [List.length_append, List.length_replicate]
        omega }

instance : AppendToTranscript LabelWithCount where
  transcriptBytes label :=
    { toList := ascii label.text ++ List.replicate (24 - (ascii label.text).length) 0 ++ toBeBytes label.count
      bounded := by
        have short := label.short
        rw [List.length_append, List.length_append, List.length_replicate, length_toBeBytes]
        omega }

instance : AppendToTranscript U64Word where
  transcriptBytes word :=
    { toList := List.replicate 24 0 ++ toBeBytes word.word
      bounded := by
        rw [List.length_append, List.length_replicate, length_toBeBytes]
        omega }

/-- An element of the target group, as its uncompressed serialization.  A Dory commitment is one. -/
@[ext] structure Bn254GT where
  uncompressed : Slice UInt8

instance : AppendToTranscript Bn254GT where
  transcriptBytes element :=
    ⟨element.uncompressed.toList.reverse, by rw [List.length_reverse]; exact element.uncompressed.bounded⟩
  transcriptPayloadLen element := some (u64FromUsize element.uncompressed.toList.length)

namespace SpongeTranscript

def appendBytes (t : SpongeTranscript) (bytes : Slice UInt8) : SpongeTranscript := ⟨t.absorbed ++ frame bytes⟩

def append {A : Type} [AppendToTranscript A] (t : SpongeTranscript) (value : A) : SpongeTranscript :=
  t.appendBytes (transcriptBytes value)

def absorbLabeledBytes (t : SpongeTranscript) (label : String) (bytes : Slice UInt8)
    (short : (ascii label).length ≤ 24 := by decide) : SpongeTranscript :=
  (t.append (LabelWithCount.mk label (u64FromUsize bytes.toList.length) short)).appendBytes bytes

def absorbLabeledWords (t : SpongeTranscript) (label : String) (words : Slice U64)
    (short : (ascii label).length ≤ 24 := by decide) : SpongeTranscript :=
  words.toList.foldl (fun t word => t.append (U64Word.mk word))
    (t.append (LabelWithCount.mk label (u64FromUsize words.toList.length) short))

def absorbLabeledU64 (t : SpongeTranscript) (label : String) (value : U64)
    (short : (ascii label).length ≤ 32 := by decide) : SpongeTranscript :=
  (t.append (Label.mk label short)).append (U64Word.mk value)

/-- The label with the payload's length when the payload has one. -/
def appendPayloadLabel {C : Type} [AppendToTranscript C] (t : SpongeTranscript) (label : String) (payload : C)
    (short : (ascii label).length ≤ 24 := by decide) : SpongeTranscript :=
  match transcriptPayloadLen payload with
  | some len => t.append (LabelWithCount.mk label len short)
  | none => t.append (Label.mk label (short.trans (by decide)))

end SpongeTranscript

/-! ## The preamble and the commitments -/

structure Digest where
  bytes : Slice UInt8
  sized : bytes.toList.length = 32

structure JoltOneHotConfig where
  logKChunk : UInt8
  lookupsRaVirtualLogKChunk : UInt8
  deriving DecidableEq

structure ProofTranscriptConfig where
  rwConfig : JoltReadWriteConfig
  oneHotConfig : JoltOneHotConfig
  tracePolynomialOrder : TracePolynomialOrder

/-- The inputs that the preamble reads. -/
structure CheckedInputs where
  preprocessingDigest : Digest
  entryPc : U64
  inputs : Slice U64
  outputs : Slice U64
  ramK : U64
  traceLength : U64

/-- The position of the last entry with a property. -/
def rposition {α : Type} (p : α → Bool) (l : List α) : Option ℕ :=
  (l.reverse.findIdx? p).map fun back => l.length - 1 - back

/-- The output words without the zeros at the end. -/
def truncateOutputs (outputs : List U64) : List U64 :=
  outputs.take (match rposition (· != 0) outputs with
    | some position => position + 1
    | none => 0)

/-- The inputs with the outputs normalized, as `validate_inputs` leaves them. -/
def CheckedInputs.normalized (checked : CheckedInputs) : CheckedInputs :=
  { checked with outputs := ⟨truncateOutputs checked.outputs.toList,
      (List.length_take_le' _ _).trans_lt checked.outputs.bounded⟩ }

/-- `TracePolynomialOrder::transcript_scalar`. -/
def transcriptScalar : TracePolynomialOrder → U64
  | .cycleMajor => 0
  | .addressMajor => 1

/-- `u64::from` of a byte. -/
def u64FromU8 (x : UInt8) : U64 := x.toBitVec.setWidth 64

def absorbPreamble (checked : CheckedInputs) (config : ProofTranscriptConfig) (t : SpongeTranscript) :
    SpongeTranscript :=
  t.absorbLabeledBytes "preprocessing_digest" checked.preprocessingDigest.bytes
    |>.absorbLabeledU64 "entry_pc" checked.entryPc
    |>.absorbLabeledWords "inputs" checked.inputs
    |>.absorbLabeledWords "outputs" checked.outputs
    |>.absorbLabeledU64 "ram_K" checked.ramK
    |>.absorbLabeledU64 "trace_length" checked.traceLength
    |>.absorbLabeledU64 "ram_rw_phase1_num_rounds" (u64FromU8 config.rwConfig.ramRwPhase1NumRounds)
    |>.absorbLabeledU64 "ram_rw_phase2_num_rounds" (u64FromU8 config.rwConfig.ramRwPhase2NumRounds)
    |>.absorbLabeledU64 "registers_rw_phase1_num_rounds" (u64FromU8 config.rwConfig.registersRwPhase1NumRounds)
    |>.absorbLabeledU64 "registers_rw_phase2_num_rounds" (u64FromU8 config.rwConfig.registersRwPhase2NumRounds)
    |>.absorbLabeledU64 "log_k_chunk" (u64FromU8 config.oneHotConfig.logKChunk)
    |>.absorbLabeledU64 "lookups_ra_virtual_log_k_chunk" (u64FromU8 config.oneHotConfig.lookupsRaVirtualLogKChunk)
    |>.absorbLabeledU64 "dory_layout" (transcriptScalar config.tracePolynomialOrder)

/-- The commitments that the proof carries. -/
@[ext] structure JoltCommitments (C : Type) where
  rdInc : C
  ramInc : C
  instructionRa : List C
  ramRa : List C
  bytecodeRa : List C

/-- The commitments that the preprocessing of a committed program holds. -/
@[ext] structure CommittedProgram (C : Type) where
  bytecodeChunkCommitments : List C
  programImageCommitment : C

section

variable {C : Type} [AppendToTranscript C]

def absorbCommitment (t : SpongeTranscript) (commitment : C) : SpongeTranscript :=
  (t.appendPayloadLabel "commitment" commitment).append commitment

def absorbTranscriptCommitments (commitments : JoltCommitments C) (t : SpongeTranscript) : SpongeTranscript :=
  let t := absorbCommitment t commitments.rdInc
  let t := absorbCommitment t commitments.ramInc
  let t := commitments.instructionRa.foldl absorbCommitment t
  let t := commitments.ramRa.foldl absorbCommitment t
  commitments.bytecodeRa.foldl absorbCommitment t

def absorbCommittedProgramCommitments (committed : CommittedProgram C) (t : SpongeTranscript) : SpongeTranscript :=
  let t := committed.bytecodeChunkCommitments.foldl
    (fun t commitment => (t.appendPayloadLabel "bytecode_chunk_commit" commitment).append commitment) t
  (t.appendPayloadLabel "program_image_commitment" committed.programImageCommitment).append
    committed.programImageCommitment

def absorbCommitments (program : Option (CommittedProgram C)) (commitments : JoltCommitments C)
    (t : SpongeTranscript) : SpongeTranscript :=
  let t := absorbTranscriptCommitments commitments t
  match program with
  | some committed => absorbCommittedProgramCommitments committed t
  | none => t

end

/-! ## The bytes of the whole statement -/

def labeledBytesCode (label : String) (short : (ascii label).length ≤ 24) (bytes : Slice UInt8) : List UInt8 :=
  frame (transcriptBytes (LabelWithCount.mk label (u64FromUsize bytes.toList.length) short)) ++ frame bytes

def wordCode (word : U64) : List UInt8 := frame (transcriptBytes (U64Word.mk word))

def labeledWordsCode (label : String) (short : (ascii label).length ≤ 24) (words : Slice U64) : List UInt8 :=
  frame (transcriptBytes (LabelWithCount.mk label (u64FromUsize words.toList.length) short)) ++
    words.toList.flatMap wordCode

def labeledU64Code (label : String) (short : (ascii label).length ≤ 32) (value : U64) : List UInt8 :=
  frame (transcriptBytes (Label.mk label short)) ++ wordCode value

def preambleCode (checked : CheckedInputs) (config : ProofTranscriptConfig) : List UInt8 :=
  labeledBytesCode "preprocessing_digest" (by decide) checked.preprocessingDigest.bytes ++
  (labeledU64Code "entry_pc" (by decide) checked.entryPc ++
  (labeledWordsCode "inputs" (by decide) checked.inputs ++
  (labeledWordsCode "outputs" (by decide) checked.outputs ++
  (labeledU64Code "ram_K" (by decide) checked.ramK ++
  (labeledU64Code "trace_length" (by decide) checked.traceLength ++
  (labeledU64Code "ram_rw_phase1_num_rounds" (by decide) (u64FromU8 config.rwConfig.ramRwPhase1NumRounds) ++
  (labeledU64Code "ram_rw_phase2_num_rounds" (by decide) (u64FromU8 config.rwConfig.ramRwPhase2NumRounds) ++
  (labeledU64Code "registers_rw_phase1_num_rounds" (by decide)
    (u64FromU8 config.rwConfig.registersRwPhase1NumRounds) ++
  (labeledU64Code "registers_rw_phase2_num_rounds" (by decide)
    (u64FromU8 config.rwConfig.registersRwPhase2NumRounds) ++
  (labeledU64Code "log_k_chunk" (by decide) (u64FromU8 config.oneHotConfig.logKChunk) ++
  (labeledU64Code "lookups_ra_virtual_log_k_chunk" (by decide)
    (u64FromU8 config.oneHotConfig.lookupsRaVirtualLogKChunk) ++
  labeledU64Code "dory_layout" (by decide) (transcriptScalar config.tracePolynomialOrder))))))))))))

section

variable {C : Type} [AppendToTranscript C]

def payloadLabel (label : String) (short : (ascii label).length ≤ 24) (payload : C) : Slice UInt8 :=
  match transcriptPayloadLen payload with
  | some len => transcriptBytes (LabelWithCount.mk label len short)
  | none => transcriptBytes (Label.mk label (short.trans (by decide)))

def payloadCode (label : String) (short : (ascii label).length ≤ 24) (payload : C) : List UInt8 :=
  frame (payloadLabel label short payload) ++ frame (transcriptBytes payload)

def commitmentsCode (commitments : JoltCommitments C) : List UInt8 :=
  payloadCode "commitment" (by decide) commitments.rdInc ++
  (payloadCode "commitment" (by decide) commitments.ramInc ++
  (commitments.instructionRa.flatMap (payloadCode "commitment" (by decide)) ++
  (commitments.ramRa.flatMap (payloadCode "commitment" (by decide)) ++
  commitments.bytecodeRa.flatMap (payloadCode "commitment" (by decide)))))

def programCode (committed : CommittedProgram C) : List UInt8 :=
  committed.bytecodeChunkCommitments.flatMap (payloadCode "bytecode_chunk_commit" (by decide)) ++
  payloadCode "program_image_commitment" (by decide) committed.programImageCommitment

end

/-! ## The counts that the configuration fixes -/

inductive JoltFormulaDimensionsError where
  | zero (name : String)
  | overflow (name : String)
  | invalidChunkOrder (committedChunkBits lookupVirtualChunkBits : ℕ)
  | notDivisible (valueName : String) (value : ℕ) (divisorName : String) (divisor : ℕ)
  deriving DecidableEq

def requireNonzero (value : ℕ) (name : String) : Except JoltFormulaDimensionsError Unit :=
  if value = 0 then .error (.zero name) else .ok ()

def requireDivisible (valueName : String) (value : ℕ) (divisorName : String) (divisor : ℕ) :
    Except JoltFormulaDimensionsError Unit :=
  if value % divisor = 0 then .ok () else .error (.notDivisible valueName value divisorName divisor)

def ceilLog2 (value : ℕ) : ℕ := if value ≤ 1 then 0 else Nat.log2 (value - 1) + 1

/-- `JoltRaPolynomialLayout::new`. -/
def raPolynomialLayout (instruction bytecode ram : ℕ) : Except JoltFormulaDimensionsError JoltRaPolynomialLayout :=
  if 2 ^ 64 ≤ instruction + bytecode + ram then .error (.overflow "Jolt RA polynomial count")
  else if instruction + bytecode + ram = 0 then .error (.zero "Jolt RA polynomial count")
  else .ok ⟨instruction, bytecode, ram⟩

def divCeil (a b : ℕ) : ℕ := (a + b - 1) / b

/-- The layout among the formula dimensions of a configuration. -/
def JoltOneHotConfig.raLayout (config : JoltOneHotConfig) (instructionAddressBits bytecodeK ramK : ℕ) :
    Except JoltFormulaDimensionsError JoltRaPolynomialLayout := do
  let committedChunkBits := config.logKChunk.toNat
  let lookupVirtualChunkBits := config.lookupsRaVirtualLogKChunk.toNat
  requireNonzero instructionAddressBits "instruction_address_bits"
  requireNonzero bytecodeK "bytecode_k"
  requireNonzero ramK "ram_k"
  requireNonzero committedChunkBits "committed_chunk_bits"
  requireNonzero lookupVirtualChunkBits "lookup_virtual_chunk_bits"
  if lookupVirtualChunkBits < committedChunkBits then
    .error (.invalidChunkOrder committedChunkBits lookupVirtualChunkBits)
  requireDivisible "lookup_virtual_chunk_bits" lookupVirtualChunkBits "committed_chunk_bits" committedChunkBits
  requireDivisible "instruction_address_bits" instructionAddressBits "lookup_virtual_chunk_bits"
    lookupVirtualChunkBits
  raPolynomialLayout (divCeil instructionAddressBits committedChunkBits)
    (divCeil (ceilLog2 bytecodeK) committedChunkBits) (divCeil (ceilLog2 ramK) committedChunkBits)

inductive CommitmentLayoutError where
  | invalidCommitmentCount (expected got : ℕ)
  | finalOpeningBatchFailed (reason : String)
  deriving DecidableEq

def requireCommitmentLayout {C : Type} (commitments : JoltCommitments C) (layout : JoltRaPolynomialLayout) :
    Except CommitmentLayoutError Unit :=
  let instruction := commitments.instructionRa.length
  let bytecode := commitments.bytecodeRa.length
  let ram := commitments.ramRa.length
  let expected := 2 + (layout.instruction + layout.bytecode + layout.ram)
  let got := 2 + instruction + bytecode + ram
  if got ≠ expected then .error (.invalidCommitmentCount expected got)
  else if instruction ≠ layout.instruction ∨ bytecode ≠ layout.bytecode ∨ ram ≠ layout.ram then
    let (i, b, r) := (layout.instruction, layout.bytecode, layout.ram)
    .error (.finalOpeningBatchFailed (s!"commitment layout mismatch: expected instruction={i}, bytecode={b}, ram={r}; "
      ++ s!"got instruction={instruction}, bytecode={bytecode}, ram={ram}"))
  else .ok ()

/-- What the preprocessing of a program tells about its commitments: the length of the bytecode, and for a
committed program the number of chunks. -/
structure ProgramShape where
  bytecodeLen : ℕ
  bytecodeChunkCount : Option ℕ

/-- The bits of an instruction's lookup address. -/
def instructionAddressBits : ℕ := 2 * 64

/-- All that is absorbed for one proof: the preamble and the commitments, in the counts of the configuration.
The preprocessing is the one that the digest stands for. -/
structure Statement (preprocessing : Digest → ProgramShape) (C : Type) where
  checked : CheckedInputs
  config : ProofTranscriptConfig
  commitments : JoltCommitments C
  program : Option (CommittedProgram C)
  layout : JoltRaPolynomialLayout
  configured : config.oneHotConfig.raLayout instructionAddressBits (preprocessing checked.preprocessingDigest).bytecodeLen
    checked.ramK.toNat = .ok layout
  laid : requireCommitmentLayout commitments layout = .ok ()
  chunks : program.map (fun committed => committed.bytecodeChunkCommitments.length) =
    (preprocessing checked.preprocessingDigest).bytecodeChunkCount

/-- The bytes that a statement feeds to the sponge. -/
def Statement.stream {preprocessing : Digest → ProgramShape} {C : Type} [AppendToTranscript C]
    (s : Statement preprocessing C) : List UInt8 :=
  (absorbCommitments s.program s.commitments (absorbPreamble s.checked.normalized s.config ⟨[]⟩)).absorbed

end JoltWasm.FiatShamir
