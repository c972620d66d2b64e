import Mathlib.Data.List.DropRight
import Mathlib.Data.Nat.Log
import JoltWasm.Poly.Mle
import JoltWasm.Program.Image

/-!
# The public memory a proof binds

The initial words that are public, the public I/O window of the final memory, and the verifier's
evaluations of both at an address point.
-/

namespace JoltWasm

open Layout

/-- The public input and output of one execution. -/
structure PublicIo where
  entry : String
  inputs : List U64
  outputs : List U64
  deriving DecidableEq

/-- `next_power_of_two`. -/
def nextPowerOfTwo (n : ℕ) : ℕ := 2 ^ Nat.clog 2 n

/-- The RAM word index of a layout constant. -/
def wordIndex (address : ℕ) : ℕ := (address - ramBase) / wordBytes

/-- The RAM word index the program image starts at. -/
def programImageStartIndex : ℕ := wordIndex globalsBase

/-- One past the last public I/O word's index. -/
def ioEndIndex : ℕ := wordIndex (outputsBase + outputsSize)

/-- A run of consecutive public words starting at a RAM word index. -/
structure PublicMemorySegment where
  startIndex : ℕ
  words : List U64
  deriving DecidableEq

/-- The dense program image: `words[i]` is the initial value of RAM word `startIndex + i`. -/
structure ProgramImage where
  startIndex : ℕ
  words : List U64
  deriving DecidableEq

namespace ProgramImage

/-- Write the words into the image, each at its index. -/
def setWords (startIndex : ℕ) (image : List U64) : List MemoryWord → List U64
  | [] => image
  | word :: words =>
      setWords startIndex (image.set (wordIndex word.address - startIndex) word.value) words

def ofWords (programMemory : List MemoryWord) : ProgramImage :=
  let startIndex := programImageStartIndex
  let dense := programMemory.filter fun word => decide (globalsBase ≤ word.address)
  let end_ := (dense.map fun word => wordIndex word.address + 1).max?.getD startIndex
  ⟨startIndex, setWords startIndex (List.replicate (end_ - startIndex) 0) dense⟩

end ProgramImage

def WasmProgramPreprocessing.programImage (preprocessing : WasmProgramPreprocessing) : ProgramImage :=
  .ofWords preprocessing.programMemory

/-- The public words the final memory must hold, and the window inside which every word not listed must
be zero. -/
structure PublicIoMemory where
  segments : List PublicMemorySegment
  ioMaskStart : ℕ
  ioMaskEnd : ℕ
  ioNumVars : ℕ
  deriving DecidableEq

def PublicIoMemory.new (io : PublicIo) : PublicIoMemory :=
  let ioMaskStart := wordIndex terminationAddr
  let ioMaskEnd := ioEndIndex
  let inputs := if io.inputs = [] then [] else [⟨wordIndex inputsBase, io.inputs⟩]
  let outputs := if io.outputs = [] then [] else [⟨wordIndex outputsBase, io.outputs⟩]
  { segments := ⟨ioMaskStart, [1]⟩ :: (inputs ++ outputs)
    ioMaskStart := ioMaskStart
    ioMaskEnd := ioMaskEnd
    ioNumVars := (max (nextPowerOfTwo ioMaskEnd) 1).log2 }

/-- The public initial memory. -/
structure PublicInitialRam where
  segments : List PublicMemorySegment
  deriving DecidableEq

namespace PublicInitialRam

/-- The words that are public even when the program image is committed: the memory-size word and the
inputs. -/
def inputsOnly (memory : MemoryLimits) (io : PublicIo) : PublicInitialRam :=
  let inputs := if io.inputs = [] then [] else [⟨wordIndex inputsBase, io.inputs⟩]
  ⟨⟨wordIndex memorySizeAddr, [BitVec.ofNat 64 (memory.initialPages * pageSize)]⟩ :: inputs⟩

def new (preprocessing : WasmProgramPreprocessing) (io : PublicIo) : PublicInitialRam :=
  let this := inputsOnly preprocessing.memory io
  let image := preprocessing.programImage
  if image.words = [] then this else ⟨this.segments ++ [⟨image.startIndex, image.words⟩]⟩

end PublicInitialRam

/-! ## The checks of the verifier -/

/-- The program facts a committed-program verifier binds. -/
structure ProgramMetadata where
  bytecodeLen : ℕ
  entries : List (String × Pc)
  programImageLenWords : ℕ
  memory : MemoryLimits

def ProgramMetadata.of (preprocessing : WasmProgramPreprocessing) : ProgramMetadata where
  bytecodeLen := preprocessing.bytecode.rows.length
  entries := preprocessing.bytecode.entries
  programImageLenWords := preprocessing.programImage.words.length
  memory := preprocessing.memory

/-- Program preprocessing in one of two modes. -/
inductive ProgramPreprocessing where
  | full (program : WasmProgramPreprocessing)
  | committed (meta_ : ProgramMetadata) (maxTraceLength : ℕ)

namespace ProgramPreprocessing

def memory : ProgramPreprocessing → MemoryLimits
  | full program => program.memory
  | committed meta_ _ => meta_.memory

def maxTraceLength : ProgramPreprocessing → ℕ
  | full program => program.maxTraceLength
  | committed _ maxTraceLength => maxTraceLength

def entryPc (export_ : String) : ProgramPreprocessing → Option Pc
  | full program => program.bytecode.entry export_
  | committed meta_ _ => meta_.entries.lookup export_

def programImageLenWords : ProgramPreprocessing → ℕ
  | full program => program.programImage.words.length
  | committed meta_ _ => meta_.programImageLenWords

/-- One past the last program-image word's RAM index; zero for an empty image. -/
def programImageEndIndex (program : ProgramPreprocessing) : ℕ :=
  match program.programImageLenWords with
  | 0 => 0
  | len + 1 => programImageStartIndex + (len + 1)

end ProgramPreprocessing

inductive RelationId where
  | ramValCheck
  | ramReadWriteChecking
  | ramRafEvaluation
  | ramOutputCheck
  | registersReadWriteChecking
  deriving DecidableEq

inductive VerifierError where
  | unknownEntry (name : String)
  | inputTooLarge (got max : ℕ)
  | outputTooLarge (got max : ℕ)
  | invalidTraceLength (got max : ℕ)
  | invalidRamDomain (reason : String)
  | invalidRamK (got min max : ℕ)
  | invalidCommittedProgram (reason : String)
  | stageClaimPublicInputFailed (stage : RelationId) (reason : String)
  | stageClaimSumcheckFailed (stage : String) (reason : String)
  deriving DecidableEq

/-- The inputs after the checks, as far as the memory argument reads them. -/
structure CheckedInputs where
  publicIo : PublicIo
  traceLength : ℕ
  ramK : ℕ
  entryPc : Pc
  deriving DecidableEq

def isPowerOfTwo (n : ℕ) : Bool := 2 ^ n.log2 == n

/-- `usize::checked_next_power_of_two` as a RAM domain. -/
def ramDomain (words : ℕ) : Except VerifierError ℕ :=
  if nextPowerOfTwo words < 2 ^ 64 then .ok (nextPowerOfTwo words)
  else .error (.invalidRamDomain "RAM domain does not fit a power-of-two usize")

/-- Smallest power-of-two RAM domain holding the public I/O window and the program image. -/
def minRamK (programImageEndIndex : ℕ) : Except VerifierError ℕ :=
  ramDomain (max programImageEndIndex ioEndIndex)

/-- Smallest power-of-two RAM domain holding every address a program with these limits can touch. -/
def maxRamK (memory : MemoryLimits) : Except VerifierError ℕ :=
  ramDomain (wordIndex (ramEnd memory.maxPages) + 1)

/-- The checks before the schedule of the committed polynomials. -/
def validateInputsFromParts (program : ProgramPreprocessing) (publicIo : PublicIo)
    (traceLength ramK : ℕ) : Except VerifierError CheckedInputs := do
  let some entryPc := program.entryPc publicIo.entry | .error (.unknownEntry publicIo.entry)
  if maxInputWords < publicIo.inputs.length then
    .error (.inputTooLarge publicIo.inputs.length maxInputWords)
  if maxOutputWords < publicIo.outputs.length then
    .error (.outputTooLarge publicIo.outputs.length maxOutputWords)
  if !isPowerOfTwo traceLength || program.maxTraceLength < traceLength then
    .error (.invalidTraceLength traceLength program.maxTraceLength)
  let min ← minRamK program.programImageEndIndex
  let max ← maxRamK program.memory
  if !isPowerOfTwo ramK || ramK < min || max < ramK then .error (.invalidRamK ramK min max)
  let normalized := { publicIo with outputs := publicIo.outputs.rdropWhile (· == 0) }
  match program with
  | .full _ => return ⟨normalized, traceLength, ramK, entryPc⟩
  | .committed meta_ _ =>
      if meta_.entries.any fun entry => meta_.bytecodeLen ≤ entry.2.toNat then
        let len := meta_.bytecodeLen
        .error (.invalidCommittedProgram s!"an entry pc is out of range for bytecode length {len}")
      else return ⟨normalized, traceLength, ramK, entryPc⟩

/-- Reject a public segment whose words leave the RAM domain. -/
def validateSegmentsInDomain (ramK : ℕ) : List PublicMemorySegment → Except VerifierError Unit
  | [] => .ok ()
  | segment :: segments =>
      let start := segment.startIndex
      let len := segment.words.length
      if start + len < 2 ^ 128 ∧ start + len ≤ ramK then validateSegmentsInDomain ramK segments
      else .error (.stageClaimPublicInputFailed .ramValCheck
        s!"public initial RAM segment [{start}, ..+{len}) exceeds RAM domain {ramK}")

/-! ## The evaluations -/

def MleError.message : MleError → String
  | equalityArityMismatch left right =>
      s!"equality polynomial arity mismatch: left {left}, right {right}"
  | invalidRange start end_ => s!"invalid MLE range [{start}, {end_})"
  | domainTooLarge arity => s!"MLE arity {arity} exceeds u128 capacity"
  | rangeEndOutOfDomain end_ domainSize =>
      s!"MLE range end {end_} exceeds domain size {domainSize}"
  | blockVariablesExceedArity blockVars arity =>
      s!"MLE block has {blockVars} variables but point has arity {arity}"
  | blockStartUnaligned startIndex blockSize =>
      s!"MLE block start {startIndex} is not aligned to block size {blockSize}"
  | blockEndOutOfDomain end_ domainSize =>
      s!"MLE block end {end_} exceeds domain size {domainSize}"

section

variable {F : Type} [Field F]

def segmentsMleMsb (segments : List PublicMemorySegment) (point : List F) : F :=
  sparseSegmentsMleMsb (segments.map fun segment => (segment.startIndex, segment.words)) point

def publicInitialRamEvaluation (checked : CheckedInputs) (program : ProgramPreprocessing)
    (rAddress : List F) : Except VerifierError F := do
  let publicInitialRam :=
    match program with
    | .full full => PublicInitialRam.new full checked.publicIo
    | .committed meta_ _ => PublicInitialRam.inputsOnly meta_.memory checked.publicIo
  validateSegmentsInDomain checked.ramK publicInitialRam.segments
  return segmentsMleMsb publicInitialRam.segments rAddress

def publicInputFailed {α : Type} : Except MleError α → Except VerifierError α
  | .ok value => .ok value
  | .error error => .error (.stageClaimPublicInputFailed .ramOutputCheck error.message)

/-- The equality, the mask and the public words of the output check at an address. -/
def ramOutputCheckPublics (publicMemory : PublicIoMemory)
    (outputAddressChallenges ramOutputAddress : List F) : Except VerifierError (F × F × F) := do
  let outputEq ← publicInputFailed (tryEqMle outputAddressChallenges ramOutputAddress)
  let outputMask ← publicInputFailed
    (rangeMaskMleMsb publicMemory.ioMaskStart publicMemory.ioMaskEnd ramOutputAddress)
  let len := ramOutputAddress.length
  let ioNumVars := publicMemory.ioNumVars
  if len < ioNumVars then
    .error (.stageClaimPublicInputFailed .ramOutputCheck
      s!"RAM output address has {len} variables but public IO needs {ioNumVars}")
  let rHi := ramOutputAddress.take (len - ioNumVars)
  let rLo := ramOutputAddress.drop (len - ioNumVars)
  let hiScale := rHi.foldl (fun acc challenge => acc * (1 - challenge)) 1
  let valIo := hiScale * segmentsMleMsb publicMemory.segments rLo
  return (outputEq, outputMask, valIo)

/-- The output expression of the output check. -/
def outputCheckExpression (publics : F × F × F) (valFinal : F) : F :=
  let (eqAddress, ioMask, valIo) := publics
  eqAddress * ioMask * valFinal - eqAddress * ioMask * valIo

end

end JoltWasm
