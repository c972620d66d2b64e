import Mathlib.Data.List.Nodup
import JoltWasm.Program.Public
import JoltWasm.Program.ImageAgreement
import JoltWasm.R1cs.Field

/-!
# The public memory is the program's memory

The verifier's evaluations of the public initial memory, in both program modes, and of the output check
are the multilinear extensions of the words they stand for; the output check vanishes exactly when the
final memory holds the claimed words.
-/

namespace JoltWasm

open Layout Lib

/-! ## Word indices -/

theorem programImageStartIndex_eq : programImageStartIndex = 133120 := rfl

theorem ioEndIndex_eq : ioEndIndex = 1536 := rfl

theorem unmapWordAddress_eq (k : ℕ) : unmapWordAddress k = 0x90000000 + 8 * k := by
  unfold unmapWordAddress wordBytes ramBase
  omega

theorem wordIndex_eq (address : ℕ) : wordIndex address = (address - 0x90000000) / 8 := rfl

/-! ## The program image -/

namespace ProgramImage

variable {startIndex : ℕ} {image : List U64} {words : List MemoryWord}

theorem length_setWords : (setWords startIndex image words).length = image.length := by
  induction words generalizing image with
  | nil => rfl
  | cons word words ih => rw [setWords, ih, List.length_set]

/-- Other words stay. -/
theorem getD_setWords_of_ne {j : ℕ}
    (other : ∀ word ∈ words, wordIndex word.address - startIndex ≠ j) :
    (setWords startIndex image words).getD j 0 = image.getD j 0 := by
  induction words generalizing image with
  | nil => rfl
  | cons word words ih =>
      rw [setWords, ih fun later member => other later (List.mem_cons_of_mem _ member)]
      rw [List.getD_eq_getElem?_getD, List.getElem?_set_ne (other word List.mem_cons_self),
        ← List.getD_eq_getElem?_getD]

/-- Each word stands at its index, when no two share one. -/
theorem getD_setWords_mem
    (different : (words.map fun word => wordIndex word.address - startIndex).Nodup)
    {word : MemoryWord} (member : word ∈ words)
    (inside : wordIndex word.address - startIndex < image.length) :
    (setWords startIndex image words).getD (wordIndex word.address - startIndex) 0 = word.value := by
  induction words generalizing image with
  | nil => cases member
  | cons first words ih =>
      rw [List.map_cons, List.nodup_cons] at different
      rw [setWords]
      rcases List.mem_cons.mp member with rfl | member
      · rw [getD_setWords_of_ne fun later member same =>
          different.1 (List.mem_map.mpr ⟨later, member, same⟩)]
        rw [List.getD_eq_getElem?_getD, List.getElem?_set_self inside]
        rfl
      · exact ih different.2 member (by rwa [List.length_set])

end ProgramImage

/-- The words of a program memory are aligned and have different addresses. -/
structure AlignedWords (words : List MemoryWord) : Prop where
  aligned : ∀ word ∈ words, word.address % 8 = 0
  nodup : (words.map MemoryWord.address).Nodup

/-- The dense image holds the program's words from its start on. -/
theorem ProgramImage.getD_ofWords {programMemory : List MemoryWord}
    (aligned : AlignedWords programMemory) {k : ℕ} (above : programImageStartIndex ≤ k) :
    (ProgramImage.ofWords programMemory).words.getD (k - programImageStartIndex) 0 =
      wordOf programMemory (unmapWordAddress k) := by
  have base : globalsBase = 0x90104000 := rfl
  have start := programImageStartIndex_eq
  let dense := programMemory.filter fun word => decide (globalsBase ≤ word.address)
  have inDense {word : MemoryWord} (member : word ∈ dense) :
      word ∈ programMemory ∧ 0x90104000 ≤ word.address ∧ word.address % 8 = 0 := by
    rw [List.mem_filter, decide_eq_true_iff] at member
    exact ⟨member.1, member.2, aligned.aligned word member.1⟩
  have different : (dense.map fun word => wordIndex word.address - programImageStartIndex).Nodup := by
    have nodup : (dense.map MemoryWord.address).Nodup :=
      ((List.filter_sublist).map _).nodup aligned.nodup
    refine (List.nodup_map_iff_inj_on (nodup.of_map _)).mpr fun a inA b inB same => ?_
    obtain ⟨-, lowA, alignedA⟩ := inDense inA
    obtain ⟨-, lowB, alignedB⟩ := inDense inB
    rw [wordIndex_eq, wordIndex_eq] at same
    exact List.inj_on_of_nodup_map nodup inA inB (by omega)
  by_cases present : ∃ word ∈ programMemory, word.address = unmapWordAddress k
  · obtain ⟨word, member, at_⟩ := present
    have denseMember : word ∈ dense := by
      refine List.mem_filter.mpr ⟨member, decide_eq_true ?_⟩
      rw [at_, unmapWordAddress_eq]
      omega
    have index : wordIndex word.address = k := by
      rw [at_, unmapWordAddress_eq, wordIndex_eq]
      omega
    have value : wordOf programMemory (unmapWordAddress k) = word.value :=
      wordOf_mem aligned.nodup (by rw [← at_]; exact member)
    rw [value, ← index]
    refine getD_setWords_mem different denseMember ?_
    rw [List.length_replicate, index]
    have inMap : k + 1 ∈ dense.map fun word => wordIndex word.address + 1 :=
      List.mem_map.mpr ⟨word, denseMember, by rw [index]⟩
    cases largest : (dense.map fun word => wordIndex word.address + 1).max? with
    | none =>
        rw [List.max?_eq_none_iff] at largest
        rw [largest] at inMap
        cases inMap
    | some end_ =>
        have upper := (List.max?_eq_some_iff.mp largest).2 _ inMap
        rw [Option.getD_some]
        omega
  · have absent : ∀ word ∈ programMemory, word.address ≠ unmapWordAddress k :=
      fun word member at_ => present ⟨word, member, at_⟩
    rw [wordOf_absent absent]
    refine (getD_setWords_of_ne fun word member same => ?_).trans ?_
    · obtain ⟨inMemory, low, aligned⟩ := inDense member
      refine absent word inMemory ?_
      rw [wordIndex_eq] at same
      rw [unmapWordAddress_eq]
      omega
    · simp [List.getD_eq_getElem?_getD, List.getElem?_replicate]
      split <;> rfl

/-! ## The words of the program -/

/-- Words at addresses that are no multiple of eight are absent or zero. -/
def WordMap.Aligned (words : WordMap) : Prop := ∀ x, x % 8 ≠ 0 → words.getD x 0 = 0

namespace WordMap.Aligned

variable {words : WordMap}

theorem setByte (aligned : words.Aligned) (address : ℕ) (byte : BitVec 8) :
    (words.setByte address byte).Aligned := by
  intro x off
  rw [getD_setByte, if_neg (by omega)]
  exact aligned x off

theorem setBytes (aligned : words.Aligned) (address : ℕ) (bytes : List (BitVec 8)) :
    (words.setBytes address bytes).Aligned := by
  induction bytes generalizing words address with
  | nil => exact aligned
  | cons byte bytes ih => exact ih (aligned.setByte address byte) (address + 1)

theorem setSegment (aligned : words.Aligned) (a : ℕ) (bytes : List (BitVec 8)) :
    (words.setSegment a bytes).Aligned := by
  induction bytes generalizing words a with
  | nil => exact aligned
  | cons byte bytes ih => exact ih (aligned.setByte _ byte) (a + 1)

theorem setEach (aligned : words.Aligned) (address : ℕ → ℕ) (i : ℕ) (values : List U64) :
    (words.setEach address i values).Aligned := by
  induction values generalizing words i with
  | nil => exact aligned
  | cons value values ih => exact ih (aligned.setBytes _ _) (i + 1)

theorem setTable (aligned : words.Aligned) (i : ℕ) (slots : List (Option TableSlot)) :
    (words.setTable i slots).Aligned := by
  induction slots generalizing words i with
  | nil => exact aligned
  | cons slot slots ih => exact ih (aligned.setEach _ _ _) (i + 1)

end WordMap.Aligned

theorem initialWordMap_aligned (program : IrProgram) (inputs : List U64) :
    (initialWordMap program inputs).Aligned := by
  have data (segments : List DataSegment) {words : WordMap} (aligned : words.Aligned) :
      (segments.foldl (fun words segment => words.setSegment segment.offset segment.bytes)
        words).Aligned := by
    induction segments generalizing words with
    | nil => exact aligned
    | cons segment segments ih => exact ih (aligned.setSegment _ _)
  have empty : (∅ : WordMap).Aligned := fun x _ => by simp
  exact ((((data program.data empty).setEach _ _ _).setTable _ _).setBytes _ _).setEach _ _ _

theorem initialMemoryWords_aligned (program : IrProgram) (inputs : List U64) :
    AlignedWords (initialMemoryWords program inputs) := by
  refine ⟨?_, nodup_initialMemoryWords program inputs⟩
  rintro ⟨x, value⟩ member
  obtain ⟨nonzero, found⟩ := (mem_initialMemoryWords program inputs).mp member
  by_contra off
  have zero := initialWordMap_aligned program inputs x off
  rw [Std.TreeMap.getD_eq_getD_getElem?, found] at zero
  exact nonzero zero

/-- The data segments of any program write cells of linear memory only. -/
theorem exists_holdsCells (data : List DataSegment) : ∃ linear, HoldsCells (data.foldl
    (fun words segment => words.setSegment segment.offset segment.bytes) ∅) linear := by
  have all (words : WordMap) (linear : ℕ → BitVec 8) (holds : HoldsCells words linear) :
      ∃ linear, HoldsCells (data.foldl
        (fun words segment => words.setSegment segment.offset segment.bytes) words) linear := by
    induction data generalizing words linear with
    | nil => exact ⟨linear, holds⟩
    | cons segment data ih => exact ih _ _ (holds.setSegment segment.offset segment.bytes)
  exact all ∅ (fun _ => 0) ⟨fun j => by simp [cellAt], fun x _ => by simp⟩

section

variable {program : IrProgram} {inputs : List U64} {preprocessing : WasmProgramPreprocessing}
  {maxTraceLength : ℕ}

/-- The initial word of an index is the public one, an input or a word of the program image. -/
theorem wordOf_initialMemory
    (preprocessed : WasmProgramPreprocessing.new program maxTraceLength = .ok preprocessing)
    (fits : inputs.length ≤ maxInputWords) (k : ℕ) :
    (wordOf (preprocessing.initialMemory inputs) (unmapWordAddress k)).toNat =
      (segmentWord (wordIndex memorySizeAddr)
          [BitVec.ofNat 64 (preprocessing.memory.initialPages * pageSize)] k).toNat +
        (segmentWord (wordIndex inputsBase) inputs k).toNat +
        (segmentWord preprocessing.programImage.startIndex preprocessing.programImage.words k).toNat := by
  have shape := preprocessed_memory preprocessed
  obtain ⟨linear, holds⟩ := exists_holdsCells program.data
  have address := unmapWordAddress_eq k
  have start := programImageStartIndex_eq
  have fits' : inputs.length ≤ 512 := fits
  have sizeAddr : memorySizeAddr = 0x90000000 := rfl
  have inputsBase_ : inputsBase = 0x90001000 := rfl
  have globalsBase_ : globalsBase = 0x90104000 := rfl
  have tableBase_ : tableBase = 0x90114000 := rfl
  have linearBase := linearMemoryBase_eq
  have zero : (0 : U64).toNat = 0 := rfl
  have sizeIndex : wordIndex memorySizeAddr = 0 := rfl
  have inputsIndex : wordIndex inputsBase = 512 := rfl
  have aligned : unmapWordAddress k % 8 = 0 := by omega
  rw [(initialMemory_words holds fits preprocessed).2, getD_initialWordMap program inputs aligned,
    shape.2, sizeIndex, inputsIndex, sizeAddr, inputsBase_]
  have single (v : U64) : segmentWord 0 [v] k = if k = 0 then v else 0 := by
    cases k <;> rfl
  have image : segmentWord preprocessing.programImage.startIndex preprocessing.programImage.words k =
      if 133120 ≤ k then (initialWordMap program []).getD (unmapWordAddress k) 0 else 0 := by
    unfold WasmProgramPreprocessing.programImage
    rw [shape.1]
    unfold segmentWord
    change (if 133120 ≤ k then _ else _) = _
    by_cases above : 133120 ≤ k
    · rw [if_pos above, if_pos above, ← wordOf_initialMemoryWords]
      exact ProgramImage.getD_ofWords (initialMemoryWords_aligned program []) above
    · rw [if_neg above, if_neg above]
  rw [single, image]
  rcases Nat.lt_or_ge k 133120 with low | high
  · rw [if_neg (by omega : ¬ 133120 ≤ k), zero, Nat.add_zero]
    have empty : (program.data.foldl (fun words segment => words.setSegment segment.offset
        segment.bytes) ∅ : WordMap).getD (unmapWordAddress k) 0 = 0 :=
      holds.below _ (by omega)
    rw [tableBase_, globalsBase_, empty]
    unfold segmentWord
    by_cases input : 512 ≤ k ∧ k - 512 < inputs.length
    · have index : (unmapWordAddress k - 0x90001000) / 8 = k - 512 := by omega
      rw [index, if_pos ⟨by omega, input.2⟩, if_neg (by omega : ¬ k = 0), if_pos input.1,
        zero, Nat.zero_add]
    · have none_ : (if 512 ≤ k then inputs.getD (k - 512) 0 else 0) = 0 := by
        split_ifs with above
        · exact List.getD_eq_default _ _ (by omega)
        · rfl
      rw [none_, if_neg (by omega)]
      by_cases size : k = 0
      · rw [if_pos (by omega), if_pos size, zero, Nat.add_zero]
        rfl
      · rw [if_neg (by omega), if_neg (by omega), if_neg (by omega), if_neg size]
        rfl
  · have past : segmentWord 512 inputs k = 0 := by
      unfold segmentWord
      rw [if_pos (by omega)]
      exact List.getD_eq_default _ _ (by omega)
    have noInput (values : List U64) (small : values.length ≤ 512) : ¬ (0x90001000 ≤
        unmapWordAddress k ∧ (unmapWordAddress k - 0x90001000) / 8 < values.length) := by
      omega
    have noSize : ¬ unmapWordAddress k = 0x90000000 := by omega
    rw [past, if_neg (by omega : ¬ k = 0), if_pos high, getD_initialWordMap program [] aligned,
      inputsBase_, sizeAddr, if_neg (noInput inputs fits'), if_neg (noInput [] (Nat.zero_le _)),
      if_neg noSize, zero, Nat.zero_add]

end

/-! ## The checks -/

theorem isPowerOfTwo_iff {n : ℕ} : isPowerOfTwo n = true ↔ 2 ^ n.log2 = n := by
  simp [isPowerOfTwo]

theorem ramDomain_ok {words domain : ℕ} (fits : ramDomain words = .ok domain) :
    words ≤ domain ∧ domain < 2 ^ 64 := by
  unfold ramDomain at fits
  split at fits
  · next small =>
      cases fits
      exact ⟨Nat.le_pow_clog one_lt_two words, small⟩
  · cases fits

/-- What the verifier's checks promise. -/
structure Checked (program : ProgramPreprocessing) (io : PublicIo) (checked : CheckedInputs) : Prop where
  inputs : io.inputs.length ≤ 512
  outputs : io.outputs.length ≤ 512
  publicIo : checked.publicIo = { io with outputs := io.outputs.rdropWhile (· == 0) }
  power : 2 ^ checked.ramK.log2 = checked.ramK
  image : program.programImageEndIndex ≤ checked.ramK
  window : 1536 ≤ checked.ramK
  bounded : checked.ramK < 2 ^ 64

theorem validateInputsFromParts_checked {program : ProgramPreprocessing} {io : PublicIo}
    {traceLength ramK : ℕ} {checked : CheckedInputs}
    (valid : validateInputsFromParts program io traceLength ramK = .ok checked) :
    Checked program io checked ∧ checked.ramK = ramK := by
  unfold validateInputsFromParts at valid
  split at valid
  · next entryPc _ =>
      obtain ⟨inputs, valid⟩ := except_check_eq_ok.mp valid
      obtain ⟨outputs, valid⟩ := except_check_eq_ok.mp valid
      obtain ⟨-, valid⟩ := except_check_eq_ok.mp valid
      obtain ⟨min, isMin, valid⟩ := except_bind_eq_ok.mp valid
      obtain ⟨max, isMax, valid⟩ := except_bind_eq_ok.mp valid
      obtain ⟨domain, valid⟩ := except_check_eq_ok.mp valid
      obtain ⟨above, -⟩ := ramDomain_ok isMin
      obtain ⟨-, below⟩ := ramDomain_ok isMax
      have shape : checked = ⟨{ io with outputs := io.outputs.rdropWhile (· == 0) }, traceLength, ramK,
          entryPc⟩ := by
        split at valid
        · cases valid
          rfl
        · split at valid
          · cases valid
          · cases valid
            rfl
      simp only [Bool.or_eq_true, Bool.not_eq_true', decide_eq_true_eq, not_or, Bool.not_eq_false,
        isPowerOfTwo_iff] at domain
      subst shape
      obtain ⟨⟨power, lower⟩, upper⟩ := domain
      have io_ := ioEndIndex_eq
      exact ⟨⟨Nat.not_lt.mp inputs, Nat.not_lt.mp outputs, rfl, power, by simp only; omega,
        by simp only; omega, by simp only; omega⟩, rfl⟩
  · cases valid

/-- The points of an accepted RAM domain. -/
theorem Checked.point {program : ProgramPreprocessing} {io : PublicIo} {checked : CheckedInputs}
    (valid : Checked program io checked) {α : Type} {point : List α}
    (arity : point.length = checked.ramK.log2) :
    2 ^ point.length = checked.ramK ∧ point.length < 64 := by
  have power := valid.power
  have bounded := valid.bounded
  rw [arity]
  refine ⟨power, ?_⟩
  rw [← power] at bounded
  exact (Nat.pow_lt_pow_iff_right one_lt_two).mp bounded

/-! ## The evaluations -/

section

variable {F : Type} [Field F]

theorem segmentsMleMsb_cons (segment : PublicMemorySegment) (segments : List PublicMemorySegment)
    (point : List F) : segmentsMleMsb (segment :: segments) point =
      sparseMleMsb segment.startIndex segment.words point + segmentsMleMsb segments point := by
  simp [segmentsMleMsb, sparseSegmentsMleMsb]

theorem segmentsMleMsb_append (first second : List PublicMemorySegment) (point : List F) :
    segmentsMleMsb (first ++ second) point =
      segmentsMleMsb first point + segmentsMleMsb second point := by
  simp [segmentsMleMsb, sparseSegmentsMleMsb]

/-- A segment that is left out when it is empty. -/
theorem segmentsMleMsb_optional (startIndex : ℕ) (words : List U64) (point : List F) :
    segmentsMleMsb (if words = [] then [] else [⟨startIndex, words⟩]) point =
      sparseMleMsb startIndex words point := by
  split_ifs with empty
  · rw [empty]
    rfl
  · simp [segmentsMleMsb, sparseSegmentsMleMsb]

theorem validateSegmentsInDomain_ok {ramK : ℕ} (bounded : ramK < 2 ^ 64)
    {segments : List PublicMemorySegment}
    (inside : ∀ segment ∈ segments, segment.startIndex + segment.words.length ≤ ramK) :
    validateSegmentsInDomain ramK segments = .ok () := by
  induction segments with
  | nil => rfl
  | cons segment segments ih =>
      have here := inside segment List.mem_cons_self
      rw [validateSegmentsInDomain, if_pos ⟨by omega, here⟩]
      exact ih fun other member => inside other (List.mem_cons_of_mem _ member)

theorem mem_optional {startIndex : ℕ} {words : List U64} {segment : PublicMemorySegment}
    (member : segment ∈ if words = [] then [] else [(⟨startIndex, words⟩ : PublicMemorySegment)]) :
    words ≠ [] ∧ segment = ⟨startIndex, words⟩ := by
  split_ifs at member with empty
  · cases member
  · exact ⟨empty, List.mem_singleton.mp member⟩

/-- The public initial words that do not come from the program. -/
def inputsVector (memory : MemoryLimits) (inputs : List U64) (k : ℕ) : F :=
  (segmentWord (wordIndex memorySizeAddr) [BitVec.ofNat 64 (memory.initialPages * pageSize)] k).toNat +
    (segmentWord (wordIndex inputsBase) inputs k).toNat

theorem inputsOnly_evaluation {memory : MemoryLimits} {io : PublicIo} {point : List F}
    (fits : io.inputs.length ≤ 512) (window : 1536 ≤ 2 ^ point.length) (small : point.length ≤ 128) :
    segmentsMleMsb (PublicInitialRam.inputsOnly memory io).segments point =
      extension (inputsVector memory io.inputs) point := by
  unfold PublicInitialRam.inputsOnly inputsVector
  simp only
  rw [segmentsMleMsb_cons, segmentsMleMsb_optional,
    sparseMleMsb_eq (fun _ => by change 0 + 1 ≤ _; omega) small,
    sparseMleMsb_eq (fun _ => by change 512 + io.inputs.length ≤ _; omega) small, ← extension_add]

theorem inputsOnly_inside {memory : MemoryLimits} {io : PublicIo} {ramK : ℕ}
    (fits : io.inputs.length ≤ 512) (window : 1536 ≤ ramK) {segment : PublicMemorySegment}
    (member : segment ∈ (PublicInitialRam.inputsOnly memory io).segments) :
    segment.startIndex + segment.words.length ≤ ramK := by
  rcases List.mem_cons.mp member with rfl | member
  · change 0 + 1 ≤ ramK
    omega
  · obtain ⟨-, rfl⟩ := mem_optional member
    change 512 + io.inputs.length ≤ ramK
    omega

theorem PublicInitialRam.new_segments (preprocessing : WasmProgramPreprocessing) (io : PublicIo) :
    (PublicInitialRam.new preprocessing io).segments =
      (PublicInitialRam.inputsOnly preprocessing.memory io).segments ++
        if preprocessing.programImage.words = [] then []
        else [⟨preprocessing.programImage.startIndex, preprocessing.programImage.words⟩] := by
  unfold PublicInitialRam.new
  simp only
  split_ifs
  · exact (List.append_nil _).symm
  · rfl

variable {preprocessing : WasmProgramPreprocessing} {program : ProgramPreprocessing} {io : PublicIo}
  {checked : CheckedInputs}

/-- The image ends inside an accepted RAM domain. -/
theorem Checked.image_inside (valid : Checked program io checked)
    (same : program.programImageLenWords = preprocessing.programImage.words.length)
    (nonempty : preprocessing.programImage.words ≠ []) :
    preprocessing.programImage.startIndex + preprocessing.programImage.words.length ≤
      checked.ramK := by
  have inside := valid.image
  have positive := List.length_pos_iff.mpr nonempty
  have index : preprocessing.programImage.startIndex = programImageStartIndex := rfl
  unfold ProgramPreprocessing.programImageEndIndex at inside
  rw [same] at inside
  split at inside
  · omega
  · omega

/-- The words of the program's initial memory, by RAM word index. -/
def initialVector (preprocessing : WasmProgramPreprocessing) (inputs : List U64) (k : ℕ) : F :=
  (wordOf (preprocessing.initialMemory inputs) (unmapWordAddress k)).toNat

/-- The public words and the image's add up to the initial memory. -/
theorem initialVector_evaluation {program : IrProgram} {maxTraceLength : ℕ}
    (preprocessed : WasmProgramPreprocessing.new program maxTraceLength = .ok preprocessing)
    {inputs : List U64} (fits : inputs.length ≤ 512) {point : List F}
    (inside : preprocessing.programImage.words ≠ [] → preprocessing.programImage.startIndex +
      preprocessing.programImage.words.length ≤ 2 ^ point.length) (small : point.length ≤ 128) :
    extension (inputsVector preprocessing.memory inputs) point +
        sparseMleMsb preprocessing.programImage.startIndex preprocessing.programImage.words point =
      extension (initialVector preprocessing inputs) point := by
  rw [sparseMleMsb_eq inside small, ← extension_add]
  refine extension_congr fun k _ => ?_
  unfold inputsVector initialVector
  rw [wordOf_initialMemory preprocessed fits k]
  push_cast
  ring

/-- The public initial memory with the program in the open. -/
theorem publicInitialRamEvaluation_full {source : IrProgram} {maxTraceLength : ℕ}
    (preprocessed : WasmProgramPreprocessing.new source maxTraceLength = .ok preprocessing)
    (valid : Checked (.full preprocessing) io checked) {point : List F}
    (arity : point.length = checked.ramK.log2) :
    publicInitialRamEvaluation checked (.full preprocessing) point =
      .ok (extension (initialVector preprocessing io.inputs) point) := by
  obtain ⟨domain, small⟩ := valid.point arity
  have inputs : checked.publicIo.inputs = io.inputs := by rw [valid.publicIo]
  have fits : checked.publicIo.inputs.length ≤ 512 := by rw [inputs]; exact valid.inputs
  refine except_bind_eq_ok.mpr ⟨(), validateSegmentsInDomain_ok valid.bounded fun segment member => ?_, ?_⟩
  · simp only [PublicInitialRam.new_segments] at member
    rcases List.mem_append.mp member with member | member
    · exact inputsOnly_inside fits valid.window member
    · obtain ⟨nonempty, rfl⟩ := mem_optional member
      exact valid.image_inside rfl nonempty
  · simp only [PublicInitialRam.new_segments]
    rw [segmentsMleMsb_append, segmentsMleMsb_optional,
      inputsOnly_evaluation fits (by rw [domain]; exact valid.window) (by omega), inputs,
      initialVector_evaluation preprocessed valid.inputs
        (fun nonempty => by rw [domain]; exact valid.image_inside rfl nonempty) (by omega)]
    rfl

/-- The public initial memory with the program committed. -/
theorem publicInitialRamEvaluation_committed {maxTraceLength : ℕ}
    (valid : Checked (.committed (.of preprocessing) maxTraceLength) io checked) {point : List F}
    (arity : point.length = checked.ramK.log2) :
    publicInitialRamEvaluation checked (.committed (.of preprocessing) maxTraceLength) point =
      .ok (extension (inputsVector preprocessing.memory io.inputs) point) := by
  obtain ⟨domain, small⟩ := valid.point arity
  have inputs : checked.publicIo.inputs = io.inputs := by rw [valid.publicIo]
  have fits : checked.publicIo.inputs.length ≤ 512 := by rw [inputs]; exact valid.inputs
  refine except_bind_eq_ok.mpr ⟨(), validateSegmentsInDomain_ok valid.bounded fun segment member => ?_, ?_⟩
  · exact inputsOnly_inside fits valid.window member
  · simp only
    rw [inputsOnly_evaluation fits (by rw [domain]; exact valid.window) (by omega), inputs]
    rfl

/-! ## The output check -/

/-- The word that the final memory must hold at an address of the window. -/
def finalWord (io : PublicIo) (address : ℕ) : U64 :=
  if address = terminationAddr then 1
  else if inputsBase ≤ address ∧ (address - inputsBase) / wordBytes < io.inputs.length then
    io.inputs.getD ((address - inputsBase) / wordBytes) 0
  else if outputsBase ≤ address ∧ (address - outputsBase) / wordBytes < io.outputs.length then
    io.outputs.getD ((address - outputsBase) / wordBytes) 0
  else 0

/-- The words that the final memory must hold, by RAM word index. -/
def finalVector (io : PublicIo) (k : ℕ) : F := (finalWord io (unmapWordAddress k)).toNat

/-- The indicator of the public I/O window. -/
def windowMask (k : ℕ) : F := if wordIndex terminationAddr ≤ k ∧ k < ioEndIndex then 1 else 0

theorem getD_rdropWhile (values : List U64) (i : ℕ) :
    (values.rdropWhile (· == 0)).getD i 0 = values.getD i 0 := by
  induction values using List.reverseRecOn with
  | nil => rfl
  | append_singleton values value ih =>
      rw [List.rdropWhile_concat]
      split_ifs with zero
      · rw [ih]
        rcases Nat.lt_trichotomy i values.length with low | rfl | high
        · rw [List.getD_append _ _ _ _ low]
        · rw [List.getD_append_right _ _ _ _ le_rfl, Nat.sub_self,
            List.getD_eq_default _ _ le_rfl]
          exact (beq_iff_eq.mp zero).symm
        · rw [List.getD_eq_default _ _ high.le, List.getD_eq_default _ _ (by
            rw [List.length_append, List.length_singleton]
            omega)]
      · rfl

theorem length_rdropWhile_le (values : List U64) :
    (values.rdropWhile (· == 0)).length ≤ values.length :=
  (List.rdropWhile_prefix _ values).length_le

theorem segmentWord_rdropWhile (startIndex : ℕ) (values : List U64) (k : ℕ) :
    segmentWord startIndex (values.rdropWhile (· == 0)) k = segmentWord startIndex values k := by
  unfold segmentWord
  rw [getD_rdropWhile]

theorem segmentWord_outside {startIndex : ℕ} {values : List U64} {k : ℕ}
    (outside : ¬ (startIndex ≤ k ∧ k - startIndex < values.length)) :
    segmentWord startIndex values k = 0 := by
  unfold segmentWord
  split_ifs with above
  · exact List.getD_eq_default _ _ (by omega)
  · rfl

/-- The final words by index. -/
theorem finalWord_unmap (io : PublicIo) (k : ℕ) : finalWord io (unmapWordAddress k) =
    if k = 1 then 1
    else if 512 ≤ k ∧ k - 512 < io.inputs.length then io.inputs.getD (k - 512) 0
    else if 1024 ≤ k then io.outputs.getD (k - 1024) 0
    else 0 := by
  have address := unmapWordAddress_eq k
  have termination : terminationAddr = 0x90000008 := rfl
  have inputsBase_ : inputsBase = 0x90001000 := rfl
  have outputsBase_ : outputsBase = 0x90002000 := rfl
  have word : wordBytes = 8 := rfl
  unfold finalWord
  rw [termination, inputsBase_, outputsBase_, word]
  by_cases first : k = 1
  · rw [if_pos (by omega), if_pos first]
  · rw [if_neg (by omega), if_neg first]
    by_cases input : 512 ≤ k ∧ k - 512 < io.inputs.length
    · rw [if_pos (by omega), if_pos input,
        show (unmapWordAddress k - 0x90001000) / 8 = k - 512 by omega]
    · rw [if_neg (by omega), if_neg input]
      by_cases output : 1024 ≤ k ∧ k - 1024 < io.outputs.length
      · rw [if_pos (by omega), if_pos output.1,
          show (unmapWordAddress k - 0x90002000) / 8 = k - 1024 by omega]
      · rw [if_neg (by omega)]
        split_ifs with above
        · exact (List.getD_eq_default _ _ (by omega)).symm
        · rfl

/-- The final word of an index is the termination word, an input or an output. -/
theorem finalWord_eq {io : PublicIo} (inputs : io.inputs.length ≤ 512) (k : ℕ) :
    (finalWord io (unmapWordAddress k)).toNat =
      (segmentWord 1 [1] k).toNat + ((segmentWord 512 io.inputs k).toNat +
        (segmentWord 1024 (io.outputs.rdropWhile (· == 0)) k).toNat) := by
  have zero : (0 : U64).toNat = 0 := rfl
  have single : segmentWord 1 [1] k = if k = 1 then 1 else 0 := by
    unfold segmentWord
    rcases k with _ | _ | k <;> rfl
  rw [finalWord_unmap, single, segmentWord_rdropWhile]
  by_cases first : k = 1
  · rw [if_pos first, if_pos first, segmentWord_outside (by omega), segmentWord_outside (by omega),
      zero]
    rfl
  · rw [if_neg first, if_neg first]
    by_cases input : 512 ≤ k ∧ k - 512 < io.inputs.length
    · rw [if_pos input, segmentWord_outside (by omega : ¬ (1024 ≤ k ∧ _)), zero, segmentWord,
        if_pos input.1, Nat.zero_add, Nat.add_zero]
    · rw [if_neg input, segmentWord_outside input, zero, Nat.zero_add, Nat.zero_add]
      rfl

/-- The words that the final memory must hold lie in the window. -/
theorem finalVector_past {io : PublicIo} (inputs : io.inputs.length ≤ 512)
    (outputs : io.outputs.length ≤ 512) {k : ℕ} (past : 2 ^ 11 ≤ k) : finalVector io k = (0 : F) := by
  have dropped := length_rdropWhile_le io.outputs
  unfold finalVector
  rw [finalWord_eq inputs, segmentWord_outside (by rw [List.length_singleton]; omega),
    segmentWord_outside (by omega), segmentWord_outside (by omega)]
  exact Nat.cast_zero

/-- The public words of the output check are the final words. -/
theorem publicIo_evaluation {io : PublicIo} (inputs : io.inputs.length ≤ 512)
    (outputs : io.outputs.length ≤ 512) {point : List F} (window : 2 ^ 11 ≤ 2 ^ point.length)
    (small : point.length ≤ 128) :
    segmentsMleMsb (PublicIoMemory.new { io with outputs := io.outputs.rdropWhile (· == 0) }).segments
      point = extension (finalVector io) point := by
  have dropped := length_rdropWhile_le io.outputs
  unfold PublicIoMemory.new
  simp only
  rw [segmentsMleMsb_cons, segmentsMleMsb_append, segmentsMleMsb_optional, segmentsMleMsb_optional,
    sparseMleMsb_eq (fun _ => by change 1 + 1 ≤ _; omega) small,
    sparseMleMsb_eq (fun _ => by change 512 + io.inputs.length ≤ _; omega) small,
    sparseMleMsb_eq (fun _ => by change 1024 + (io.outputs.rdropWhile _).length ≤ _; omega) small,
    ← extension_add, ← extension_add]
  refine extension_congr fun k _ => ?_
  unfold finalVector
  rw [finalWord_eq inputs]
  push_cast
  rfl

/-- The publics of the output check are the extensions of the equality, the window and the final
words. -/
theorem ramOutputCheckPublics_eq (valid : Checked program io checked) {left right : List F}
    (arity : left.length = checked.ramK.log2) (arity' : right.length = checked.ramK.log2) :
    ramOutputCheckPublics (PublicIoMemory.new checked.publicIo) left right =
      .ok (extension (eqWeight left) right, extension windowMask right,
        extension (finalVector io) right) := by
  obtain ⟨domain, small⟩ := valid.point arity'
  have window := valid.window
  have long : 11 ≤ right.length := by
    by_contra short
    have : 2 ^ right.length ≤ 2 ^ 10 := Nat.pow_le_pow_right two_pos (by omega)
    omega
  have vars (io : PublicIo) : (PublicIoMemory.new io).ioNumVars = 11 := rfl
  have low : (right.drop (right.length - 11)).length = 11 := by
    rw [List.length_drop]
    omega
  have mask : rangeMaskMleMsb (wordIndex terminationAddr) ioEndIndex right =
      .ok (extension windowMask right) :=
    rangeMaskMleMsb_eq (by omega) (by decide) (by rw [domain, ioEndIndex_eq]; exact window)
  refine except_bind_eq_ok.mpr ⟨extension (eqWeight left) right, ?_, ?_⟩
  · rw [tryEqMle, if_neg (not_not.mpr (arity.trans arity'.symm)), eqMle_eq (arity.trans arity'.symm)]
    rfl
  · refine except_bind_eq_ok.mpr ⟨extension windowMask right, congrArg publicInputFailed mask, ?_⟩
    refine except_check_eq_ok.mpr ⟨by rw [vars]; omega, ?_⟩
    rw [vars, valid.publicIo]
    simp only
    rw [publicIo_evaluation valid.inputs valid.outputs (by rw [low]) (by omega)]
    have whole : right.take (right.length - 11) ++ right.drop (right.length - 11) = right :=
      List.take_append_drop _ _
    have past (k : ℕ) (above : 2 ^ (right.drop (right.length - 11)).length ≤ k) :
        finalVector io k = (0 : F) :=
      finalVector_past valid.inputs valid.outputs (by rwa [low] at above)
    have split := extension_append_low past (right.take (right.length - 11))
    rw [whole] at split
    rw [split, List.prod_eq_foldl, List.foldl_map]
    rfl

/-- The final memory holds the termination word, the inputs and the outputs, and zero elsewhere in the
window. -/
structure FinalMemoryHolds (io : PublicIo) (final : ℕ → U64) : Prop where
  termination : final terminationAddr = 1
  inputs : ∀ i value, io.inputs[i]? = some value → final (inputAddress i) = value
  outputs : ∀ i < maxOutputWords, final (outputAddress i) = io.outputs.getD i 0
  rest : ∀ k, wordIndex terminationAddr ≤ k → k < ioEndIndex → unmapWordAddress k ≠ terminationAddr →
    (∀ i < io.inputs.length, unmapWordAddress k ≠ inputAddress i) →
    (∀ i < maxOutputWords, unmapWordAddress k ≠ outputAddress i) → final (unmapWordAddress k) = 0

/-- The final memory holds the claimed words exactly when it agrees with them in the window. -/
theorem finalMemoryHolds_iff {io : PublicIo} (inputs : io.inputs.length ≤ 512) (final : ℕ → U64) :
    FinalMemoryHolds io final ↔
      ∀ k, 1 ≤ k → k < 1536 → final (unmapWordAddress k) = finalWord io (unmapWordAddress k) := by
  have termination : terminationAddr = unmapWordAddress 1 := rfl
  have maxOutput : maxOutputWords = 512 := rfl
  have input (i : ℕ) : inputAddress i = unmapWordAddress (512 + i) := by
    unfold inputAddress unmapWordAddress inputsBase systemBase systemSize wordBytes
    omega
  have output (i : ℕ) : outputAddress i = unmapWordAddress (1024 + i) := by
    unfold outputAddress unmapWordAddress outputsBase inputsBase inputsSize systemBase systemSize
      wordBytes
    omega
  have injective {j k : ℕ} (same : unmapWordAddress j = unmapWordAddress k) : j = k := by
    rw [unmapWordAddress_eq, unmapWordAddress_eq] at same
    omega
  constructor
  · intro holds k lower upper
    rw [finalWord_unmap]
    split_ifs with first inside above
    · rw [first]
      exact holds.termination
    · obtain ⟨above, small⟩ := inside
      have found := List.getElem?_eq_getElem small
      have := holds.inputs (k - 512) _ found
      rw [input, Nat.add_sub_cancel' above] at this
      rw [this, List.getD_eq_getElem?_getD, found, Option.getD_some]
    · have index : 1024 + (k - 1024) = k := by omega
      have := holds.outputs (k - 1024) (by rw [maxOutput]; omega)
      rwa [output, index] at this
    · refine holds.rest k lower upper (fun same => first (injective same)) (fun i small same => ?_)
        fun i small same => ?_
      · rw [input] at same
        have := injective same
        omega
      · rw [output] at same
        have := injective same
        omega
  · intro agrees
    refine ⟨?_, fun i value found => ?_, fun i small => ?_, fun k lower upper first inside above => ?_⟩
    · rw [termination, agrees 1 le_rfl (by omega), finalWord_unmap, if_pos rfl]
    · obtain ⟨small, value⟩ := List.getElem?_eq_some_iff.mp found
      rw [input, agrees _ (by omega) (by omega), finalWord_unmap, if_neg (by omega),
        if_pos (by omega), Nat.add_sub_cancel_left, List.getD_eq_getElem?_getD, found]
      rfl
    · have small : i < 512 := small
      rw [output, agrees _ (by omega) (by omega), finalWord_unmap, if_neg (by omega),
        if_neg (by omega), if_pos (by omega), Nat.add_sub_cancel_left]
    · rw [agrees k lower upper, finalWord_unmap, if_neg fun same => first (by rw [termination, same]),
        if_neg fun both => inside (k - 512) both.2 (by
          rw [input, Nat.add_sub_cancel' both.1]), if_neg]
      intro high
      have upper : k < 1536 := upper
      refine above (k - 1024) (by rw [maxOutput]; omega) ?_
      rw [output, Nat.add_sub_cancel' high]

/-- The publics at a boolean address. -/
theorem ramOutputCheckPublics_bitPoint (valid : Checked program io checked) {point : List F}
    (arity : point.length = checked.ramK.log2) {k : ℕ} (small : k < checked.ramK) :
    ramOutputCheckPublics (PublicIoMemory.new checked.publicIo) point
        (bitPoint F checked.ramK.log2 k) =
      .ok (eqWeight point k, windowMask k, finalVector io k) := by
  have inside : k < 2 ^ checked.ramK.log2 := by rwa [valid.power]
  rw [ramOutputCheckPublics_eq valid arity (length_bitPoint _ _), extension_bitPoint _ inside,
    extension_bitPoint _ inside, extension_bitPoint _ inside]

end

/-- The output check vanishes at every point exactly when the final memory holds the claimed words. -/
theorem outputCheck_vanishes_iff {F : Type} [WideField F] {program : ProgramPreprocessing}
    {io : PublicIo} {checked : CheckedInputs} (valid : Checked program io checked)
    (final : ℕ → U64) :
    (∀ point : List F, point.length = checked.ramK.log2 →
      ∑ k ∈ Finset.range checked.ramK, outputCheckExpression
        (eqWeight point k, windowMask k, finalVector io k) (final (unmapWordAddress k)).toNat = 0) ↔
      FinalMemoryHolds io final := by
  have sum (point : List F) (arity : point.length = checked.ramK.log2) :
      ∑ k ∈ Finset.range checked.ramK, outputCheckExpression
        (eqWeight point k, windowMask k, finalVector io k) (final (unmapWordAddress k)).toNat =
      extension (fun k => windowMask k *
        (((final (unmapWordAddress k)).toNat : F) - finalVector io k)) point := by
    unfold extension
    rw [(valid.point arity).1]
    refine Finset.sum_congr rfl fun k _ => ?_
    unfold outputCheckExpression
    ring
  have first : wordIndex terminationAddr = 1 := rfl
  have last := ioEndIndex_eq
  rw [finalMemoryHolds_iff valid.inputs]
  constructor
  · intro vanishes k lower upper
    have inside : k < 2 ^ checked.ramK.log2 := by
      rw [valid.power]
      exact upper.trans_le valid.window
    have zero := vanishes (bitPoint F checked.ramK.log2 k) (length_bitPoint _ _)
    rw [sum _ (length_bitPoint _ _), extension_bitPoint _ inside, windowMask,
      if_pos ⟨by omega, by omega⟩, one_mul, sub_eq_zero] at zero
    have bounded (v : U64) : v.toNat < 2 ^ 253 :=
      v.isLt.trans (Nat.pow_lt_pow_right one_lt_two (by omega))
    exact BitVec.eq_of_toNat_eq (natCast_inj_of_lt (bounded _) (bounded _) zero)
  · intro agrees point arity
    rw [sum point arity, ← extension_zero point]
    refine extension_congr fun k _ => ?_
    unfold windowMask
    split_ifs with window
    · rw [finalVector, agrees k (by omega) (by omega), sub_self, mul_zero]
    · exact zero_mul _

/-- The public memory of a proof is bound: the initial memory in both program modes, and the publics of
the output check. -/
theorem publicMemory_bound {F : Type} [WideField F] {source : IrProgram} {maxTraceLength : ℕ}
    {preprocessing : WasmProgramPreprocessing}
    (preprocessed : WasmProgramPreprocessing.new source maxTraceLength = .ok preprocessing)
    {program : ProgramPreprocessing} {io : PublicIo} {traceLength ramK : ℕ} {checked : CheckedInputs}
    (valid : validateInputsFromParts program io traceLength ramK = .ok checked) :
    (program = .full preprocessing → ∀ point : List F, point.length = ramK.log2 →
      publicInitialRamEvaluation checked program point =
        .ok (extension (initialVector preprocessing io.inputs) point)) ∧
    (program = .committed (.of preprocessing) maxTraceLength →
      ∀ point : List F, point.length = ramK.log2 →
      ∃ publicPart, publicInitialRamEvaluation checked program point = .ok publicPart ∧
        publicPart + ∑ j ∈ Finset.range preprocessing.programImage.words.length,
            eqIndexMsb point (preprocessing.programImage.startIndex + j) *
              ((preprocessing.programImage.words.getD j 0).toNat : F) =
          extension (initialVector preprocessing io.inputs) point) ∧
    (∀ left right : List F, left.length = ramK.log2 → right.length = ramK.log2 →
      ramOutputCheckPublics (PublicIoMemory.new checked.publicIo) left right =
        .ok (extension (eqWeight left) right, extension windowMask right,
          extension (finalVector io) right)) ∧
    ∃ publics : List F → ℕ → F × F × F,
      (∀ point k, point.length = ramK.log2 → k < ramK →
        ramOutputCheckPublics (PublicIoMemory.new checked.publicIo) point
          (bitPoint F ramK.log2 k) = .ok (publics point k)) ∧
      ∀ final : ℕ → U64, (∀ point : List F, point.length = ramK.log2 →
          ∑ k ∈ Finset.range ramK, outputCheckExpression (publics point k)
            (final (unmapWordAddress k)).toNat = 0) ↔
        FinalMemoryHolds io final := by
  obtain ⟨checks, rfl⟩ := validateInputsFromParts_checked valid
  refine ⟨?_, ?_, fun left right => ramOutputCheckPublics_eq checks,
    fun point k => (eqWeight point k, windowMask k, finalVector io k),
    fun point k arity small => ramOutputCheckPublics_bitPoint checks arity small,
    outputCheck_vanishes_iff checks⟩
  · rintro rfl point arity
    exact publicInitialRamEvaluation_full preprocessed checks arity
  · rintro rfl point arity
    obtain ⟨domain, small⟩ := checks.point arity
    refine ⟨_, publicInitialRamEvaluation_committed checks arity, ?_⟩
    rw [← sparseMleMsb_eq_sum, initialVector_evaluation preprocessed checks.inputs
      (fun nonempty => by rw [domain]; exact checks.image_inside rfl nonempty) (by omega)]

/-- A program with one global and one page. -/
def publicProgram : IrProgram where
  code := [.halt]
  functions := []
  exports := [("main", 0)]
  entries := [("main", 0)]
  outputWords := [("main", 1)]
  memory := ⟨1, 1⟩
  globals := [7]
  data := []
  table := []

def publicProgramIo : PublicIo := ⟨"main", [3, 4], [7, 0]⟩

theorem ramDomain_eq {words e : ℕ} (lower : 2 ^ e < words) (upper : words ≤ 2 ^ (e + 1))
    (small : e < 63) : ramDomain words = .ok (2 ^ (e + 1)) := by
  have clog : Nat.clog 2 words = e + 1 :=
    le_antisymm (Nat.clog_le_of_le_pow upper) ((Nat.lt_clog_iff_pow_lt one_lt_two).mpr lower)
  unfold ramDomain nextPowerOfTwo
  rw [clog, if_pos (Nat.pow_lt_pow_right one_lt_two (by omega))]

/-- A RAM domain that holds the program's global. -/
theorem publicMemory_bound_public : ∃ preprocessing checked,
    WasmProgramPreprocessing.new publicProgram 16 = .ok preprocessing ∧
    validateInputsFromParts (.full preprocessing) publicProgramIo 8 (2 ^ 18) = .ok checked ∧
    ∀ point : List Fr, point.length = (2 ^ 18).log2 →
      publicInitialRamEvaluation checked (.full preprocessing) point =
        .ok (extension (initialVector preprocessing [3, 4]) point) := by
  obtain ⟨preprocessing, preprocessed, image⟩ : ∃ preprocessing,
      WasmProgramPreprocessing.new publicProgram 16 = .ok preprocessing ∧
      (ProgramPreprocessing.full preprocessing).programImageEndIndex = 133121 ∧
      preprocessing.memory = ⟨1, 1⟩ ∧ preprocessing.maxTraceLength = 16 ∧
      preprocessing.bytecode.entry "main" = some 0 := ⟨_, rfl, by decide⟩
  obtain ⟨end_, memory, length, entry⟩ := image
  have valid : validateInputsFromParts (.full preprocessing) publicProgramIo 8 (2 ^ 18) =
      .ok ⟨⟨"main", [3, 4], [7]⟩, 8, 2 ^ 18, 0⟩ := by
    unfold validateInputsFromParts
    simp only [ProgramPreprocessing.entryPc, publicProgramIo, entry]
    refine except_check_eq_ok.mpr ⟨by decide, except_check_eq_ok.mpr ⟨by decide,
      except_check_eq_ok.mpr ⟨?_, except_bind_eq_ok.mpr ⟨2 ^ 18, ?_,
        except_bind_eq_ok.mpr ⟨2 ^ 18, ?_, except_check_eq_ok.mpr ⟨?_, rfl⟩⟩⟩⟩⟩⟩
    · simp only [ProgramPreprocessing.maxTraceLength, length]
      decide
    · rw [end_]
      exact ramDomain_eq (e := 17) (by decide) (by decide) (by decide)
    · simp only [ProgramPreprocessing.memory, memory]
      exact ramDomain_eq (e := 17) (by decide) (by decide) (by decide)
    · decide
  have bound := (publicMemory_bound (F := Fr) preprocessed valid).1 rfl
  exact ⟨preprocessing, _, preprocessed, valid, bound⟩

end JoltWasm
