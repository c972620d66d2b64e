import JoltWasm.Program.PublicBinding
import JoltWasm.Program.Transcript

/-!
# The transcript binds the statement

The bytes absorbed so far show where every append ends.  With the fixed schedule of labels and the counts of
the configuration they determine the whole statement, and no statement is absorbed on the way to another.
-/

namespace JoltWasm.FiatShamir

open Lib AppendToTranscript

/-! ## Words and frames -/

theorem extract_injective {x y : U64} (bytes : ∀ i < 8, x.extractLsb' (8 * i) 8 = y.extractLsb' (8 * i) 8) : x = y := by
  refine BitVec.eq_of_getLsbD_eq fun k inside => ?_
  have byte := congrArg (·.getLsbD (k % 8)) (bytes (k / 8) (by omega))
  have place : 8 * (k / 8) + k % 8 = k := Nat.div_add_mod k 8
  simpa [BitVec.getLsbD_extractLsb', Nat.mod_lt, place] using byte

theorem toLeBytes_injective {x y : U64} (same : toLeBytes x = toLeBytes y) : x = y :=
  extract_injective fun i inside =>
    congrArg UInt8.toBitVec (List.map_inj_left.mp same i (List.mem_range.mpr inside))

theorem toBeBytes_injective {x y : U64} (same : toBeBytes x = toBeBytes y) : x = y :=
  toLeBytes_injective (List.reverse_injective same)

theorem u64FromUsize_injective {m n : ℕ} (small : m < 2 ^ 64) (smallToo : n < 2 ^ 64)
    (same : u64FromUsize m = u64FromUsize n) : m = n := by
  have values := congrArg BitVec.toNat same
  rwa [u64FromUsize, u64FromUsize, BitVec.toNat_ofNat, BitVec.toNat_ofNat, Nat.mod_eq_of_lt small,
    Nat.mod_eq_of_lt smallToo] at values

theorem u64FromU8_injective {x y : UInt8} (same : u64FromU8 x = u64FromU8 y) : x = y := by
  refine UInt8.toNat_inj.mp ?_
  have values := congrArg BitVec.toNat same
  rw [u64FromU8, u64FromU8, BitVec.toNat_setWidth, BitVec.toNat_setWidth] at values
  have small := x.toBitVec.isLt
  have smallToo := y.toBitVec.isLt
  rwa [Nat.mod_eq_of_lt (by omega), Nat.mod_eq_of_lt (by omega)] at values

theorem transcriptScalar_injective {x y : TracePolynomialOrder} (same : transcriptScalar x = transcriptScalar y) :
    x = y := by
  cases x <;> cases y <;> first | rfl | exact absurd same (by decide)

theorem frame_ne_nil (bytes : Slice UInt8) : frame bytes ≠ [] := List.cons_ne_nil _ _

/-- The length in the frame tells where the body ends. -/
theorem frame_delimits : Delimits frame id := by
  intro a b r s same
  rw [frame, frame, List.cons_append, List.cons_append, List.append_assoc, List.append_assoc] at same
  obtain ⟨-, inner⟩ := List.cons.inj same
  obtain ⟨lengths, rest⟩ := List.append_inj inner (by rw [length_toLeBytes, length_toLeBytes])
  have lists : a.toList.length = b.toList.length :=
    u64FromUsize_injective a.bounded b.bounded (toLeBytes_injective lengths)
  obtain ⟨bodies, after⟩ := List.append_inj rest lists
  exact ⟨Slice.ext bodies, after⟩

/-- A value that is absorbed in one append, as far as its bytes tell it. -/
theorem framed_delimits {A γ : Type} [AppendToTranscript A] {key : A → γ}
    (determined : ∀ a b : A, transcriptBytes a = transcriptBytes b → key a = key b) :
    Delimits (fun a : A => frame (transcriptBytes a)) key :=
  (frame_delimits.comp transcriptBytes).weaken determined

theorem word_determined (a b : U64Word) (same : transcriptBytes a = transcriptBytes b) : a.word = b.word := by
  have bytes := congrArg Slice.toList same
  exact toBeBytes_injective (List.append_inj bytes rfl).2

theorem count_determined {text : String} {short : (ascii text).length ≤ 24} {m n : U64}
    (same : transcriptBytes (LabelWithCount.mk text m short) = transcriptBytes (LabelWithCount.mk text n short)) :
    m = n := by
  have bytes := congrArg Slice.toList same
  exact toBeBytes_injective (List.append_inj bytes rfl).2

/-! ## What the operations feed to the sponge -/

namespace SpongeTranscript

variable (t : SpongeTranscript)

theorem absorbed_append {A : Type} [AppendToTranscript A] (value : A) :
    (t.append value).absorbed = t.absorbed ++ frame (transcriptBytes value) := rfl

/-- A loop of absorptions. -/
theorem absorbed_foldl {A : Type} {step : SpongeTranscript → A → SpongeTranscript} {code : A → List UInt8}
    (one : ∀ t a, (step t a).absorbed = t.absorbed ++ code a) (values : List A) :
    (values.foldl step t).absorbed = t.absorbed ++ values.flatMap code := by
  induction values generalizing t with
  | nil => rw [List.foldl_nil, List.flatMap_nil, List.append_nil]
  | cons value values ih => rw [List.foldl_cons, ih, one, List.flatMap_cons, List.append_assoc]

end SpongeTranscript

section

variable {C : Type} [AppendToTranscript C]

namespace SpongeTranscript

variable (t : SpongeTranscript)

theorem absorbed_labeledBytes (label : String) (bytes : Slice UInt8) (short : (ascii label).length ≤ 24) :
    (t.absorbLabeledBytes label bytes short).absorbed = t.absorbed ++ labeledBytesCode label short bytes :=
  List.append_assoc _ _ _

theorem absorbed_labeledU64 (label : String) (value : U64) (short : (ascii label).length ≤ 32) :
    (t.absorbLabeledU64 label value short).absorbed = t.absorbed ++ labeledU64Code label short value :=
  List.append_assoc _ _ _

theorem absorbed_labeledWords (label : String) (words : Slice U64) (short : (ascii label).length ≤ 24) :
    (t.absorbLabeledWords label words short).absorbed = t.absorbed ++ labeledWordsCode label short words := by
  have word (t : SpongeTranscript) (w : U64) : (t.append (U64Word.mk w)).absorbed = t.absorbed ++ wordCode w := rfl
  rw [absorbLabeledWords, absorbed_foldl _ word, absorbed_append, List.append_assoc, labeledWordsCode]

theorem absorbed_payload (label : String) (payload : C) (short : (ascii label).length ≤ 24) :
    ((t.appendPayloadLabel label payload short).append payload).absorbed =
      t.absorbed ++ payloadCode label short payload := by
  rw [absorbed_append, payloadCode, payloadLabel, appendPayloadLabel, ← List.append_assoc]
  cases transcriptPayloadLen payload with
  | some len => rfl
  | none => rfl

end SpongeTranscript

/-! ## Every part can be told from what follows -/

theorem labeledBytes_delimits (label : String) (short : (ascii label).length ≤ 24) :
    Delimits (labeledBytesCode label short) id :=
  (frame_delimits.comp _).append fun _ _ _ _ _ same => frame_delimits same

theorem wordCode_delimits : Delimits wordCode id :=
  (framed_delimits word_determined).comp U64Word.mk

theorem labeledU64_delimits (label : String) (short : (ascii label).length ≤ 32) :
    Delimits (labeledU64Code label short) id :=
  (frame_delimits.comp _).append fun _ _ _ _ _ same => wordCode_delimits same

theorem labeledWords_delimits (label : String) (short : (ascii label).length ≤ 24) :
    Delimits (labeledWordsCode label short) id := by
  refine (frame_delimits.comp _).append fun a b r s counts same => ?_
  have lengths : a.toList.length = b.toList.length :=
    u64FromUsize_injective a.bounded b.bounded (count_determined counts)
  obtain ⟨words, after⟩ := wordCode_delimits.flatMap_length lengths same
  exact ⟨Slice.ext (by simpa using words), after⟩

theorem payload_delimits (label : String) (short : (ascii label).length ≤ 24) :
    Delimits (payloadCode (C := C) label short) transcriptBytes :=
  (frame_delimits.comp _).append fun _ _ _ _ _ same => frame_delimits same

/-! ## The whole statement -/

theorem absorbed_preamble (checked : CheckedInputs) (config : ProofTranscriptConfig) (t : SpongeTranscript) :
    (absorbPreamble checked config t).absorbed = t.absorbed ++ preambleCode checked config := by
  simp only [absorbPreamble, SpongeTranscript.absorbed_labeledBytes, SpongeTranscript.absorbed_labeledU64,
    SpongeTranscript.absorbed_labeledWords, preambleCode, List.append_assoc]

/-- The preamble is read off field by field. -/
theorem preamble_delimits : Delimits (fun p : CheckedInputs × ProofTranscriptConfig => preambleCode p.1 p.2) id := by
  rintro ⟨checked, ⟨⟨⟩, ⟨⟩, order⟩⟩ ⟨checked', ⟨⟨⟩, ⟨⟩, order'⟩⟩ r s same
  simp only [preambleCode, List.append_assoc] at same
  obtain ⟨digest, same⟩ := labeledBytes_delimits _ _ same
  obtain ⟨entryPc, same⟩ := labeledU64_delimits _ _ same
  obtain ⟨inputs, same⟩ := labeledWords_delimits _ _ same
  obtain ⟨outputs, same⟩ := labeledWords_delimits _ _ same
  obtain ⟨ramK, same⟩ := labeledU64_delimits _ _ same
  obtain ⟨traceLength, same⟩ := labeledU64_delimits _ _ same
  obtain ⟨ramPhase1, same⟩ := labeledU64_delimits _ _ same
  obtain ⟨ramPhase2, same⟩ := labeledU64_delimits _ _ same
  obtain ⟨registersPhase1, same⟩ := labeledU64_delimits _ _ same
  obtain ⟨registersPhase2, same⟩ := labeledU64_delimits _ _ same
  obtain ⟨chunk, same⟩ := labeledU64_delimits _ _ same
  obtain ⟨virtualChunk, same⟩ := labeledU64_delimits _ _ same
  obtain ⟨scalar, after⟩ := labeledU64_delimits _ _ same
  obtain ⟨⟨bytes, sized⟩, _, _, _, _, _⟩ := checked
  obtain ⟨⟨bytes', sized'⟩, _, _, _, _, _⟩ := checked'
  obtain rfl : bytes = bytes' := digest
  obtain rfl := transcriptScalar_injective scalar
  obtain rfl := u64FromU8_injective ramPhase1
  obtain rfl := u64FromU8_injective ramPhase2
  obtain rfl := u64FromU8_injective registersPhase1
  obtain rfl := u64FromU8_injective registersPhase2
  obtain rfl := u64FromU8_injective chunk
  obtain rfl := u64FromU8_injective virtualChunk
  cases entryPc
  cases inputs
  cases outputs
  cases ramK
  cases traceLength
  exact ⟨rfl, after⟩

/-! ## The commitments -/

theorem absorbed_commitment (t : SpongeTranscript) (commitment : C) :
    (absorbCommitment t commitment).absorbed = t.absorbed ++ payloadCode "commitment" (by decide) commitment :=
  t.absorbed_payload _ _ _

theorem absorbed_commitments (commitments : JoltCommitments C) (t : SpongeTranscript) :
    (absorbTranscriptCommitments commitments t).absorbed = t.absorbed ++ commitmentsCode commitments := by
  simp only [absorbTranscriptCommitments, SpongeTranscript.absorbed_foldl _ absorbed_commitment, absorbed_commitment,
    commitmentsCode, List.append_assoc]

theorem absorbed_program (committed : CommittedProgram C) (t : SpongeTranscript) :
    (absorbCommittedProgramCommitments committed t).absorbed = t.absorbed ++ programCode committed := by
  have chunk (t : SpongeTranscript) (commitment : C) :
      ((t.appendPayloadLabel "bytecode_chunk_commit" commitment).append commitment).absorbed =
        t.absorbed ++ payloadCode "bytecode_chunk_commit" (by decide) commitment := t.absorbed_payload _ _ _
  simp only [absorbCommittedProgramCommitments, SpongeTranscript.absorbed_payload,
    SpongeTranscript.absorbed_foldl _ chunk, programCode, List.append_assoc]

/-- The payload bytes of the commitments, group by group. -/
def JoltCommitments.payloads (commitments : JoltCommitments C) : JoltCommitments (Slice UInt8) :=
  ⟨transcriptBytes commitments.rdInc, transcriptBytes commitments.ramInc, commitments.instructionRa.map transcriptBytes,
    commitments.ramRa.map transcriptBytes, commitments.bytecodeRa.map transcriptBytes⟩

def CommittedProgram.payloads (committed : CommittedProgram C) : CommittedProgram (Slice UInt8) :=
  ⟨committed.bytecodeChunkCommitments.map transcriptBytes, transcriptBytes committed.programImageCommitment⟩

/-- With the counts known, the groups are read off one after the other. -/
theorem commitments_determined {c c' : JoltCommitments C} (instruction : c.instructionRa.length = c'.instructionRa.length)
    (ram : c.ramRa.length = c'.ramRa.length) (bytecode : c.bytecodeRa.length = c'.bytecodeRa.length) {r s : List UInt8}
    (same : commitmentsCode c ++ r = commitmentsCode c' ++ s) : c.payloads = c'.payloads ∧ r = s := by
  simp only [commitmentsCode, List.append_assoc] at same
  obtain ⟨rdInc, same⟩ := payload_delimits _ _ same
  obtain ⟨ramInc, same⟩ := payload_delimits _ _ same
  obtain ⟨instructionRa, same⟩ := (payload_delimits _ _).flatMap_length instruction same
  obtain ⟨ramRa, same⟩ := (payload_delimits _ _).flatMap_length ram same
  obtain ⟨bytecodeRa, after⟩ := (payload_delimits _ _).flatMap_length bytecode same
  exact ⟨JoltCommitments.ext rdInc ramInc instructionRa ramRa bytecodeRa, after⟩

theorem program_determined {c c' : CommittedProgram C}
    (chunks : c.bytecodeChunkCommitments.length = c'.bytecodeChunkCommitments.length) {r s : List UInt8}
    (same : programCode c ++ r = programCode c' ++ s) : c.payloads = c'.payloads ∧ r = s := by
  simp only [programCode, List.append_assoc] at same
  obtain ⟨chunkPayloads, same⟩ := (payload_delimits _ _).flatMap_length chunks same
  obtain ⟨image, after⟩ := payload_delimits _ _ same
  exact ⟨CommittedProgram.ext chunkPayloads image, after⟩

omit [AppendToTranscript C] in
theorem requireCommitmentLayout_ok {commitments : JoltCommitments C} {layout : JoltRaPolynomialLayout}
    (laid : requireCommitmentLayout commitments layout = .ok ()) :
    commitments.instructionRa.length = layout.instruction ∧ commitments.bytecodeRa.length = layout.bytecode ∧
      commitments.ramRa.length = layout.ram := by
  simp only [requireCommitmentLayout] at laid
  split_ifs at laid with count groups
  push Not at groups
  exact groups

/-! ## Two statements -/

namespace Statement

variable {preprocessing : Digest → ProgramShape}

/-- Two statements with the same fields; the outputs are compared without the zeros at their ends, and the
commitments by the bytes of their payloads. -/
structure Same (s s' : Statement preprocessing C) : Prop where
  checked : s.checked.normalized = s'.checked.normalized
  config : s.config = s'.config
  commitments : s.commitments.payloads = s'.commitments.payloads
  program : s.program.map CommittedProgram.payloads = s'.program.map CommittedProgram.payloads

theorem stream_eq (s : Statement preprocessing C) : s.stream = preambleCode s.checked.normalized s.config ++
    (commitmentsCode s.commitments ++ (s.program.map programCode).getD []) := by
  have start : (absorbPreamble s.checked.normalized s.config ⟨[]⟩).absorbed = preambleCode s.checked.normalized s.config :=
    absorbed_preamble _ _ _
  rw [stream]
  cases s.program with
  | none => rw [absorbCommitments, absorbed_commitments, start, Option.map_none, Option.getD_none, List.append_nil]
  | some committed =>
      rw [absorbCommitments, absorbed_program, absorbed_commitments, start, Option.map_some, Option.getD_some,
        List.append_assoc]

/-- The streams, with anything after them, determine the statements. -/
theorem stream_delimits {s s' : Statement preprocessing C} {r q : List UInt8} (same : s.stream ++ r = s'.stream ++ q) :
    s.Same s' ∧ r = q := by
  rw [stream_eq, stream_eq, List.append_assoc, List.append_assoc, List.append_assoc, List.append_assoc] at same
  obtain ⟨preambles, same⟩ := preamble_delimits (a := (s.checked.normalized, s.config))
    (b := (s'.checked.normalized, s'.config)) same
  obtain ⟨checked, config⟩ := Prod.mk.inj preambles
  -- one configuration, and so one layout
  have digest : s.checked.preprocessingDigest = s'.checked.preprocessingDigest :=
    (congrArg CheckedInputs.preprocessingDigest checked :)
  have ramK : s.checked.ramK = s'.checked.ramK := (congrArg CheckedInputs.ramK checked :)
  have layouts := s.configured
  rw [config, digest, ramK, s'.configured] at layouts
  obtain layout := Except.ok.inj layouts
  obtain ⟨instruction, bytecode, ram⟩ := requireCommitmentLayout_ok s.laid
  obtain ⟨instruction', bytecode', ram'⟩ := requireCommitmentLayout_ok s'.laid
  obtain ⟨commitments, same⟩ := commitments_determined (by rw [instruction, instruction', layout])
    (by rw [ram, ram', layout]) (by rw [bytecode, bytecode', layout]) same
  have chunks := s.chunks
  rw [digest, ← s'.chunks] at chunks
  cases program : s.program with
  | none =>
    rw [program, Option.map_none] at chunks
    have none := Option.map_eq_none_iff.mp chunks.symm
    rw [program, none] at same
    exact ⟨⟨checked, config, commitments, by rw [program, none]⟩, same⟩
  | some committed =>
    rw [program, Option.map_some] at chunks
    obtain ⟨committed', program', count⟩ := Option.map_eq_some_iff.mp chunks.symm
    rw [program, program'] at same
    obtain ⟨payloads, after⟩ := program_determined count.symm same
    exact ⟨⟨checked, config, commitments, by rw [program, program', Option.map_some, Option.map_some, payloads]⟩, after⟩

end Statement

end

/-! ## The output words -/

/-- The truncated words are the words without the zeros at the end. -/
theorem truncateOutputs_eq (outputs : List U64) : truncateOutputs outputs = outputs.rdropWhile (· == 0) := by
  induction outputs using List.reverseRecOn with
  | nil => rfl
  | append_singleton words word ih =>
    rw [truncateOutputs, rposition, List.reverse_concat, List.findIdx?_cons, List.rdropWhile_concat]
    by_cases zero : word = 0
    · rw [if_neg (by simp [zero]), if_pos (by simp [zero]), ← ih, truncateOutputs, rposition, Option.map_map]
      cases last : words.reverse.findIdx? (· != 0) with
      | none => rw [Option.map_none, Option.map_none, List.take_zero, List.take_zero]
      | some back =>
        have inside : back < words.length := by
          simpa using (List.findIdx?_eq_some_iff_getElem.mp last).1
        rw [Option.map_some, Option.map_some]
        simp only [Function.comp_apply, List.length_append, List.length_singleton]
        rw [show words.length + 1 - 1 - (back + 1) = words.length - 1 - back by omega,
          List.take_append_of_le_length (by omega)]
    · rw [if_pos (by simpa using zero), if_neg (by simpa using zero), Option.map_some, List.take_of_length_le]
      simp

theorem length_le_of_zero_extended {words words' : List U64} (same : ∀ i, words.getD i 0 = words'.getD i 0) :
    (words.rdropWhile (· == 0)).length ≤ (words'.rdropWhile (· == 0)).length := by
  by_contra longer
  push Not at longer
  have some : words.rdropWhile (· == 0) ≠ [] := List.ne_nil_of_length_pos (by omega)
  -- past its own last word the shorter vector is zero
  have zero : (words.rdropWhile (· == 0)).getD ((words.rdropWhile (· == 0)).length - 1) 0 = 0 := by
    rw [getD_rdropWhile, same, ← getD_rdropWhile words', List.getD_eq_default _ _ (by omega)]
  have last := List.rdropWhile_last_not (· == 0) words some
  rw [List.getD_eq_getElem _ _ (Nat.sub_lt (List.length_pos_iff.mpr some) one_pos), ← List.getLast_eq_getElem some] at zero
  exact last (beq_iff_eq.mpr zero)

/-- Truncation identifies exactly the words that are one vector when extended with zeros. -/
theorem truncateOutputs_eq_iff (words words' : List U64) :
    truncateOutputs words = truncateOutputs words' ↔ ∀ i, words.getD i 0 = words'.getD i 0 := by
  rw [truncateOutputs_eq, truncateOutputs_eq]
  constructor
  · intro same i
    rw [← getD_rdropWhile words, same, getD_rdropWhile]
  · intro same
    have length := (length_le_of_zero_extended same).antisymm (length_le_of_zero_extended fun i => (same i).symm)
    refine List.ext_getElem length fun i inside insideToo => ?_
    rw [← List.getD_eq_getElem _ 0, ← List.getD_eq_getElem _ 0, getD_rdropWhile, getD_rdropWhile, same]

/-! ## The encoding is injective -/

/-- The bytes determine the strings that were appended; the stream of a statement determines the statement and
does not start the stream of another; and truncating the outputs identifies no two of them that differ when
extended with zeros. -/
theorem transcript_determines :
    (∀ appends appends' : List (Slice UInt8), (appends.foldl SpongeTranscript.appendBytes ⟨[]⟩).absorbed =
      (appends'.foldl SpongeTranscript.appendBytes ⟨[]⟩).absorbed → appends = appends') ∧
    (∀ (preprocessing : Digest → ProgramShape) (C : Type) [AppendToTranscript C] (s s' : Statement preprocessing C),
      (s.stream = s'.stream → s.Same s') ∧ (s.stream <+: s'.stream → s.stream = s'.stream)) ∧
    ∀ words words' : List U64, truncateOutputs words = truncateOutputs words' ↔
      ∀ i, words.getD i 0 = words'.getD i 0 := by
  refine ⟨fun appends appends' same => ?_, fun preprocessing C _ s s' => ⟨fun same => ?_, fun starts => ?_⟩,
    truncateOutputs_eq_iff⟩
  · have one (t : SpongeTranscript) (bytes : Slice UInt8) : (t.appendBytes bytes).absorbed = t.absorbed ++ frame bytes := rfl
    rw [SpongeTranscript.absorbed_foldl _ one, SpongeTranscript.absorbed_foldl _ one, List.nil_append,
      List.nil_append] at same
    have ids := frame_delimits.flatMap frame_ne_nil same
    rwa [List.map_id, List.map_id] at ids
  · exact (Statement.stream_delimits (r := []) (q := []) (by rw [same])).1
  · obtain ⟨rest, whole⟩ := starts
    obtain ⟨-, rfl⟩ := Statement.stream_delimits (r := rest) (q := []) (by rw [whole, List.append_nil])
    rw [← whole, List.append_nil]

/-- A statement with two output words, the second of them zero, and one commitment repeated. -/
def sampleStatement (byte : UInt8) : Statement (fun _ => ⟨4, none⟩) Bn254GT :=
  let commitment : Bn254GT := ⟨⟨[byte], Nat.one_lt_two_pow (by decide)⟩⟩
  { checked := ⟨⟨⟨List.replicate 32 0, by decide⟩, rfl⟩, 1, ⟨[], by decide⟩, ⟨[7, 0], by decide⟩, 1024, 64⟩
    config := ⟨⟨3, 2, 3, 2⟩, ⟨8, 16⟩, .cycleMajor⟩
    commitments := ⟨commitment, commitment, List.replicate 16 commitment, List.replicate 2 commitment, [commitment]⟩
    program := none
    layout := ⟨16, 1, 2⟩
    configured := rfl
    laid := rfl
    chunks := rfl }

theorem transcript_determines_sample :
    (sampleStatement 1).stream ≠ (sampleStatement 2).stream ∧ truncateOutputs [7, 0] = truncateOutputs [7] := by
  constructor
  · intro same
    have commitments := ((transcript_determines.2.1 _ _ (sampleStatement 1) (sampleStatement 2)).1 same).commitments
    have bytes : ([1] : List UInt8) = [2] := congrArg (fun payloads => payloads.rdInc.toList) commitments
    exact absurd bytes (by decide)
  · exact (transcript_determines.2.2 [7, 0] [7]).mpr fun i => by
      rcases i with _ | _ | i <;> rfl

end JoltWasm.FiatShamir
