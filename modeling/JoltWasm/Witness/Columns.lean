import JoltWasm.Program.TraceSoundness
import JoltWasm.Witness.Replay

/-!
# The columns of an honest trace

The witnesses of the rows of a run as the columns of a proof: the chunks of the row's pc, of its lookup index and of
its address, the contents of the RAM and of the registers as the last writes of the rows, and the rest row by row.
All relations hold of these columns when the last memory holds the claimed words.
-/

namespace JoltWasm

open Lib Layout

/-! ## Chunks of an address -/

/-- The chunks of an address join to the address. -/
theorem accessedPlace_chunks {width bits : ℕ} (some_ : 0 < width) (positive : 0 < bits) {address : Option ℕ}
    (inside : ∀ k ∈ address, k < 2 ^ width) :
    accessedPlace width bits (fun i => address.map (chunkDigit (chunkCount width bits) bits i)) = address := by
  have small : ∀ i < chunkCount width bits, ∀ v ∈ address.map (chunkDigit (chunkCount width bits) bits i), v < 2 ^ bits := by
    intro i _ v here
    obtain ⟨k, -, rfl⟩ := Option.map_eq_some_iff.mp here
    exact chunkDigit_lt _ _ _ _
  have count : 0 < chunkCount width bits := Nat.div_pos (by omega) positive
  cases address with
  | some k => exact (accessedPlace_eq_some positive small).mpr ⟨inside k rfl, fun _ _ => rfl⟩
  | none =>
      by_contra found
      obtain ⟨k, here⟩ := Option.ne_none_iff_exists'.mp found
      exact Option.some_ne_none _ (((accessedPlace_eq_some positive small).mp here).2 0 count).symm

/-- Digits with the same digits are the same. -/
theorem chunkDigit_injective {count bits x y : ℕ} (left : x < 2 ^ (count * bits)) (right : y < 2 ^ (count * bits))
    (same : ∀ i < count, chunkDigit count bits i x = chunkDigit count bits i y) : x = y := by
  have small : ∀ i < count, ∀ v ∈ some (chunkDigit count bits i x), v < 2 ^ bits := by
    intro i _ v here
    obtain rfl := Option.some.inj here
    exact chunkDigit_lt _ _ _ _
  have one := (joinChunks_eq_some (k := x) small).mpr ⟨left, fun _ _ => rfl⟩
  have other := (joinChunks_eq_some (k := y) small).mpr ⟨right, fun i inside => congrArg some (same i inside)⟩
  exact Option.some.inj (one.symm.trans other)

/-- What is read off the last write is the last write of what is read off. -/
theorem Lib.lastWrite_map {α β : Type} (f : α → β) (initial : ℕ → α) (place : ℕ → Option ℕ) (written : ℕ → α) (t k : ℕ) :
    lastWrite (fun k => f (initial k)) place (fun j => f (written j)) t k = f (lastWrite initial place written t k) := by
  induction t with
  | zero => rfl
  | succ t ih =>
      rw [lastWrite, lastWrite, ih]
      exact (apply_ite f _ _ _).symm

/-! ## The rows -/

/-- The row is one of the table, at its pc. -/
def WasmTraceRow.Fetched (code : List Ir) (row : WasmTraceRow) : Prop :=
  ∃ instruction, code[row.pc.toNat]? = some instruction ∧ row.bytecodeRow = BytecodeRow.of instruction

namespace WasmTraceRow.Fetched

variable {code : List Ir} {row : WasmTraceRow} {instruction : Ir} (static : row.bytecodeRow = BytecodeRow.of instruction)

include static

theorem flags_eq : row.flags = instruction.rowSpec.flags := congrArg BytecodeRow.flags static

theorem lookup_eq : row.lookup = instruction.rowSpec.lookup := congrArg BytecodeRow.lookup static

theorem index_eq : row.rs1Index = instruction.rowSpec.rs1 ∧ row.rs2Index = instruction.rowSpec.rs2 ∧
    row.rdIndex = instruction.rowSpec.rd :=
  ⟨(congrArg (fun row : BytecodeRow => registerOfId row.rs1) static).trans (registerOfId_registerId _),
    (congrArg (fun row : BytecodeRow => registerOfId row.rs2) static).trans (registerOfId_registerId _),
    (congrArg (fun row : BytecodeRow => registerOfId row.rd) static).trans (registerOfId_registerId _)⟩

/-- A row without a lookup has no inputs. -/
theorem inputs_zero (none_ : row.lookup = none) : row.leftInput = 0 ∧ row.rightInput = 0 := by
  have flags := flags_eq static
  rw [lookup_eq static] at none_
  rw [WasmTraceRow.leftInput, WasmTraceRow.rightInput, flags]
  cases instruction <;> simp [Ir.rowSpec] at none_ ⊢

end WasmTraceRow.Fetched

/-- The operands of a row are the halves of its lookup index, or the index itself on the right. -/
theorem WasmTraceRow.operands_eq {row : WasmTraceRow} (idle : row.lookup = none → row.leftInput = 0 ∧ row.rightInput = 0) :
    (row.rafFlag = true → row.lookupOperands.1 = 0 ∧ row.lookupOperands.2.toNat = Extract.lookupIndex row) ∧
      (row.rafFlag = false → row.lookupOperands.1 = OperandSide.left.of (Extract.lookupIndex row) ∧
        row.lookupOperands.2.toNat = (OperandSide.right.of (Extract.lookupIndex row)).toNat) := by
  have wide (word : U64) : (word.setWidth 128).toNat = word.toNat := by
    rw [BitVec.toNat_setWidth, Nat.mod_eq_of_lt (word.isLt.trans (by decide))]
  rw [Extract.lookupIndex]
  cases lookup : row.lookup with
  | none =>
      obtain ⟨left, right⟩ := idle lookup
      have index : row.lookupIndex = none := by rw [lookupIndex, lookup]
      have operands : row.lookupOperands = (row.leftInput, row.rightInput.setWidth 128) := by rw [lookupOperands, lookup]
      refine ⟨fun raf => ?_, fun _ => ?_⟩
      · rw [rafFlag, lookup] at raf
        cases raf
      · rw [index, operands, left, right]
        exact ⟨rfl, rfl⟩
  | some found =>
      cases found with
      | advice hint =>
          have operands : row.lookupOperands = (0, row.lookupIndex.getD 0) := by rw [lookupOperands, lookup]
          refine ⟨fun _ => by rw [operands]; exact ⟨rfl, rfl⟩, fun raf => ?_⟩
          rw [rafFlag, lookup] at raf
          cases raf
      | table op =>
          have raw : row.rafFlag = (op.operandMode != .interleaved) := by rw [rafFlag, lookup]; rfl
          by_cases mode : op.operandMode = .interleaved
          · have operands : row.lookupOperands = (row.leftInput, row.rightInput.setWidth 128) := by
              rw [lookupOperands, lookup]
              exact if_pos mode
            have index : row.lookupIndex = some (interleaveBits row.leftInput row.rightInput) := by
              rw [lookupIndex, lookup]
              exact congrArg (fun mode => some (lookupIndexFor mode row.leftInput row.rightInput)) mode
            rw [raw, mode, operands, index]
            refine ⟨fun raf => absurd raf Bool.false_ne_true, fun _ => ?_⟩
            rw [Option.getD_some, OperandSide.of, OperandSide.of, BitVec.ofNat_toNat, BitVec.setWidth_eq,
              uninterleave_interleave, wide]
            exact ⟨rfl, rfl⟩
          · have operands : row.lookupOperands = (0, row.lookupIndex.getD 0) := by
              rw [lookupOperands, lookup]
              exact if_neg mode
            rw [raw, operands]
            refine ⟨fun _ => ⟨rfl, rfl⟩, fun raf => ?_⟩
            rw [bne_eq_false_iff_eq] at raf
            exact absurd raf mode

/-! ## Accesses -/

/-- A row without an access has no address and no words. -/
theorem Extract.idle {row : WasmTraceRow} (none_ : ramAccessAddress row = none) :
    row.ramAddress = 0 ∧ row.ramReadValue = 0 ∧ row.ramWriteValue = 0 ∧ ramHammingWeight row = false := by
  have weight : ramHammingWeight row = false := by rw [ramHammingWeight, none_]; rfl
  unfold ramAccessAddress at none_
  split at none_
  · cases none_
  · next idle =>
      obtain ⟨load, store⟩ := Bool.or_eq_false_iff.mp (Bool.not_eq_true _ ▸ idle)
      refine ⟨?_, ?_, ?_, weight⟩
      · rw [WasmTraceRow.ramAddress, load, store]; rfl
      · rw [WasmTraceRow.ramReadValue, load, store]; rfl
      · rw [WasmTraceRow.ramWriteValue, load, store]; rfl

theorem Extract.address_of_access {row : WasmTraceRow} {address : U64} (accessed : ramAccessAddress row = some address) :
    row.ramAddress = address := by
  unfold ramAccessAddress at accessed
  split at accessed
  · exact Option.some.inj accessed
  · cases accessed

/-- The increment is the difference of the words of the access. -/
theorem Extract.ramInc_eq (row : WasmTraceRow) :
    ramInc row = (row.ramWriteValue.toNat : ℤ) - (row.ramReadValue.toNat : ℤ) := by
  unfold ramInc
  split
  · rfl
  · next idle =>
      have store : row.isStore = false := Bool.not_eq_true _ ▸ idle
      rw [WasmTraceRow.ramWriteValue, WasmTraceRow.ramReadValue, store]
      simp

/-! ## Contents -/

section

variable (row : ℕ → WasmTraceRow) (initial : ℕ → U64)

/-- The RAM before a cycle, from the rows before it. -/
def ramAt : ℕ → ℕ → U64 :=
  lastWrite initial (fun j => Extract.remappedRamAddress (row j)) fun j => (row j).ramWriteValue

/-- The registers before a cycle, from the rows before it. -/
def registersAt : ℕ → ℕ → U64 :=
  lastWrite (fun _ => 0) (fun j => (row j).rdIndex.map Fin.val) fun j => (row j).rdWriteValue

end

namespace Replay

variable {ramK : ℕ} {row : ℕ → WasmTraceRow} {words : ℕ → ℕ → U64} {regs : ℕ → Reg → U64} (replay : Replay ramK row words regs)

include replay

theorem words_eq (j : ℕ) {k : ℕ} (inside : k < ramK) : words j k = ramAt row (words 0) j k := by
  induction j with
  | zero => rfl
  | succ j ih =>
      rw [replay.write j k inside, ih]
      rfl

theorem regs_eq (zero : ∀ r, regs 0 r = 0) (j : ℕ) (r : Reg) : regs j r = registersAt row j r.val := by
  induction j with
  | zero => exact zero r
  | succ j ih =>
      rw [replay.regs, ih]
      have same : (row j).rdIndex = some r ↔ (row j).rdIndex.map Fin.val = some r.val :=
        ((Option.map_injective Fin.val_injective).eq_iff (a := (row j).rdIndex) (b := some r)).symm
      exact if_congr same rfl rfl

theorem remapped_lt {j k : ℕ} (place : Extract.remappedRamAddress (row j) = some k) : k < ramK := by
  obtain ⟨address, accessed, remapped⟩ := Option.bind_eq_some_iff.mp place
  obtain ⟨k', below, remapped'⟩ := replay.access j address accessed
  rw [remapped] at remapped'
  cases remapped'
  exact below

theorem idle {j : ℕ} (none_ : Extract.remappedRamAddress (row j) = none) : Extract.ramAccessAddress (row j) = none := by
  cases accessed : Extract.ramAccessAddress (row j) with
  | none => rfl
  | some address =>
      obtain ⟨k, -, remapped⟩ := replay.access j address accessed
      rw [Extract.remappedRamAddress, accessed, Option.bind_some, remapped] at none_
      cases none_

omit replay in
theorem address_eq {j k : ℕ} (place : Extract.remappedRamAddress (row j) = some k) :
    (row j).ramAddress.toNat = unmapWordAddress k ∧ Extract.ramHammingWeight (row j) = true := by
  obtain ⟨address, accessed, remapped⟩ := Option.bind_eq_some_iff.mp place
  have word := address_of_remap remapped
  refine ⟨by rw [Extract.address_of_access accessed, word], ?_⟩
  rw [Extract.ramHammingWeight, accessed, Option.any_some, decide_eq_true_iff]
  rintro rfl
  rw [unmapWordAddress_eq] at word
  change 0 = 0x90000000 + 8 * k at word
  omega

end Replay

/-! ## The columns -/

namespace Stages

section

variable (shape : ProofShape) (row : ℕ → WasmTraceRow) (initial : ℕ → U64)

/-- The hot chunks of the rows. -/
def ProofShape.hots : JoltRaPolynomial → ℕ → Option ℕ
  | .instruction i, j => (some (Extract.lookupIndex (row j))).map
      (chunkDigit (chunkCount (2 * xlen) shape.committedChunkBits) shape.committedChunkBits i)
  | .bytecode i, j => (some (row j).pc.toNat).map
      (chunkDigit (chunkCount shape.dimensions.bytecodeReadRaf.logK shape.committedChunkBits) shape.committedChunkBits i)
  | .ram i, j => (Extract.remappedRamAddress (row j)).map
      (chunkDigit (chunkCount shape.logK shape.committedChunkBits) shape.committedChunkBits i)

open TraceBackend (ofBool)

/-- The columns of the witnesses of the rows. -/
def witnessColumns {F : Type} [Field F] : TraceColumns F where
  pc j := (row j).pc.toNat
  nextPc j := Extract.nextPc (if j + 1 < 2 ^ shape.logT then some (row (j + 1)) else none)
  imm j := (row j).immSigned
  flag f j := ofBool ((row j).flags.has f)
  rs1Ra r j := if (row j).rs1Index.map Fin.val = some r then 1 else 0
  rs2Ra r j := if (row j).rs2Index.map Fin.val = some r then 1 else 0
  rdWa r j := if (row j).rdIndex.map Fin.val = some r then 1 else 0
  instructionRafFlag j := ofBool (row j).rafFlag
  lookupTableFlag t j := ofBool ((row j).table == some t)
  committed :=
    { ra := fun polynomial k j => if shape.hots row polynomial j = some k then 1 else 0
      ramHammingWeight := fun j => ofBool (Extract.ramHammingWeight (row j)) }
  ram :=
    { ramVal := fun k j => (ramAt row initial j k).toNat
      ramRa := fun k j => if Extract.remappedRamAddress (row j) = some k then 1 else 0
      ramInc := fun j => (Extract.ramInc (row j) : F)
      ramReadValue := fun j => (row j).ramReadValue.toNat
      ramWriteValue := fun j => (row j).ramWriteValue.toNat
      ramAddress := fun j => (row j).ramAddress.toNat
      ramValFinal := fun k => (ramAt row initial (2 ^ shape.logT) k).toNat }
  registersVal r j := (registersAt row j r).toNat
  rdInc j := (Extract.rdInc (row j) : F)
  rs1Value j := (row j).rs1Value.toNat
  rs2Value j := (row j).rs2Value.toNat
  rdWriteValue j := (row j).rdWriteValue.toNat
  instructionRa v x j :=
    if chunkDigit shape.dimensions.instructionReadRaf.numVirtualRaPolys
        (shape.dimensions.instructionRaVirtualization.committedPerVirtual * shape.committedChunkBits) v
        (Extract.lookupIndex (row j)) = x then 1 else 0
  lookupOutput j := (row j).lookupOutput.toNat
  leftLookupOperand j := (row j).lookupOperands.1.toNat
  rightLookupOperand j := (row j).lookupOperands.2.toNat
  leftInput j := (row j).leftInput.toNat
  rightInput j := (row j).rightInput.toNat
  product j := (Extract.product (row j) : ℕ)
  shouldBranch j := ofBool (Extract.shouldBranch (row j))

end

/-- The rows of a run over words and registers, padded to the cycles: each is a row of the code that meets the
constraints, and goes on with the pc of the next. -/
structure HonestRows (F : Type) [Field F] (source : IrProgram) (ramK cycles : ℕ) (row : ℕ → WasmTraceRow)
    (words : ℕ → ℕ → U64) (regs : ℕ → Reg → U64) : Prop where
  replay : Replay ramK row words regs
  zero : ∀ r, regs 0 r = 0
  fetched : ∀ j, (row j).Fetched source.code
  satisfied : ∀ j, Satisfies (cycleWitness (row j) : Column → F)
  chained : ∀ j, (row j).nextPc = (row (j + 1)).pc
  halted : (row cycles).pc = 0

section

variable {F : Type} [WideField F] {shape : ProofShape} {source : IrProgram} {bytecode : WasmBytecode}
  (preprocessed : WasmBytecode.preprocess source = .ok bytecode) {checked : CheckedInputs} {virtualRaPolys : ℕ}
  (sized : shape.Sized checked bytecode virtualRaPolys) {row : ℕ → WasmTraceRow} {words : ℕ → ℕ → U64}
  {regs : ℕ → Reg → U64} (honest : HonestRows F source (2 ^ shape.logK) (2 ^ shape.logT) row words regs)

/-! ## The places -/

include preprocessed sized honest in
/-- The chunks of the pc pick its row of the table. -/
theorem tablePlace_honest (j : ℕ) : TraceColumns.tablePlace shape (shape.hots row) j = some (row j).pc.toNat := by
  obtain ⟨rows, positive, -, room⟩ := WasmBytecode.length_rows preprocessed
  have width : shape.dimensions.bytecodeReadRaf.logK = bytecode.logSize := by rw [sized.bytecode]
  have some_ : 0 < shape.dimensions.bytecodeReadRaf.logK := by rwa [width]
  obtain ⟨instruction, fetch, -⟩ := honest.fetched j
  have inside : ∀ k ∈ some (row j).pc.toNat, k < 2 ^ shape.dimensions.bytecodeReadRaf.logK := by
    rintro k ⟨⟩
    rw [width, ← rows]
    exact (List.getElem?_eq_some_iff.mp fetch).1.trans_le room
  exact accessedPlace_chunks some_ sized.positive inside

include sized in
/-- The chunks of the lookup index pick its place of the tables. -/
theorem lookupPlace_honest (j : ℕ) :
    TraceColumns.lookupPlace shape (shape.hots row) j = some (Extract.lookupIndex (row j)) := by
  have inside : ∀ k ∈ some (Extract.lookupIndex (row j)), k < 2 ^ (2 * xlen) := by
    rintro k ⟨⟩
    exact BitVec.isLt _
  exact accessedPlace_chunks (show 0 < 2 * xlen by decide) sized.positive inside

include sized honest in
/-- The chunks of the address pick its word. -/
theorem wordPlace_honest (some_ : 0 < shape.logK) (j : ℕ) :
    TraceColumns.wordPlace shape (shape.hots row) j = Extract.remappedRamAddress (row j) :=
  accessedPlace_chunks some_ sized.positive fun _ here => honest.replay.remapped_lt here

include preprocessed sized honest in
/-- The row of the table at a cycle's place. -/
theorem executes_honest (j : ℕ) : ∃ pc instruction, TraceColumns.Executes source shape (shape.hots row) j pc instruction ∧
    (row j).pc = pc ∧ (row j).bytecodeRow = BytecodeRow.of instruction := by
  obtain ⟨instruction, fetch, static⟩ := honest.fetched j
  exact ⟨_, instruction, ⟨tablePlace_honest preprocessed sized honest j, fetch⟩, rfl, static⟩

/-! ## The relations -/

theorem hots_lt {polynomial : JoltRaPolynomial} {j v : ℕ} (here : shape.hots row polynomial j = some v) :
    v < 2 ^ shape.committedChunkBits := by
  cases polynomial <;>
  · rw [ProofShape.hots] at here
    obtain ⟨address, -, rfl⟩ := Option.map_eq_some_iff.mp here
    exact chunkDigit_lt _ _ _ _

include honest in
/-- The committed columns are hot at the chunks. -/
theorem hot_honest : (witnessColumns shape row (words 0) : TraceColumns F).committed.Hot shape.booleanity (shape.hots row) := by
  have weight (j : ℕ) : Extract.ramHammingWeight (row j) = (Extract.remappedRamAddress (row j)).isSome := by
    cases place : Extract.remappedRamAddress (row j) with
    | none => exact (Extract.idle (honest.replay.idle place)).2.2.2
    | some k => exact (Replay.address_eq place).2
  refine ⟨fun polynomial _ j _ => ⟨fun k here => ?_, fun k _ => rfl⟩, fun polynomial _ j _ => ?_, fun j _ => ?_⟩
  · exact hots_lt here
  · cases polynomial with
    | instruction i => exact (if_pos rfl).symm
    | bytecode i => exact (if_pos rfl).symm
    | ram i =>
        change TraceBackend.ofBool (Extract.ramHammingWeight (row j)) = _
        rw [weight, TraceBackend.ofBool, ProofShape.hots, Option.isSome_map]
  · change TraceBackend.ofBool (Extract.ramHammingWeight (row j)) = 0 ∨ TraceBackend.ofBool (Extract.ramHammingWeight (row j)) = 1
    cases Extract.ramHammingWeight (row j) with
    | false => exact .inl rfl
    | true => exact .inr rfl

include sized honest in
/-- The columns of the RAM are a run of its words. -/
theorem memory_honest (some_ : 0 < shape.logK) {first : ℕ → F} (start : ∀ k, first k = ((words 0 k).toNat : F)) :
    (witnessColumns shape row (words 0) : TraceColumns F).ram.Run shape.logK (2 ^ shape.logT) first
      (TraceColumns.wordPlace shape (shape.hots row)) := by
  obtain rfl : first = fun k => ((words 0 k).toNat : F) := funext start
  have place : TraceColumns.wordPlace shape (shape.hots row) = fun j => Extract.remappedRamAddress (row j) :=
    funext (wordPlace_honest sized honest some_)
  rw [place]
  have contents (j k : ℕ) : lastWrite (fun k => ((words 0 k).toNat : F)) (fun j => Extract.remappedRamAddress (row j))
      (fun j => ((row j).ramWriteValue.toNat : F)) j k = ((ramAt row (words 0) j k).toNat : F) :=
    lastWrite_map (fun word : U64 => (word.toNat : F)) (words 0) _ _ j k
  have read {j k : ℕ} (here : Extract.remappedRamAddress (row j) = some k) :
      (row j).ramReadValue = ramAt row (words 0) j k := by
    rw [honest.replay.read j k here, honest.replay.words_eq j (honest.replay.remapped_lt here)]
  refine ⟨fun k _ j _ => (contents j k).symm, fun j _ => ?_, fun j _ cold => ?_, fun j _ k here => ?_, fun j _ => ?_,
    fun k _ => (contents _ k).symm⟩
  · change ((row j).ramReadValue.toNat : F) = _
    cases here : Extract.remappedRamAddress (row j) with
    | none => rw [(Extract.idle (honest.replay.idle here)).2.1]; exact Nat.cast_zero
    | some k => rw [read here]; exact (contents j k).symm
  · change ((row j).ramWriteValue.toNat : F) = 0
    rw [(Extract.idle (honest.replay.idle cold)).2.2.1]
    exact Nat.cast_zero
  · change ((Extract.ramInc (row j) : ℤ) : F) = ((row j).ramWriteValue.toNat : F) - _
    rw [Extract.ramInc_eq, read here]
    push_cast
    exact congrArg _ (contents j k).symm
  · change ((row j).ramAddress.toNat : F) = _
    cases here : Extract.remappedRamAddress (row j) with
    | none => rw [(Extract.idle (honest.replay.idle here)).1]; exact Nat.cast_zero
    | some k => rw [(Replay.address_eq here).1]; exact (TraceColumns.wordAddress_eq k).symm

include preprocessed sized honest in
/-- The columns of the registers are a run of them. -/
theorem registers_honest : (witnessColumns shape row (words 0) : TraceColumns F).registers.Run (2 ^ shape.logT)
    (fun j => TraceColumns.registerPlace bytecode.rows BytecodeRow.rs1 (TraceColumns.tablePlace shape (shape.hots row) j))
    (fun j => TraceColumns.registerPlace bytecode.rows BytecodeRow.rs2 (TraceColumns.tablePlace shape (shape.hots row) j))
    fun j => TraceColumns.registerPlace bytecode.rows BytecodeRow.rd (TraceColumns.tablePlace shape (shape.hots row) j) := by
  have places (j : ℕ) :
      TraceColumns.registerPlace bytecode.rows BytecodeRow.rs1 (TraceColumns.tablePlace shape (shape.hots row) j) =
        (row j).rs1Index.map Fin.val ∧
      TraceColumns.registerPlace bytecode.rows BytecodeRow.rs2 (TraceColumns.tablePlace shape (shape.hots row) j) =
        (row j).rs2Index.map Fin.val ∧
      TraceColumns.registerPlace bytecode.rows BytecodeRow.rd (TraceColumns.tablePlace shape (shape.hots row) j) =
        (row j).rdIndex.map Fin.val := by
    obtain ⟨pc, instruction, executes, -, static⟩ := executes_honest preprocessed sized honest j
    obtain ⟨rs1, rs2, rd⟩ := WasmTraceRow.Fetched.index_eq static
    rw [rs1, rs2, rd]
    exact ⟨TraceColumns.registerPlace_eq preprocessed executes BytecodeRow.rs1 rfl,
      TraceColumns.registerPlace_eq preprocessed executes BytecodeRow.rs2 rfl,
      TraceColumns.registerPlace_eq preprocessed executes BytecodeRow.rd rfl⟩
  rw [funext fun j => (places j).1, funext fun j => (places j).2.1, funext fun j => (places j).2.2]
  have contents (j k : ℕ) : lastWrite (fun _ => (0 : F)) (fun j => (row j).rdIndex.map Fin.val)
      (fun j => ((row j).rdWriteValue.toNat : F)) j k = ((registersAt row j k).toNat : F) := by
    rw [registersAt, ← lastWrite_map fun word : U64 => (word.toNat : F)]
    exact congrArg (fun initial => lastWrite initial _ _ j k) (funext fun _ => Nat.cast_zero.symm)
  have regs_ := honest.replay.regs_eq honest.zero
  refine ⟨fun k _ j _ => (contents j k).symm, fun j _ => ?_, fun j _ => ?_, fun j _ none_ => ?_, fun j _ k here => ?_⟩
  · change ((row j).rs1Value.toNat : F) = _
    rw [honest.replay.rs1]
    cases (row j).rs1Index with
    | none => exact Nat.cast_zero
    | some r => exact (congrArg (fun word : U64 => (word.toNat : F)) (regs_ j r)).trans (contents j r).symm
  · change ((row j).rs2Value.toNat : F) = _
    rw [honest.replay.rs2]
    cases (row j).rs2Index with
    | none => exact Nat.cast_zero
    | some r => exact (congrArg (fun word : U64 => (word.toNat : F)) (regs_ j r)).trans (contents j r).symm
  · change ((row j).rdWriteValue.toNat : F) = 0
    rw [honest.replay.rdNone j (Option.map_eq_none_iff.mp none_)]
    exact Nat.cast_zero
  · change ((Extract.rdInc (row j) : ℤ) : F) = ((row j).rdWriteValue.toNat : F) - _
    obtain ⟨r, write, rfl⟩ := Option.map_eq_some_iff.mp here
    rw [Extract.rdInc, if_pos (by rw [write]; rfl), honest.replay.rdPre j r write, regs_]
    push_cast
    exact congrArg _ (contents j r).symm

include preprocessed sized honest in
/-- The columns of the fetch are those of the rows of the table. -/
theorem fetch_honest {entry : ℕ} (entered : (row 0).pc.toNat = entry) :
    (witnessColumns shape row (words 0) : TraceColumns F).toFetchColumns.Fetched shape.logT bytecode.rows entry
      (TraceColumns.tablePlace shape (shape.hots row)) := by
  have places := tablePlace_honest preprocessed sized honest
  have table (j : ℕ) : rowAt bytecode.rows (row j).pc.toNat = (row j).bytecodeRow := by
    obtain ⟨pc, instruction, executes, same, static⟩ := executes_honest preprocessed sized honest j
    rw [same, static]
    exact executes.row preprocessed
  have register {r : ℕ} (small : r < laneRegisterCount) (reg : Option Reg) : reg.map Fin.val = some r ↔ registerId reg = r := by
    cases reg with
    | some r' => exact Option.some_inj
    | none =>
        have outside : laneRegisterCount ≤ registerNone := by decide
        exact ⟨fun cold => absurd cold.symm (Option.some_ne_none r), fun same => absurd small (by rw [← same]; exact outside.not_gt)⟩
  have indices (j : ℕ) : (row j).bytecodeRow.rs1 = registerId (row j).rs1Index ∧
      (row j).bytecodeRow.rs2 = registerId (row j).rs2Index ∧ (row j).bytecodeRow.rd = registerId (row j).rdIndex := by
    obtain ⟨instruction, -, static⟩ := honest.fetched j
    obtain ⟨rs1, rs2, rd⟩ := WasmTraceRow.Fetched.index_eq static
    rw [static, rs1, rs2, rd]
    exact ⟨rfl, rfl, rfl⟩
  refine ⟨fun j _ => ?_, fun flag j _ => ?_, fun r small j _ => ?_, fun r small j _ => ?_, fun r small j _ => ?_, fun j _ => ?_,
    fun t _ j _ => ?_, fun j _ => ?_, by rw [places, entered], fun j _ => ?_⟩
  · rw [places, Option.elim_some, table]; rfl
  · rw [places, Option.elim_some, table]; rfl
  · rw [places, Option.elim_some, table, (indices j).2.2]; exact if_congr (register small _) rfl rfl
  · rw [places, Option.elim_some, table, (indices j).1]; exact if_congr (register small _) rfl rfl
  · rw [places, Option.elim_some, table, (indices j).2.1]; exact if_congr (register small _) rfl rfl
  · rw [places, Option.elim_some, table]; rfl
  · rw [places, Option.elim_some, table]
    exact if_congr beq_iff_eq rfl rfl
  · rw [places]; rfl
  · change ((Extract.nextPc _ : ℕ) : F) = _
    split_ifs with inside
    · rfl
    · exact Nat.cast_zero

/-- The output of a row is the entry of its table at its lookup index. -/
theorem output_honest (row : WasmTraceRow) {lookups : LookupColumns F} (j : ℕ)
    (flags : ∀ t, lookups.lookupTableFlag t j = TraceBackend.ofBool (row.table == some t)) :
    (row.lookupOutput.toNat : F) = lookups.tableEntry (Extract.lookupIndex row) j := by
  cases lookup : row.lookup with
  | none =>
      have output : row.lookupOutput = 0 := by rw [WasmTraceRow.lookupOutput, WasmTraceRow.tableOp, lookup]; rfl
      have cold (t : ℕ) : lookups.lookupTableFlag t j = 0 := by
        rw [flags, WasmTraceRow.table, WasmTraceRow.tableOp, lookup]
        rfl
      rw [output, LookupColumns.tableEntry]
      simp only [cold, mul_zero, List.sum_map_zero]
      exact Nat.cast_zero
  | some found =>
      obtain ⟨index, indexed⟩ : ∃ index, row.lookupIndex = some index := by
        rw [WasmTraceRow.lookupIndex, lookup]
        cases found <;> exact ⟨_, rfl⟩
      have output : row.lookupOutput = (WasmTable.of found.tableOp).materializeEntry index := by
        rw [WasmTraceRow.lookupOutput, WasmTraceRow.tableOp, lookup, indexed]
        rfl
      have place : BitVec.ofNat 128 (Extract.lookupIndex row) = index := by
        rw [Extract.lookupIndex, indexed, Option.getD_some, BitVec.ofNat_toNat, BitVec.setWidth_eq]
      rw [output, TraceColumns.tableEntry_of fun t _ => ?_, place]
      rw [flags, WasmTraceRow.table, WasmTraceRow.tableOp, lookup]
      exact if_congr (beq_iff_eq.trans Option.some_inj) rfl rfl

include sized honest in
/-- The columns of the lookups are the entries of the tables at the lookup indices. -/
theorem lookups_honest : (witnessColumns shape row (words 0) : TraceColumns F).lookups.Looked
    (witnessColumns shape row (words 0) : TraceColumns F).committed shape.dimensions.instructionReadRaf
    shape.dimensions.instructionRaVirtualization.committedPerVirtual shape.committedChunkBits
    (TraceColumns.lookupPlace shape (shape.hots row)) := by
  have count : chunkCount (2 * xlen) shape.committedChunkBits =
      virtualRaPolys * shape.dimensions.instructionRaVirtualization.committedPerVirtual := by
    have positive := sized.positive
    rw [← sized.tiles, ← Nat.mul_assoc, chunkCount, Nat.add_sub_assoc positive, Nat.mul_comm _ shape.committedChunkBits,
      Nat.mul_add_div positive, Nat.div_eq_of_lt (by omega), Nat.add_zero]
  have virtual : shape.dimensions.instructionReadRaf.numVirtualRaPolys = virtualRaPolys := by rw [sized.readRaf]
  have idle (j : ℕ) : (row j).lookup = none → (row j).leftInput = 0 ∧ (row j).rightInput = 0 := by
    obtain ⟨instruction, -, static⟩ := honest.fetched j
    exact WasmTraceRow.Fetched.inputs_zero static
  have operands (j : ℕ) := WasmTraceRow.operands_eq (idle j)
  have places : ∀ j, TraceColumns.lookupPlace shape (shape.hots row) j = some (Extract.lookupIndex (row j)) :=
    lookupPlace_honest sized
  refine ⟨fun v inside x small j _ => ?_, fun j _ => ?_, fun j _ => ?_, fun j _ => ?_⟩
  · -- The digits of a virtual chunk are committed chunks.
    rw [virtual] at inside
    have digits : chunkDigit virtualRaPolys (shape.dimensions.instructionRaVirtualization.committedPerVirtual *
        shape.committedChunkBits) v (Extract.lookupIndex (row j)) = x ↔
          ∀ c ∈ Finset.range shape.dimensions.instructionRaVirtualization.committedPerVirtual,
            shape.hots row (.instruction (v * shape.dimensions.instructionRaVirtualization.committedPerVirtual + c)) j =
              some (chunkDigit shape.dimensions.instructionRaVirtualization.committedPerVirtual shape.committedChunkBits c x) := by
      have each {c : ℕ} (below : c < shape.dimensions.instructionRaVirtualization.committedPerVirtual) :
          chunkDigit _ shape.committedChunkBits c _ = chunkDigit _ shape.committedChunkBits _ (Extract.lookupIndex (row j)) :=
        chunkDigit_chunkDigit inside below _
      rw [← count] at each
      constructor
      · rintro rfl c member
        exact congrArg some (each (Finset.mem_range.mp member)).symm
      · intro same
        refine chunkDigit_injective (chunkDigit_lt _ _ _ _) small fun c below => ?_
        exact (each below).trans (Option.some.inj (same c (Finset.mem_range.mpr below)))
    change (if chunkDigit shape.dimensions.instructionReadRaf.numVirtualRaPolys _ v _ = x then (1 : F) else 0) = _
    rw [virtual, if_congr digits rfl rfl]
    exact (Finset.prod_ite_zero.trans (if_congr Iff.rfl Finset.prod_const_one rfl)).symm
  · rw [places, Option.elim_some]
    exact output_honest (row j) j fun t => rfl
  · rw [places, Option.elim_some]
    change ((row j).lookupOperands.1.toNat : F) = (1 - TraceBackend.ofBool (row j).rafFlag) * _
    cases raf : (row j).rafFlag with
    | true =>
        rw [((operands j).1 raf).1, TraceBackend.ofBool, if_pos rfl, sub_self, zero_mul]
        exact Nat.cast_zero
    | false =>
        rw [((operands j).2 raf).1, TraceBackend.ofBool, if_neg Bool.false_ne_true, sub_zero, one_mul]
  · rw [places, Option.elim_some]
    change ((row j).lookupOperands.2.toNat : F) =
      (1 - TraceBackend.ofBool (row j).rafFlag) * _ + TraceBackend.ofBool (row j).rafFlag * _
    cases raf : (row j).rafFlag with
    | true =>
        rw [((operands j).1 raf).2, TraceBackend.ofBool, if_pos rfl, sub_self, zero_mul, zero_add, one_mul]
    | false =>
        rw [((operands j).2 raf).2, TraceBackend.ofBool, if_neg Bool.false_ne_true, sub_zero, one_mul, zero_mul, add_zero]

include honest in
/-- The witness of a cycle is that of its row. -/
theorem cycle_honest {j : ℕ} (inside : j < 2 ^ shape.logT) :
    (witnessColumns shape row (words 0) : TraceColumns F).cycle j = cycleWitness (row j) := by
  have next : Extract.nextPc (if j + 1 < 2 ^ shape.logT then some (row (j + 1)) else none) = (row j).nextPc.toNat := by
    rw [honest.chained]
    split_ifs with more
    · rfl
    · rw [show j + 1 = 2 ^ shape.logT by omega, honest.halted]
      rfl
  funext column
  cases column with
  | nextPc => exact congrArg Nat.cast next
  | _ => rfl

include preprocessed sized honest in
/-- The columns are traced when the last memory holds the claimed words. -/
theorem traced_honest (some_ : 0 < shape.logK) {first : ℕ → F} (start : ∀ k, first k = ((words 0 k).toNat : F)) {entry : ℕ}
    (entered : (row 0).pc.toNat = entry) {io : PublicIo}
    (final : ∀ k, 1 ≤ k → k < 1536 → ((ramAt row (words 0) (2 ^ shape.logT) k).toNat : F) = finalVector io k) :
    (witnessColumns shape row (words 0) : TraceColumns F).Traced shape first io bytecode.rows entry (shape.hots row) where
  hot := hot_honest honest
  accesses j _ := by
    rw [wordPlace_honest sized honest some_]
    exact ⟨fun _ here => honest.replay.remapped_lt here, fun _ _ => rfl⟩
  memory := memory_honest sized honest some_ start
  final := final
  registers := registers_honest preprocessed sized honest
  fetch := fetch_honest preprocessed sized honest entered
  lookups := lookups_honest sized honest
  constraints j inside := by
    rw [cycle_honest honest inside]
    exact honest.satisfied j

end

end Stages

end JoltWasm
