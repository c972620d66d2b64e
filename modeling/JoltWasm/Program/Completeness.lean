import JoltWasm.Backend.Run
import JoltWasm.Frontend.WellFormed
import JoltWasm.Program.CycleWitness

/-!
# Completeness of the arithmetization

The records of a run of a lowered program, and the padding row, pass every restatement of their row:
the record check, the trace-row conversion, the bytecode table and the constraints.
-/

namespace JoltWasm

open Lib

/-! ## The bytecode table -/

namespace WasmBytecode

theorem preprocessRow_ok {len pc : ℕ} {instruction : Ir} {row : BytecodeRow}
    (checked : preprocessRow len pc instruction = .ok row) : row = BytecodeRow.of instruction := by
  unfold preprocessRow at checked
  simp only at checked
  split at checked <;> split_ifs at checked <;> exact (Except.ok.inj checked).symm

theorem preprocessRows_ok {len pc : ℕ} {code : List Ir} {rows : List BytecodeRow}
    (checked : preprocessRows len pc code = .ok rows) : rows = code.map BytecodeRow.of := by
  induction code generalizing pc rows with
  | nil => exact (Except.ok.inj checked).symm
  | cons instruction code ih =>
      obtain ⟨row, first, checked⟩ := except_bind_eq_ok.mp checked
      obtain ⟨rest, tail, checked⟩ := except_bind_eq_ok.mp checked
      cases checked
      rw [preprocessRow_ok first, ih tail, List.map_cons]

/-- The table holds the row of every instruction of the program. -/
theorem row_of_fetch {program : IrProgram} {bytecode : WasmBytecode}
    (preprocessed : preprocess program = .ok bytecode) {pc : Pc} {instruction : Ir}
    (fetch : program.code[pc.toNat]? = some instruction) :
    bytecode.row pc = BytecodeRow.of instruction := by
  unfold preprocess at preprocessed
  simp only at preprocessed
  split at preprocessed
  · cases preprocessed
  · split at preprocessed
    · cases preprocessed
    · obtain ⟨rows, checked, preprocessed⟩ := except_bind_eq_ok.mp preprocessed
      obtain ⟨entries, -, preprocessed⟩ := except_bind_eq_ok.mp preprocessed
      cases preprocessed
      obtain ⟨small, found⟩ := List.getElem?_eq_some_iff.mp fetch
      rw [row, preprocessRows_ok checked, List.getD_eq_getElem?_getD,
        List.getElem?_append_left (by rwa [List.length_map]), List.getElem?_map, fetch]
      rfl

end WasmBytecode

/-! ## One record -/

/-- The values on which a row's field equations are the machine's: a right shift reads a bitmask, and
a memory address does not wrap. -/
def Ir.FieldExact (regs : Reg → U64) : Ir → Prop
  | alu op _ _ rs2 => op.readsBitmask = true → IsRightShiftBitmask (rs2.value regs)
  | load _ base offset | store base _ offset => SumFits (regs base) offset
  | _ => True

theorem readsBitmask_of_boolean {op : AluOp} (boolean : op.isBoolean = true) :
    op.readsBitmask = false := by
  cases op <;> first | rfl | cases boolean

/-- The record of a step with exact values has exact values. -/
theorem fieldExact_of_step {prover : Prover} {code : List Ir} {m next : Machine} {record : Record}
    (wellFormed : record.instruction ≠ .halt → record.instruction.isWellFormed = true)
    (exact_ : record.instruction.FieldExact m.regs)
    (step : Machine.stepWith prover code m = .ok (record, next)) :
    FieldExact record.instruction.rowSpec record := by
  obtain ⟨fetch, -, -⟩ := Machine.stepWith_ok step
  generalize same : record.instruction = instruction at fetch wellFormed exact_ ⊢
  cases instruction with
  | nop | halt | trap | jumpReg rs =>
      constructor <;> simp [Ir.rowSpec, AluOp.readsBitmask]
  | jump target => constructor <;> simp [Ir.rowSpec, AluOp.readsBitmask]
  | advice hint rd rs1 rs2 => constructor <;> simp [Ir.rowSpec]
  | alu op rd rs1 rs2 =>
      rw [Machine.stepWith_alu prover fetch] at step
      cases step
      refine ⟨fun op' table reads => ?_, ?_⟩
      · cases rs2 <;> cases table <;> simpa [Ir.rowSpec, rightOperand, RowSpec.rightInput,
          Record.rs2Value, Operand.read, Operand.value] using exact_ reads
      · cases rs2 <;> simp [Ir.rowSpec, rightOperand]
  | assert op failure rs1 rs2 =>
      have boolean := readsBitmask_of_boolean (wellFormed (by simp))
      refine ⟨fun op' table reads => ?_, ?_⟩
      · cases rs2 <;> cases table <;> rw [boolean] at reads <;> cases reads
      · cases rs2 <;> simp [Ir.rowSpec, rightOperand]
  | branch op rs1 rs2 target =>
      have boolean := readsBitmask_of_boolean (wellFormed (by simp))
      refine ⟨fun op' table reads => ?_, ?_⟩
      · cases table
        rw [boolean] at reads
        cases reads
      · simp [Ir.rowSpec]
  | load rd base offset =>
      rw [Machine.stepWith_load prover fetch] at step
      split at step
      · cases step
      · cases step
        exact ⟨by simp [Ir.rowSpec], fun _ => exact_⟩
  | store base value offset =>
      rw [Machine.stepWith_store prover fetch] at step
      split at step
      · cases step
      · cases step
        exact ⟨by simp [Ir.rowSpec], fun _ => exact_⟩

/-- The restatements of a record's row agree on it. -/
structure RecordArithmetized (F : Type*) [Field F] (program : IrProgram) (record : Record)
    (row : WasmTraceRow) : Prop where
  checked : checkRecord record = .ok ()
  converts : WasmTraceRow.fromRecord record = .ok row
  bytecode : ∀ bytecode, WasmBytecode.preprocess program = .ok bytecode →
    row.bytecodeRow = bytecode.row record.pc
  satisfies : Satisfies (cycleWitness row : Column → F)

/-- In a well-formed program a row that neither halts nor jumps has a next pc. -/
theorem pc_succ_fits {program : IrProgram} (wellFormed : program.WellFormed)
    (exported : program.exports ≠ []) {pc : Pc} {instruction : Ir}
    (fetch : program.code[pc.toNat]? = some instruction)
    (jump : instruction.rowSpec.flags.has .jump = false) : pc.toNat + 1 < 2 ^ 32 := by
  obtain ⟨small, -⟩ := List.getElem?_eq_some_iff.mp fetch
  have length := wellFormed.length
  by_contra overflow
  obtain ⟨target, last⟩ := wellFormed.endsInJump exported
  rw [List.getLast?_eq_getElem?, show program.code.length - 1 = pc.toNat by omega, fetch] at last
  cases last
  simp [Ir.rowSpec] at jump

theorem wellFormed_of_fetch {program : IrProgram} (wellFormed : program.WellFormed) {pc : ℕ}
    {instruction : Ir} (fetch : program.code[pc]? = some instruction) :
    (instruction ≠ .halt → instruction.isWellFormed = true) ∧ (instruction = .halt → pc = 0) := by
  obtain ⟨row, rows, split⟩ : ∃ row rows, program.code = row :: rows := by
    cases shape : program.code with
    | nil =>
        rw [shape] at fetch
        cases fetch
    | cons row rows => exact ⟨row, rows, rfl⟩
  have head := wellFormed.head
  have code := wellFormed.code
  rw [split] at fetch head code
  cases head
  cases pc with
  | zero =>
      cases fetch
      exact ⟨fun other => absurd rfl other, fun _ => rfl⟩
  | succ pc =>
      have row := code instruction (List.mem_of_getElem? fetch)
      refine ⟨fun _ => row, ?_⟩
      rintro rfl
      cases row

/-- The record of a step with exact values is arithmetized. -/
theorem recordArithmetized_of_step {F : Type*} [Field F] {program : IrProgram}
    (wellFormed : program.WellFormed) (exported : program.exports ≠ []) {m next : Machine}
    {record : Record} (exact_ : record.instruction.FieldExact m.regs)
    (step : Machine.step program.code m = .ok (record, next)) :
    ∃ row, RecordArithmetized F program record row := by
  obtain ⟨fetch, pc, -⟩ := Machine.stepWith_ok step
  have rowWellFormed := (wellFormed_of_fetch wellFormed fetch).1
  obtain ⟨-, output, holds⟩ := Machine.recordHolds_of_step fetch rowWellFormed step
  obtain ⟨row, converts, columns⟩ := WasmTraceRow.fromRecord_ok holds
  refine ⟨row, checkRecord_ok holds, converts, fun bytecode preprocessed => ?_, ?_⟩
  · rw [columns.static, pc, WasmBytecode.row_of_fetch preprocessed fetch, BytecodeRow.of]
  · refine (satisfies_iff _).mpr (cycleWitness_equations columns holds (Ir.rowSpec_shaped _)
      (fieldExact_of_step rowWellFormed exact_ step) fun _ jump => ?_)
    rw [pc]
    exact pc_succ_fits wellFormed exported fetch jump

/-! ## Runs -/

/-- The record of a padding row. -/
def paddingRecord : Record := ⟨0, 0, .halt, none, none, none, .noOp⟩

theorem find_ok {β : Type} {map : List (String × β)} {name : String} {b : β}
    (found : Machine.find map name = .ok b) : map.lookup name = some b := by
  unfold Machine.find at found
  split at found <;> cases found
  assumption

/-- A padding row is arithmetized. -/
theorem paddingRecord_arithmetized {F : Type*} [Field F] {program : IrProgram}
    (wellFormed : program.WellFormed) (exported : program.exports ≠ []) :
    RecordArithmetized F program paddingRecord .noOp := by
  have fetch : program.code[(0 : Pc).toNat]? = some .halt := by
    rw [← wellFormed.head, List.head?_eq_getElem?]
    rfl
  let m : Machine := ⟨fun _ => 0, 0, Memory.new program.memory [] []⟩
  have step : Machine.step program.code m = .ok (paddingRecord, m) :=
    Machine.stepWith_halt AdviceHint.compute fetch
  obtain ⟨row, arithmetized⟩ :=
    recordArithmetized_of_step (F := F) wellFormed exported (m := m)
      (show Ir.FieldExact m.regs .halt from trivial) step
  obtain rfl : row = .noOp := Except.ok.inj (arithmetized.converts.symm.trans rfl)
  exact arithmetized

/-! ## Checking a run -/

instance (y : U64) : Decidable (IsRightShiftBitmask y) :=
  inferInstanceAs (Decidable (∃ s, s < 64 ∧ y = shiftRightBitmask (BitVec.ofNat 64 s)))

instance (base offset : U64) : Decidable (SumFits base offset) :=
  inferInstanceAs (Decidable (_ ∧ _))

instance (regs : Reg → U64) (instruction : Ir) : Decidable (instruction.FieldExact regs) := by
  cases instruction <;> unfold Ir.FieldExact <;> infer_instance

namespace Machine

/-- The states visited after the first are visited from the next state. -/
theorem visits_cases {code : List Ir} {m at_ : Machine} (visited : Visits code m at_) :
    at_ = m ∨ ∃ record next, step code m = .ok (record, next) ∧ record.instruction ≠ .halt ∧
      Visits code next at_ := by
  induction visited with
  | start => exact .inl rfl
  | step visited stepped goes ih =>
      rcases ih with rfl | ⟨record, second, first, continues, visited⟩
      · exact .inr ⟨_, _, stepped, goes, .start⟩
      · exact .inr ⟨record, second, first, continues, .step visited stepped goes⟩

/-- Whether the states of a run of at most `fuel` steps all have exact values. -/
def runsExact (code : List Ir) : ℕ → Machine → Bool
  | 0, _ => false
  | fuel + 1, m =>
      match code[m.pc.toNat]? with
      | none => true
      | some instruction =>
          decide (instruction.FieldExact m.regs) &&
            match step code m with
            | .error _ => true
            | .ok (record, next) =>
                decide (record.instruction = .halt) || runsExact code fuel next

theorem fieldExact_of_runsExact {code : List Ir} {fuel : ℕ} {m at_ : Machine} {instruction : Ir}
    (checked : runsExact code fuel m = true) (visited : Visits code m at_)
    (fetch : code[at_.pc.toNat]? = some instruction) : instruction.FieldExact at_.regs := by
  induction fuel generalizing m with
  | zero => cases checked
  | succ fuel ih =>
      unfold runsExact at checked
      rcases visits_cases visited with rfl | ⟨record, next, stepped, goes, visited⟩
      · rw [fetch] at checked
        simp only [Bool.and_eq_true, decide_eq_true_eq] at checked
        exact checked.1
      · rw [(stepWith_ok stepped).1, stepped] at checked
        simp only [Bool.and_eq_true, Bool.or_eq_true, decide_eq_true_eq] at checked
        exact ih (checked.2.resolve_left goes) visited

/-- Lower the module and run an export. -/
def runModule (module : WasmModule) (name : String) (args : List U64) (limit : ℕ) :
    Option (IrProgram × Machine × Execution) := do
  let program ← (lower module).toOption
  let machine ← (Machine.new program).toOption
  let execution ← (Machine.invoke program machine name args limit).toOption
  return (program, machine, execution)

theorem runModule_eq_some {module : WasmModule} {name : String} {args : List U64} {limit : ℕ}
    {program : IrProgram} {machine : Machine} {execution : Execution}
    (found : runModule module name args limit = some (program, machine, execution)) :
    lower module = .ok program ∧ Machine.new program = .ok machine ∧
      Machine.invoke program machine name args limit = .ok execution := by
  have toOption {ε α : Type} {x : Except ε α} {a : α} (same : x.toOption = some a) : x = .ok a := by
    cases x with
    | error e => cases same
    | ok b => exact congrArg Except.ok (Option.some.inj same)
  obtain ⟨p, lowered, found⟩ := Option.bind_eq_some_iff.mp found
  obtain ⟨m, created, found⟩ := Option.bind_eq_some_iff.mp found
  obtain ⟨e, ran, found⟩ := Option.bind_eq_some_iff.mp found
  cases found
  exact ⟨toOption lowered, toOption created, toOption ran⟩

end Machine

/-- Completeness: in a run whose states all have exact values, every record is arithmetized, the
records chain, and the last one continues at the padding. -/
theorem invoke_arithmetized {F : Type*} [Field F] {module : WasmModule} {program : IrProgram}
    (lowered : lower module = .ok program) {machine entered : Machine} {name : String}
    {args : List U64} {limit : ℕ} {execution : Execution}
    (starts : Machine.enter program machine name args = .ok entered)
    (exact_ : ∀ m instruction, Machine.Visits program.code entered m →
      program.code[m.pc.toNat]? = some instruction → instruction.FieldExact m.regs)
    (ran : Machine.invoke program machine name args limit = .ok execution) :
    (∀ record ∈ execution.records, ∃ row, RecordArithmetized F program record row) ∧
      RecordArithmetized F program paddingRecord .noOp ∧
      execution.records.IsChain (fun a b => a.nextPc = b.pc) ∧
      ∀ record ∈ execution.records.getLast?, record.nextPc = paddingRecord.pc := by
  have wellFormed := lower_wellFormed lowered
  obtain ⟨entered', last, entered_, ran, -⟩ := Machine.invoke_ok ran
  obtain rfl : entered' = entered := Except.ok.inj (entered_.symm.trans starts)
  have exported : program.exports ≠ [] := by
    obtain ⟨function, found, -⟩ := except_bind_eq_ok.mp starts
    rintro empty
    have := find_ok found
    rw [empty] at this
    cases this
  refine ⟨fun record member => ?_, paddingRecord_arithmetized wellFormed exported,
    (Machine.run_chain ran).2, fun record isLast => ?_⟩
  · obtain ⟨m, next, visited, step⟩ := Machine.run_visits ran record member
    exact recordArithmetized_of_step wellFormed exported
      (exact_ m _ visited (Machine.stepWith_ok step).1) step
  · obtain ⟨final, found, halts⟩ := Machine.run_last ran
    obtain rfl : final = record := Option.some.inj (found.symm.trans isLast)
    obtain ⟨m, next, -, step⟩ := Machine.run_visits ran final (List.mem_of_getLast? found)
    obtain ⟨fetch, pc, nextPc⟩ := Machine.stepWith_ok step
    have zero := (wellFormed_of_fetch wellFormed fetch).2 halts
    rw [halts] at fetch
    rw [Machine.step, Machine.stepWith_halt _ fetch] at step
    cases step
    exact BitVec.eq_of_toNat_eq zero

/-- A module with one exported function, which returns seven. -/
def sevenModule : WasmModule where
  types := [⟨[], [.i32]⟩]
  functions := [⟨0, [], [⟨.const_ .i32 7, 0⟩, ⟨.end_, 1⟩], 1⟩]
  memory := none
  memoryOutputs := []
  exports := [("f", 0)]

theorem sevenModule_runs : (Machine.runModule sevenModule "f" [] 60).any (fun (program, machine, _) =>
    match Machine.enter program machine "f" [] with
    | .ok entered => Machine.runsExact program.code 60 entered
    | .error _ => false) = true := by
  decide +kernel

theorem invoke_arithmetized_seven :
    ∃ program machine execution, lower sevenModule = .ok program ∧
      Machine.invoke program machine "f" [] 60 = .ok execution ∧
      (∀ record ∈ execution.records, ∃ row, RecordArithmetized Fr program record row) ∧
      RecordArithmetized Fr program paddingRecord .noOp ∧
      execution.records.IsChain (fun a b => a.nextPc = b.pc) ∧
      ∀ record ∈ execution.records.getLast?, record.nextPc = paddingRecord.pc := by
  obtain ⟨⟨program, machine, execution⟩, found, checked⟩ := (Option.any_eq_true _ _).mp sevenModule_runs
  obtain ⟨lowered, -, ran⟩ := Machine.runModule_eq_some found
  refine ⟨program, machine, execution, lowered, ran, ?_⟩
  cases starts : Machine.enter program machine "f" [] with
  | error e => simp [starts] at checked
  | ok entered =>
      simp only [starts] at checked
      exact invoke_arithmetized lowered starts
        (fun at_ instruction visited fetch => Machine.fieldExact_of_runsExact checked visited fetch)
        ran

/-- A function whose store, at an address that is no 32-bit value, overwrites its return address. -/
def corruptModule : WasmModule where
  types := [⟨[.i32, .i32], [.i32]⟩]
  functions := [⟨0, [], [⟨.localGet 0, 0⟩, ⟨.localGet 1, 1⟩, ⟨.store .i32 .b4 0, 2⟩,
    ⟨.const_ .i32 23, 0⟩, ⟨.const_ .i32 5, 1⟩, ⟨.binary .w32 .remU, 2⟩, ⟨.end_, 1⟩], 2⟩]
  memory := some ⟨1, some 1⟩
  memoryOutputs := [("f", 1)]
  exports := [("f", 0)]

/-- The row the run returns to: a shift by three, which is no right-shift bitmask. -/
def shiftedRecord : Record :=
  ⟨82, 83, .alu .srl 6 6 (.reg 7), some ⟨6, 4⟩, some ⟨7, 3⟩, some ⟨6, 4, 4⟩, .noOp⟩

theorem corruptModule_runs :
    (Machine.runModule corruptModule "f" [9223372036854183948, 82] 60).any
      (fun (_, _, execution) => decide (shiftedRecord ∈ execution.records)) = true := by
  decide +kernel

/-- No trace row of the shift satisfies the constraints. -/
theorem shiftedRecord_not_arithmetized {program : IrProgram} :
    ¬ ∃ row, RecordArithmetized Fr program shiftedRecord row := by
  rintro ⟨row, -, converts, -, satisfies⟩
  have same : WasmTraceRow.fromRecord shiftedRecord = .ok (.fromParts shiftedRecord.instruction.rowSpec 82 83 ⟨4, 3, 4, 4⟩) := by decide
  obtain rfl := Except.ok.inj (converts.symm.trans same)
  have equal := ((satisfies_iff _).mp satisfies).rdWrite
  have entry : (WasmTraceRow.fromParts shiftedRecord.instruction.rowSpec 82 83
      ⟨4, 3, 4, 4⟩).lookupOutput = 0 := by decide +kernel
  change 1 * ((4 : ℕ) - ((WasmTraceRow.fromParts shiftedRecord.instruction.rowSpec 82 83
      ⟨4, 3, 4, 4⟩).lookupOutput.toNat : Fr)) = 0 at equal
  rw [entry, one_mul, sub_eq_zero] at equal
  have := natCast_inj_of_lt (F := Fr) (m := 4) (n := 0) (by norm_num) (by norm_num) equal
  omega

/-- A run of a lowered program has a record whose witness the constraints reject. -/
theorem invoke_not_arithmetized : ∃ program machine execution,
    lower corruptModule = .ok program ∧ Machine.new program = .ok machine ∧
      Machine.invoke program machine "f" [9223372036854183948, 82] 60 = .ok execution ∧
      ∃ record ∈ execution.records, ¬ ∃ row, RecordArithmetized Fr program record row := by
  obtain ⟨⟨program, machine, execution⟩, found, member⟩ :=
    (Option.any_eq_true _ _).mp corruptModule_runs
  obtain ⟨lowered, created, ran⟩ := Machine.runModule_eq_some found
  exact ⟨program, machine, execution, lowered, created, ran, shiftedRecord,
    of_decide_eq_true member, shiftedRecord_not_arithmetized⟩

end JoltWasm
