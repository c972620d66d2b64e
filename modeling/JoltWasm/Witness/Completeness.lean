import JoltWasm.Witness.Columns

/-!
# Honest proofs are accepted

The rows of a returning run are honest: padded to the cycle domain they replay the machine, and each of them meets the
constraints.  Hence all relations hold of the columns that the backend derives from them exactly when the last memory
holds the claimed words.
-/

namespace JoltWasm

open Lib Layout

/-- The rows of records are theirs one by one, and the padding past them is that of the padding. -/
theorem buildTraceRows_getD {records : List Record} {rows : List WasmTraceRow} (built : buildTraceRows records = .ok rows) :
    rows.length = records.length ∧
      ∀ j, WasmTraceRow.fromRecord (records.getD j paddingRecord) = .ok (rows.getD j .noOp) := by
  induction records generalizing rows with
  | nil =>
      cases built
      refine ⟨rfl, fun j => ?_⟩
      rw [List.getD_nil, List.getD_nil]
      rfl
  | cons record records ih =>
      obtain ⟨row, made, built⟩ := except_bind_eq_ok.mp built
      obtain ⟨rest, tail, same⟩ := except_bind_eq_ok.mp built
      cases same
      obtain ⟨length, each⟩ := ih tail
      refine ⟨by rw [List.length_cons, List.length_cons, length], fun j => ?_⟩
      cases j with
      | zero => exact made
      | succ j => exact each j

/-- The verifier takes the trace length over, a power of two. -/
theorem validateInputsFromParts_length {program : ProgramPreprocessing} {io : PublicIo} {traceLength ramK : ℕ}
    {checked : CheckedInputs} (validated : validateInputsFromParts program io traceLength ramK = .ok checked) :
    checked.traceLength = traceLength ∧ 2 ^ traceLength.log2 = traceLength := by
  unfold validateInputsFromParts at validated
  split at validated
  · obtain ⟨-, validated⟩ := except_check_eq_ok.mp validated
    obtain ⟨-, validated⟩ := except_check_eq_ok.mp validated
    obtain ⟨power, validated⟩ := except_check_eq_ok.mp validated
    obtain ⟨min, -, validated⟩ := except_bind_eq_ok.mp validated
    obtain ⟨max, -, validated⟩ := except_bind_eq_ok.mp validated
    obtain ⟨-, validated⟩ := except_check_eq_ok.mp validated
    simp only [Bool.or_eq_true, Bool.not_eq_true', decide_eq_true_eq, not_or, Bool.not_eq_false] at power
    refine ⟨?_, isPowerOfTwo_iff.mp power.1⟩
    split at validated
    · cases validated
      rfl
    · split at validated
      · cases validated
      · cases validated
        rfl
  · cases validated

theorem Stages.ProofShape.From.cycles {shape : ProofShape} {oneHot : FiatShamir.JoltOneHotConfig}
    {readWrite : JoltReadWriteConfig} {checked : CheckedInputs} {bytecode : WasmBytecode}
    (from_ : shape.From oneHot readWrite checked bytecode) {program : ProgramPreprocessing} {io : PublicIo} {traceLength ramK : ℕ}
    (validated : validateInputsFromParts program io traceLength ramK = .ok checked) : shape.logT = traceLength.log2 := by
  rw [← (validateInputsFromParts_length validated).1]
  exact congrArg TraceDimensions.logT (JoltFormulaDimensions.tryFrom_tiled from_.dimensions).trace

namespace Machine

/-- The machine at the entry of an export: no register is written, and the inputs are in its memory. -/
theorem enter_ok {program : IrProgram} {m entered : Machine} {name : String} {args : List U64}
    (starts : enter program m name args = .ok entered) :
    (∀ r, entered.regs r = 0) ∧ program.entries.lookup name = some entered.pc ∧
      writeInputs 0 args m.memory = .ok entered.memory := by
  obtain ⟨function, -, starts⟩ := except_bind_eq_ok.mp starts
  obtain ⟨entry, found, starts⟩ := except_bind_eq_ok.mp starts
  cases known : program.functions[function]? with
  | none =>
      rw [known] at starts
      cases starts
  | some f =>
      rw [known] at starts
      obtain ⟨words, -, starts⟩ := except_bind_eq_ok.mp starts
      obtain ⟨-, starts⟩ := except_check_eq_ok.mp starts
      obtain ⟨memory, wrote, starts⟩ := except_bind_eq_ok.mp starts
      cases starts
      cases inputs : writeInputs 0 args m.memory with
      | error trap =>
          rw [inputs] at wrote
          cases wrote
      | ok written =>
          rw [inputs] at wrote
          cases wrote
          exact ⟨fun _ => rfl, find_ok found, rfl⟩

theorem finish_memory {program : IrProgram} {name : String} {records : List Record} {m : Machine} {execution : Execution}
    (finished : finish program name records m = .ok execution) : execution.memory = m.memory := by
  obtain ⟨words, -, rest⟩ := except_bind_eq_ok.mp finished
  obtain ⟨results, -, rest⟩ := except_bind_eq_ok.mp rest
  obtain ⟨terminated, -, rest⟩ := except_bind_eq_ok.mp rest
  cases rest
  rfl

/-- Whether a run from a state lowers the size word at a store. -/
def Shrinking (code : List Ir) (entered : Machine) : Prop :=
  ∃ m record next, Visits code entered m ∧ step code m = .ok (record, next) ∧
    ∃ address preValue postValue, record.ram = .write address preValue postValue ∧ m.memory.Shrinks address postValue

/-- Whether a run of at most `fuel` steps lowers no size word. -/
def runsGrow (code : List Ir) : ℕ → Machine → Bool
  | 0, _ => false
  | fuel + 1, m =>
      match step code m with
      | .error _ => true
      | .ok (record, next) =>
          (match record.ram with
            | .write address _ value => !decide (m.memory.Shrinks address value)
            | _ => true) &&
          (decide (record.instruction = .halt) || runsGrow code fuel next)

theorem not_shrinking_of_runsGrow {code : List Ir} {fuel : ℕ} {m : Machine} (checked : runsGrow code fuel m = true) :
    ¬ Shrinking code m := by
  rintro ⟨at_, record, next, visited, stepped, address, preValue, value, write, shrinks⟩
  induction fuel generalizing m with
  | zero => cases checked
  | succ fuel ih =>
      unfold runsGrow at checked
      rcases visits_cases visited with rfl | ⟨first, second, stepped', goes, visited⟩
      · rw [stepped] at checked
        simp only [write, Bool.and_eq_true, Bool.not_eq_true', decide_eq_false_iff_not] at checked
        exact checked.1 shrinks
      · rw [stepped'] at checked
        simp only [Bool.and_eq_true, Bool.or_eq_true, decide_eq_true_eq] at checked
        exact ih (checked.2.resolve_left goes) visited

end Machine

/-- The columns of the witnesses of a backend, from the public initial words. -/
def TraceBackend.columns (backend : TraceBackend) (shape : Stages.ProofShape) {F : Type} [Field F] : Stages.TraceColumns F :=
  Stages.witnessColumns shape backend.rowAt fun k =>
    wordOf (backend.preprocessing.initialMemory backend.io.inputs) (unmapWordAddress k)

namespace Stages

section

variable {F : Type} [WideField F] {source : IrProgram} (wellFormed : source.WellFormed) {limit : ℕ} {entered last : Machine}
  {records : List Record} (ran : Machine.run source.code limit limit entered = .ok (records, last))
  (exact_ : ∀ m instruction, Machine.Visits source.code entered m → source.code[m.pc.toNat]? = some instruction →
    instruction.FieldExact m.regs)
  (grows : ¬ Machine.Shrinking source.code entered) (settled : entered.memory.Settled)
  (zero : ∀ r, entered.regs r = 0) (exported : source.exports ≠ []) {rows : List WasmTraceRow}
  (built : buildTraceRows records = .ok rows) {ramK : ℕ} (domain : ramK ≤ 2 ^ 40)
  (below : ∀ record ∈ records, record.RamBelow ramK) {cycles : ℕ} (short : ∀ j, cycles ≤ j → rows.getD j .noOp = .noOp)

include wellFormed ran exact_ grows settled zero exported built domain below short in
/-- The padded rows of a run that halts are honest. -/
theorem honestRows_of_run : ∃ words regs, HonestRows F source ramK cycles (fun j => rows.getD j .noOp) words regs ∧
    (rows.getD 0 .noOp).pc = entered.pc ∧ (∀ k, words 0 k = entered.memory.wordOf (unmapWordAddress k)) ∧
    ∀ k, words cycles k = last.memory.wordOf (unmapWordAddress k) := by
  have single : ∀ pc : ℕ, source.code[pc]? = some .halt → pc = 0 := fun _ fetch => (wellFormed_of_fetch wellFormed fetch).2 rfl
  obtain ⟨states, steps, start, after, visits, halted⟩ := Machine.run_endless single ran
  have made (j : ℕ) := (buildTraceRows_getD built).2 j
  have length := (buildTraceRows_getD built).1
  have past {j : ℕ} (outside : records.length ≤ j) : records.getD j paddingRecord = paddingRecord :=
    List.getD_eq_default _ _ outside
  have growing : ∀ j address preValue postValue, (records.getD j paddingRecord).ram = .write address preValue postValue →
      ¬ (states j).memory.Shrinks address postValue := by
    intro j address preValue postValue write shrinks
    rcases Nat.lt_or_ge j records.length with inside | outside
    · exact grows ⟨_, _, _, visits j inside, steps j, address, preValue, postValue, write, shrinks⟩
    · rw [past outside] at write
      cases write
  have within : ∀ j, (records.getD j paddingRecord).RamBelow ramK := by
    intro j
    rcases Nat.lt_or_ge j records.length with inside | outside
    · rw [List.getD_eq_getElem _ _ inside]
      exact below _ (List.getElem_mem inside)
    · rw [past outside]
      rintro address ⟨⟩
  have settled_ : (states 0).memory.Settled := by rwa [start]
  have replay := steps.replay made settled_ growing domain within
  have step (j : ℕ) := Machine.stepWith_ok (steps j)
  have converted (j : ℕ) := converted_of_fromRecord (made j)
  have pc (j : ℕ) : (rows.getD j .noOp).pc = (states j).pc := (converted j).pc.trans (step j).2.1
  have arithmetized (j : ℕ) : RecordArithmetized F source (records.getD j paddingRecord) (rows.getD j .noOp) := by
    rcases Nat.lt_or_ge j records.length with inside | outside
    · obtain ⟨row, found⟩ := recordArithmetized_of_step (F := F) wellFormed exported
        (exact_ _ _ (visits j inside) (step j).1) (steps j)
      obtain rfl := Except.ok.inj (found.converts.symm.trans (made j))
      exact found
    · rw [past outside, List.getD_eq_default _ _ (length.trans_le outside)]
      exact paddingRecord_arithmetized wellFormed exported
  -- Past the cycles the machine stays at the halt row.
  have stays (i : ℕ) : states (cycles + i) = states cycles := by
    induction i with
    | zero => rfl
    | succ i ih =>
        have zero_ : (states (cycles + i)).pc = 0 := by
          rw [← pc, short _ (Nat.le_add_right cycles i)]
          rfl
        have fetch : source.code[(states (cycles + i)).pc.toNat]? = some .halt := by
          rw [zero_, ← wellFormed.head, List.head?_eq_getElem?]
          rfl
        have halts := steps (cycles + i)
        rw [Machine.step, Machine.stepWith_halt _ fetch] at halts
        exact (Prod.mk.inj (Except.ok.inj halts)).2.symm.trans ih
  have ends : states cycles = last := (stays records.length).symm.trans (after _ (Nat.le_add_left _ _))
  refine ⟨_, _, ⟨replay, fun r => ?_, fun j => ⟨_, ?_, (converted j).static⟩, fun j => (arithmetized j).satisfies, fun j => ?_, ?_⟩,
    ?_, fun k => ?_, fun k => ?_⟩
  · rw [start, zero]
  · rw [pc]
    exact (step j).1
  · exact ((converted j).nextPc.trans (step j).2.2).trans (pc (j + 1)).symm
  · rw [pc, ends, halted]
  · rw [pc, start]
  · rw [start]
  · rw [ends]

end

section

variable {F : Type} [WideField F] {source : IrProgram} (wellFormed : source.WellFormed) {machine entered : Machine}
  (created : Machine.new source = .ok machine) {maxTraceLength : ℕ} {preprocessing : WasmProgramPreprocessing}
  (preprocessed : WasmProgramPreprocessing.new source maxTraceLength = .ok preprocessing) {io : PublicIo} {limit : ℕ}
  {execution : Execution} (starts : Machine.enter source machine io.entry io.inputs = .ok entered)
  (invoked : Machine.invoke source machine io.entry io.inputs limit = .ok execution) {rows : List WasmTraceRow}
  (built : buildTraceRows execution.records = .ok rows) {config : JoltVmWitnessConfig} {backend : TraceBackend}
  (made : TraceBackend.tryNew config ⟨preprocessing, rows, io⟩ = .ok backend) {checked : CheckedInputs}
  (validated : validateInputsFromParts (.full preprocessing) io (2 ^ config.logT) config.ramK = .ok checked)
  {readWrite : JoltReadWriteConfig} {shape : ProofShape}
  (from_ : shape.From config.oneHot readWrite checked preprocessing.bytecode) {initial : InitialEvaluations F}
  (opened : initial.OfFull checked preprocessing)

include wellFormed created preprocessed starts invoked built made validated from_ opened in
/-- The columns that the backend derives from a returning run are accepted exactly when the last memory holds the
claimed words: the run visits only exact values, lowers no size word, and accesses words of the domain. -/
theorem accepted_iff_final (fit : source.GlobalsFit)
    (exact_ : ∀ m instruction, Machine.Visits source.code entered m → source.code[m.pc.toNat]? = some instruction →
      instruction.FieldExact m.regs)
    (grows : ¬ Machine.Shrinking source.code entered) (below : ∀ record ∈ execution.records, record.RamBelow config.ramK) :
    (backend.columns shape : TraceColumns F).Accepted shape initial checked preprocessing.bytecode.rows ↔
      FinalMemoryHolds io execution.memory.wordOf := by
  have bytecode := preprocess_bytecode preprocessed
  obtain ⟨valid, domain⟩ := validateInputsFromParts_checked validated
  obtain ⟨found, max, isMax, within⟩ := validateInputsFromParts_full validated
  obtain ⟨known, inside⟩ := WasmBytecode.entry_ok bytecode found
  obtain ⟨tableRows, -, -, room⟩ := WasmBytecode.length_rows bytecode
  obtain ⟨virtualRaPolys, sized⟩ := from_.sized tableRows valid.power
  obtain ⟨config_, preprocessing_, io_, -, fits, rowAt_⟩ := TraceBackend.tryNew_ok made
  obtain ⟨entered', last, starts', ran, finished⟩ := Machine.invoke_ok invoked
  obtain rfl : entered = entered' := Except.ok.inj (starts.symm.trans starts')
  have words_ : 2 ^ shape.logK = config.ramK := by rw [sized.domain, valid.power, domain]
  have cycles : shape.logT = config.logT := (from_.cycles validated).trans Nat.log2_two_pow
  have narrow : 2 ^ shape.logK ≤ 2 ^ 40 := by
    rw [(preprocessed_memory preprocessed).2, maxRamK_eq wellFormed] at isMax
    obtain rfl := Except.ok.inj isMax
    rw [words_, ← domain]
    exact within.trans (ramDomain_le wellFormed)
  obtain ⟨zero, pc, memory_⟩ := Machine.enter_ok starts
  obtain ⟨settled, first⟩ := initialVector_memory (F := F) wellFormed created preprocessed memory_ fit valid.inputs
  have short : ∀ j, 2 ^ shape.logT ≤ j → rows.getD j .noOp = .noOp := by
    intro j past
    rw [← rowAt_]
    exact List.getD_eq_default _ _ (fits.trans (by rwa [cycles] at past))
  obtain ⟨words, regs, honest, entry, start, end_⟩ := honestRows_of_run (F := F) wellFormed ran exact_ grows settled zero
    (WasmBytecode.exports_ne_nil bytecode found) built narrow (by rwa [words_]) short
  have rowAt_eq : backend.rowAt = fun j => rows.getD j .noOp := funext rowAt_
  rw [← rowAt_eq] at honest
  have bounded (v : U64) : v.toNat < 2 ^ 253 := v.isLt.trans (by decide)
  have initial_ : backend.columns shape = (witnessColumns shape backend.rowAt (words 0) : TraceColumns F) := by
    rw [TraceBackend.columns, preprocessing_, io_]
    refine congrArg (fun words => witnessColumns shape backend.rowAt words) (funext fun k => BitVec.eq_of_toNat_eq ?_)
    rw [start]
    exact natCast_inj_of_lt (F := F) (bounded _) (bounded _) (first k)
  have window : 1536 ≤ 2 ^ shape.logK := by
    rw [sized.domain, valid.power]
    exact valid.window
  have some_ : 0 < shape.logK := by
    by_contra none_
    rw [Nat.eq_zero_of_not_pos none_] at window
    exact absurd window (by decide)
  have contents {k : ℕ} (upper : k < 1536) : ramAt backend.rowAt (words 0) (2 ^ shape.logT) k =
      execution.memory.wordOf (unmapWordAddress k) := by
    rw [← honest.replay.words_eq _ (upper.trans_le window), end_, Machine.finish_memory finished]
  have entry_ : checked.entryPc = (backend.rowAt 0).pc := by
    rw [pc] at known
    rw [rowAt_, entry]
    exact (Option.some.inj known).symm
  rw [accepted_iff_traced preprocessed valid sized opened (inside.trans_le room), finalMemoryHolds_iff valid.inputs, initial_]
  constructor
  · rintro ⟨hots, traced⟩ k lower upper
    rw [← contents upper]
    exact BitVec.eq_of_toNat_eq (natCast_inj_of_lt (F := F) (bounded _) (bounded _) (traced.final k lower upper))
  · intro holds
    refine ⟨_, traced_honest bytecode sized honest some_ (fun k => ?_) (congrArg BitVec.toNat entry_.symm) fun k lower upper => ?_⟩
    · rw [first, start]
    · rw [contents upper, holds k lower upper]
      rfl

end

end Stages

/-! ## Prepared runs -/

theorem mapError_eq_ok {ε ε' α : Type} {f : ε → ε'} {x : Except ε α} {a : α} : x.mapError f = .ok a ↔ x = .ok a := by
  cases x with
  | error e => constructor <;> (intro same; cases same)
  | ok b => constructor <;> (intro same; cases same; rfl)

/-- A derived configuration fits the longest trace, and the smallest domain the largest. -/
theorem ProverConfig.derive_inv {rows : List WasmTraceRow} {imageEnd maxTraceLength : ℕ} {memory : MemoryLimits}
    {config : ProverConfig} (derived : derive rows imageEnd memory maxTraceLength = .ok config) :
    paddedLength rows ≤ maxTraceLength ∧ ∃ min max, minRamK imageEnd = .ok min ∧ maxRamK memory = .ok max ∧ min ≤ max := by
  unfold derive at derived
  obtain ⟨short, derived⟩ := except_check_eq_ok.mp derived
  obtain ⟨min, isMin, derived⟩ := except_bind_eq_ok.mp derived
  obtain ⟨max, isMax, derived⟩ := except_bind_eq_ok.mp derived
  obtain ⟨within, -⟩ := except_check_eq_ok.mp derived
  exact ⟨Nat.not_lt.mp short, min, max, mapError_eq_ok.mp isMin, mapError_eq_ok.mp isMax,
    (Nat.le_max_right _ _).trans (Nat.not_lt.mp within)⟩

/-- The errors of a run's preparation. -/
inductive PreparedRunError where
  | execution (error : ExecutionError)
  | rows (error : TraceRowError)
  | config (error : ProverError)

/-- An executed run, ready to prove. -/
structure PreparedRun where
  rows : List WasmTraceRow
  io : PublicIo
  config : ProverConfig

namespace PreparedRun

/-- Execute an export and derive the proof shape. -/
def execute (program : IrProgram) (preprocessing : WasmProgramPreprocessing) (entry : String) (args : List U64) :
    Except PreparedRunError PreparedRun := do
  let machine ← (Machine.new program).mapError .execution
  let execution ← (Machine.invoke program machine entry args).mapError .execution
  let rows ← (buildTraceRows execution.records).mapError .rows
  let config ← (ProverConfig.derive rows (ProgramPreprocessing.full preprocessing).programImageEndIndex preprocessing.memory
    preprocessing.maxTraceLength).mapError .config
  return ⟨rows, ⟨entry, args, execution.results⟩, config⟩

/-- The witness backend of a run. -/
def witness (run : PreparedRun) (preprocessing : WasmProgramPreprocessing) : Except WitnessError TraceBackend :=
  TraceBackend.tryNew ⟨run.config.traceLength.log2, run.config.ramK, run.config.oneHotConfig⟩ ⟨preprocessing, run.rows, run.io⟩

/-- The rows of a prepared run are those of its records, which access words of the derived domain. -/
theorem execute_ok {program : IrProgram} (wellFormed : program.WellFormed) {machine : Machine}
    (created : Machine.new program = .ok machine) {maxTraceLength : ℕ} {preprocessing : WasmProgramPreprocessing}
    (preprocessed : WasmProgramPreprocessing.new program maxTraceLength = .ok preprocessing) {entry : String} {args : List U64}
    {execution : Execution} (invoked : Machine.invoke program machine entry args = .ok execution) {run : PreparedRun}
    (prepared : execute program preprocessing entry args = .ok run) :
    buildTraceRows execution.records = .ok run.rows ∧ run.io = ⟨entry, args, execution.results⟩ ∧
      ∀ record ∈ execution.records, record.RamBelow run.config.ramK := by
  obtain ⟨machine', created', prepared⟩ := except_bind_eq_ok.mp prepared
  obtain rfl : machine = machine' := Except.ok.inj (created.symm.trans (mapError_eq_ok.mp created'))
  obtain ⟨execution', invoked', prepared⟩ := except_bind_eq_ok.mp prepared
  obtain rfl : execution = execution' := Except.ok.inj (invoked.symm.trans (mapError_eq_ok.mp invoked'))
  obtain ⟨rows, built, prepared⟩ := except_bind_eq_ok.mp prepared
  obtain ⟨config, derived, prepared⟩ := except_bind_eq_ok.mp prepared
  cases prepared
  have built := mapError_eq_ok.mp built
  have derived := mapError_eq_ok.mp derived
  obtain ⟨short, min, max, isMin, isMax, interval⟩ := ProverConfig.derive_inv derived
  have ceiling : max = program.ramDomain := by
    rw [(preprocessed_memory preprocessed).2, maxRamK_eq wellFormed] at isMax
    exact (Except.ok.inj isMax).symm
  obtain ⟨config', derived', -, -, -, below⟩ := (ramDomainBounds wellFormed created preprocessed isMin
    (ceiling ▸ interval)).honest entry args _ execution rows invoked built short
  obtain rfl : config = config' := Except.ok.inj (derived.symm.trans derived')
  exact ⟨built, rfl, below⟩

end PreparedRun

namespace Stages

section

variable {F : Type} [WideField F] {module : WasmModule} {source : IrProgram} (lowered : lower module = .ok source)
  {maxTraceLength : ℕ} {preprocessing : WasmProgramPreprocessing}
  (preprocessed : WasmProgramPreprocessing.new source maxTraceLength = .ok preprocessing) {machine entered : Machine}
  (created : Machine.new source = .ok machine) {name : String} {args : List U64}
  (starts : Machine.enter source machine name args = .ok entered) {execution : Execution}
  (invoked : Machine.invoke source machine name args = .ok execution) {run : PreparedRun}
  (prepared : PreparedRun.execute source preprocessing name args = .ok run) {backend : TraceBackend}
  (made : run.witness preprocessing = .ok backend) {checked : CheckedInputs}
  (validated : validateInputsFromParts (.full preprocessing) run.io run.config.traceLength run.config.ramK = .ok checked)
  {shape : ProofShape} (from_ : shape.From run.config.oneHotConfig run.config.rwConfig checked preprocessing.bytecode)
  {initial : InitialEvaluations F} (opened : initial.OfFull checked preprocessing)

end

/-! ## The run of seven -/

/-- The words of a region of the window. -/
theorem wordOf_window {m : Memory} (region : Region) (start : ℕ) (base : region.base = unmapWordAddress start)
    (size : region.size = 4096) (low : start ≤ 1024) {k : ℕ} (small : k < 512) :
    m.wordOf (unmapWordAddress (start + k)) = m.words region k := by
  rw [unmapWordAddress_eq] at base ⊢
  have above : region.base ≤ 0x90000000 + 8 * (start + k) := by omega
  have below : 0x90000000 + 8 * (start + k) < region.base + region.size := by omega
  rw [m.wordOf_region (by omega) (by omega) above below]
  congr 1
  omega

/-- What the checks of a proof compute for a run of an export without arguments. -/
def preparedChecks (program : IrProgram) (machine : Machine) (execution : Execution) (name : String) (maxTraceLength : ℕ) : Bool :=
  (Machine.enter program machine name []).toOption.any fun entered =>
    (WasmProgramPreprocessing.new program maxTraceLength).toOption.any fun preprocessing =>
      (PreparedRun.execute program preprocessing name []).toOption.any fun run =>
        (run.witness preprocessing).toOption.any fun _ =>
          (validateInputsFromParts (.full preprocessing) run.io run.config.traceLength run.config.ramK).toOption.any fun checked =>
            (JoltFormulaDimensions.tryFrom (.of run.config.oneHotConfig checked.traceLength.log2 (2 * xlen)
              preprocessing.bytecode.rows.length checked.ramK)).toOption.any fun _ =>
                decide (run.config.rwConfig.registersRwPhase1NumRounds.toNat ≤ checked.traceLength.log2) &&
                decide (run.config.rwConfig.registersRwPhase2NumRounds.toNat ≤ registerAddressBits) &&
                decide (run.config.rwConfig.ramRwPhase1NumRounds.toNat ≤ checked.traceLength.log2) &&
                decide (run.config.rwConfig.ramRwPhase2NumRounds.toNat ≤ checked.ramK.log2) &&
                Machine.runsExact program.code 60 entered && Machine.runsGrow program.code 60 entered &&
                program.globals.isEmpty &&
                (List.range 512).all fun k =>
                  (k == 0 || execution.memory.words .system k == if k = 1 then 1 else 0) &&
                  execution.memory.words .inputs k == 0 && execution.memory.words .outputs k == execution.results.getD k 0

theorem sevenModule_checks : (Machine.runModule sevenModule "f" [] defaultStepLimit).any (fun run =>
    preparedChecks run.1 run.2.1 run.2.2 "f" 1024) = true := by
  decide +kernel

/-- A prepared run without arguments, with all that its proof takes in. -/
structure PreparedProof (F : Type) [Field F] (module : WasmModule) (maxTraceLength : ℕ) (name : String) where
  source : IrProgram
  preprocessing : WasmProgramPreprocessing
  machine : Machine
  entered : Machine
  execution : Execution
  run : PreparedRun
  backend : TraceBackend
  checked : CheckedInputs
  shape : ProofShape
  initial : InitialEvaluations F
  lowered : lower module = .ok source
  preprocessed : WasmProgramPreprocessing.new source maxTraceLength = .ok preprocessing
  created : Machine.new source = .ok machine
  starts : Machine.enter source machine name [] = .ok entered
  invoked : Machine.invoke source machine name [] = .ok execution
  prepared : PreparedRun.execute source preprocessing name [] = .ok run
  made : run.witness preprocessing = .ok backend
  validated : validateInputsFromParts (.full preprocessing) run.io run.config.traceLength run.config.ramK = .ok checked
  from_ : shape.From run.config.oneHotConfig run.config.rwConfig checked preprocessing.bytecode
  opened : initial.OfFull checked preprocessing
  fit : source.GlobalsFit
  exact_ : ∀ m instruction, Machine.Visits source.code entered m → source.code[m.pc.toNat]? = some instruction →
    instruction.FieldExact m.regs
  grows : ¬ Machine.Shrinking source.code entered
  final : FinalMemoryHolds run.io execution.memory.wordOf

theorem eq_ok_of_toOption {ε α : Type} {x : Except ε α} {a : α} (same : x.toOption = some a) : x = .ok a := by
  cases x with
  | error e => cases same
  | ok b => exact congrArg Except.ok (Option.some.inj same)

namespace PreparedProof

variable {F : Type} [WideField F] {module : WasmModule} {maxTraceLength : ℕ} {name : String}
  (proof : PreparedProof F module maxTraceLength name)

theorem executed : buildTraceRows proof.execution.records = .ok proof.run.rows ∧
    proof.run.io = ⟨name, [], proof.execution.results⟩ ∧
      ∀ record ∈ proof.execution.records, record.RamBelow proof.run.config.ramK :=
  PreparedRun.execute_ok (lower_wellFormed proof.lowered) proof.created proof.preprocessed proof.invoked proof.prepared

theorem accepted : (proof.backend.columns proof.shape : TraceColumns F).Accepted proof.shape proof.initial proof.checked
    proof.preprocessing.bytecode.rows := by
  obtain ⟨built, io, below⟩ := proof.executed
  have starts : Machine.enter proof.source proof.machine proof.run.io.entry proof.run.io.inputs = .ok proof.entered := by
    rw [io]
    exact proof.starts
  have invoked : Machine.invoke proof.source proof.machine proof.run.io.entry proof.run.io.inputs = .ok proof.execution := by
    rw [io]
    exact proof.invoked
  have validated := proof.validated
  rw [← (validateInputsFromParts_length validated).2] at validated
  exact (accepted_iff_final (lower_wellFormed proof.lowered) proof.created proof.preprocessed starts invoked built proof.made
    validated proof.from_ proof.opened proof.fit proof.exact_ proof.grows below).mpr proof.final

end PreparedProof

/-- The run of seven is prepared. -/
theorem preparedProof_seven : Nonempty (PreparedProof Fr sevenModule 1024 "f") := by
  obtain ⟨⟨source, machine, execution⟩, found, checks⟩ := (Option.any_eq_true _ _).mp sevenModule_checks
  obtain ⟨lowered, created, invoked⟩ := Machine.runModule_eq_some found
  obtain ⟨entered, starts, checks⟩ := (Option.any_eq_true _ _).mp checks
  obtain ⟨preprocessing, preprocessed, checks⟩ := (Option.any_eq_true _ _).mp checks
  obtain ⟨run, prepared, checks⟩ := (Option.any_eq_true _ _).mp checks
  obtain ⟨backend, made, checks⟩ := (Option.any_eq_true _ _).mp checks
  obtain ⟨checked, validated, checks⟩ := (Option.any_eq_true _ _).mp checks
  obtain ⟨dimensions, derived, checks⟩ := (Option.any_eq_true _ _).mp checks
  simp only [Bool.and_eq_true, decide_eq_true_eq, List.isEmpty_iff] at checks
  obtain ⟨⟨⟨⟨⟨⟨⟨registers1, registers2⟩, ram1⟩, ram2⟩, exact_⟩, grows⟩, globals⟩, window⟩ := checks
  have preprocessed := eq_ok_of_toOption preprocessed
  have validated := eq_ok_of_toOption validated
  have valid := (validateInputsFromParts_checked validated).1
  let config := run.config.rwConfig
  refine ⟨{
    source, preprocessing, machine, entered, execution, run, backend, checked, lowered, preprocessed, created, invoked, validated
    shape := ⟨dimensions, config.registerDimensions checked.traceLength.log2 registerAddressBits,
      ⟨config.ramDimensions checked.traceLength.log2 checked.ramK.log2, ram1⟩, run.config.oneHotConfig.logKChunk.toNat⟩
    initial := ⟨fun address => RamValCheckInitStructure.decomposition
      ⟨extension (initialVector preprocessing run.io.inputs) address, none⟩, fun _ => none⟩
    starts := eq_ok_of_toOption starts
    prepared := eq_ok_of_toOption prepared
    made := eq_ok_of_toOption made
    from_ := ⟨eq_ok_of_toOption derived, rfl, rfl, ⟨registers1, registers2⟩, ⟨ram1, ram2⟩, rfl⟩
    opened := fun address arity => ⟨_, publicInitialRamEvaluation_full preprocessed valid arity, rfl⟩
    fit := ?_
    exact_ := fun m instruction visited fetch => Machine.fieldExact_of_runsExact exact_ visited fetch
    grows := Machine.not_shrinking_of_runsGrow grows
    final := ?_ }⟩
  · intro i value _ found
    rw [globals] at found
    cases found
  · have words (k : ℕ) (small : k < 512) := List.all_eq_true.mp window k (List.mem_range.mpr small)
    simp only [Bool.and_eq_true, Bool.or_eq_true, beq_iff_eq] at words
    have io : run.io = ⟨"f", [], execution.results⟩ :=
      (PreparedRun.execute_ok (lower_wellFormed lowered) created preprocessed invoked (eq_ok_of_toOption prepared)).2.1
    have output (i : ℕ) : outputAddress i = unmapWordAddress (1024 + i) := by
      unfold outputAddress unmapWordAddress outputsBase inputsBase inputsSize systemBase systemSize wordBytes
      omega
    rw [io]
    refine ⟨?_, fun i value found => ?_, fun i small => ?_, fun k lower upper other _ beside => ?_⟩
    · exact (wordOf_window .system 0 rfl rfl (by decide) (by decide)).trans ((words 1 (by decide)).1.1.resolve_left (by decide))
    · cases found
    · rw [output, wordOf_window .outputs 1024 rfl rfl (by decide) small]
      exact (words i small).2
    · change 1 ≤ k at lower
      change k < 1536 at upper
      rcases Nat.lt_or_ge k 512 with system | above
      · have same := (words k system).1.1.resolve_left (by omega)
        rw [if_neg (show ¬ k = 1 from fun one => other (congrArg unmapWordAddress one))] at same
        rw [← Nat.zero_add k, wordOf_window .system 0 rfl rfl (by decide) system, same]
      · obtain ⟨i, rfl⟩ := Nat.exists_eq_add_of_le above
        rcases Nat.lt_or_ge i 512 with small | outputs
        · rw [wordOf_window .inputs 512 rfl rfl (by decide) small, (words i small).1.2]
        · obtain ⟨i, rfl⟩ := Nat.exists_eq_add_of_le outputs
          exact absurd (by rw [output, ← Nat.add_assoc]) (beside i (show i < 512 by omega))

end Stages

end JoltWasm
