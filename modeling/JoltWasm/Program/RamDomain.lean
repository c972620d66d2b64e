import JoltWasm.Program.PublicBinding
import JoltWasm.Program.TraceRow
import JoltWasm.Program.Transcript

/-!
# The RAM domain

The backing store of linear memory never grows past the page cap, whatever rows run, so that every word
a run accesses lies in the largest RAM domain of the program's limits.  The smallest domain holds the
program image; it is within the largest one exactly when the non-zero globals are.
-/

namespace JoltWasm

open Layout Lib

/-! ## The prover's configuration -/

/-- What the derivation of a configuration refuses. -/
inductive ProverError where
  | unsupported (reason : String)
  deriving DecidableEq

structure ProverConfig where
  traceLength : ℕ
  ramK : ℕ
  rwConfig : JoltReadWriteConfig
  oneHotConfig : FiatShamir.JoltOneHotConfig
  tracePolynomialOrder : TracePolynomialOrder
  deriving DecidableEq

namespace ProverConfig

def lookupAddressBits : ℕ := 2 * 64
def minPaddedTraceLength : ℕ := 256
def onehotChunkThresholdLogT : ℕ := 25

/-- Cycle variables in the first phase, address variables in the second. -/
def readWriteConfig (logT ramLogK : ℕ) : JoltReadWriteConfig where
  ramRwPhase1NumRounds := .ofNat logT
  ramRwPhase2NumRounds := .ofNat ramLogK
  registersRwPhase1NumRounds := .ofNat logT
  registersRwPhase2NumRounds := .ofNat registerCount.log2

/-- Narrow chunks below the threshold, wide chunks from it on. -/
def oneHotConfigFor (logT : ℕ) : FiatShamir.JoltOneHotConfig :=
  if logT < onehotChunkThresholdLogT then ⟨4, .ofNat (lookupAddressBits / 8)⟩
  else ⟨8, .ofNat (lookupAddressBits / 4)⟩

/-- The word a row touches. -/
def touchedWord (row : WasmTraceRow) : Option ℕ :=
  if row.isLoad || row.isStore then remapWordAddress row.ramAddress.toNat else none

/-- The padded length of a trace and its final no-op. -/
def paddedLength (rows : List WasmTraceRow) : ℕ :=
  if rows.length < minPaddedTraceLength then minPaddedTraceLength else nextPowerOfTwo (rows.length + 1)

/-- The proof shape of an unpadded trace. -/
def derive (rows : List WasmTraceRow) (programImageEndIndex : ℕ) (memory : MemoryLimits)
    (maxTraceLength : ℕ) : Except ProverError ProverConfig := do
  let traceLength := paddedLength rows
  if maxTraceLength < traceLength then
    .error (.unsupported "trace exceeds the preprocessing's maximum padded trace length")
  let touched := (rows.filterMap touchedWord).max?
  let floor ← (minRamK programImageEndIndex).mapError
    fun _ => .unsupported "the program image does not fit a RAM domain"
  let ramK := max (nextPowerOfTwo ((touched.map (· + 1)).getD 0)) floor
  let ceiling ← (maxRamK memory).mapError
    fun _ => .unsupported "the linear memory limit does not fit a RAM domain"
  if ceiling < ramK then .error (.unsupported "the trace touches RAM beyond the program's memory limit")
  let logT := traceLength.log2
  return ⟨traceLength, ramK, readWriteConfig logT ramK.log2, oneHotConfigFor logT, .cycleMajor⟩

end ProverConfig

/-! ## The cap of linear memory -/

/-- The backing store is within the page cap. -/
structure Memory.Capped (m : Memory) (pages : ℕ) : Prop where
  cap : m.maxPages = pages
  store : m.linearLen ≤ pages * pageSize + wasmWordBytes

namespace Memory.Capped

variable {m next : Memory} {pages : ℕ}

theorem new {limits : MemoryLimits} (within : limits.initialPages ≤ limits.maxPages) (globals : List U64)
    (table : List (Option TableSlot)) : (Memory.new limits globals table).Capped limits.maxPages :=
  ⟨rfl, Nat.add_le_add_right (Nat.mul_le_mul_right pageSize within) wasmWordBytes⟩

theorem initLinear {offset : ℕ} {bytes : List (BitVec 8)} (capped : m.Capped pages)
    (loaded : m.initLinear offset bytes = .ok next) : next.Capped pages := by
  unfold Memory.initLinear at loaded
  split at loaded
  · cases loaded
  · cases loaded
    exact ⟨capped.cap, capped.store⟩

theorem initData {data : List DataSegment} (capped : m.Capped pages)
    (loaded : Machine.initData data m = .ok next) : next.Capped pages := by
  induction data generalizing m with
  | nil =>
      cases loaded
      exact capped
  | cons segment data ih =>
      obtain ⟨first, loadedFirst, loaded⟩ := except_bind_eq_ok.mp loaded
      exact ih (capped.initLinear loadedFirst) loaded

/-- A write of the size word resizes the store to at most the cap. -/
theorem writeWord {address value previous : U64} (capped : m.Capped pages)
    (wrote : m.writeWord address value = .ok (previous, next)) : next.Capped pages := by
  obtain ⟨slot, -, wrote⟩ := except_bind_eq_ok.mp wrote
  cases slot with
  | cell start =>
      simp only at wrote
      split at wrote
      · cases wrote
      · cases wrote
        exact ⟨capped.cap, capped.store⟩
  | word region index =>
      simp only at wrote
      split at wrote
      · cases wrote
        refine ⟨capped.cap, Nat.add_le_add_right ?_ wasmWordBytes⟩
        rw [← capped.cap]
        exact min_le_right _ _
      · cases wrote
        exact ⟨capped.cap, capped.store⟩

theorem writeInputs {i : ℕ} {inputs : List U64} (capped : m.Capped pages)
    (wrote : Machine.writeInputs i inputs m = .ok next) : next.Capped pages := by
  induction inputs generalizing i m with
  | nil =>
      cases wrote
      exact capped
  | cons input inputs ih =>
      obtain ⟨⟨previous, first⟩, wroteFirst, wrote⟩ := except_bind_eq_ok.mp wrote
      exact ih (capped.writeWord wroteFirst) wrote

/-- A located word lies before the end of the window of the page cap. -/
theorem locate {address : U64} {slot : Slot} (capped : m.Capped pages)
    (located : m.locate address = .ok slot) :
    ∃ k, remapWordAddress address.toNat = some k ∧ k < wordIndex (ramEnd pages) := by
  have store : m.linearLen ≤ pages * 65536 + 4 := capped.store
  have aligned : address.toNat % 8 = 0 := by
    by_contra unaligned
    rw [Memory.locate, wordBytes, if_pos unaligned] at located
    cases located
  rw [← BitVec.setWidth_eq address, ← BitVec.ofNat_toNat, m.locate_eq address.isLt aligned] at located
  have bounds : 0x90000000 ≤ address.toNat ∧ address.toNat ≤ 0x90124000 + 2 * (pages * 65536) := by
    by_cases linear : 0x90124000 ≤ address.toNat
    · rw [if_pos linear] at located
      split at located
      · cases located
      · omega
    · refine ⟨?_, by omega⟩
      by_contra below
      rw [if_neg linear, if_neg (by omega), if_neg (by omega), if_neg (by omega), if_neg (by omega),
        if_neg (by omega), if_neg (by omega), if_neg below] at located
      cases located
  have end_ : ramEnd pages = 0x90124000 + 2 * (pages * 65536) + 8 := rfl
  refine ⟨wordIndex address.toNat, ?_, ?_⟩
  · rw [remapWordAddress, ramBase, wordBytes, if_neg (by omega)]
    rfl
  · rw [wordIndex_eq, wordIndex_eq, end_]
    omega

end Memory.Capped

/-- The address of an access. -/
def RamAccess.accessed : RamAccess → Option U64
  | .read address _ | .write address _ _ => some address
  | .noOp => none

/-- An access locates its word, and keeps the cap. -/
theorem Memory.Capped.access {m : Machine} {pages : ℕ} {spec : RowSpec} {rs1Value rs2Value output : U64}
    {ram : RamAccess} {rdValue : Option U64} {memory : Memory} (capped : m.memory.Capped pages)
    (accessed : m.access spec rs1Value rs2Value output = .ok (ram, rdValue, memory)) :
    memory.Capped pages ∧ ∀ address, ram.accessed = some address → ∃ slot, m.memory.locate address = .ok slot := by
  unfold Machine.access at accessed
  simp only at accessed
  split at accessed
  · obtain ⟨value, read, accessed⟩ := except_bind_eq_ok.mp accessed
    obtain ⟨slot, located, -⟩ := except_bind_eq_ok.mp read
    cases accessed
    refine ⟨capped, fun address at_ => ?_⟩
    cases at_
    exact ⟨slot, located⟩
  · split at accessed
    · obtain ⟨⟨preValue, written⟩, wrote, accessed⟩ := except_bind_eq_ok.mp accessed
      obtain ⟨slot, located, -⟩ := except_bind_eq_ok.mp wrote
      cases accessed
      refine ⟨capped.writeWord wrote, fun address at_ => ?_⟩
      cases at_
      exact ⟨slot, located⟩
    · split at accessed
      · cases accessed
        exact ⟨capped, fun address at_ => by cases at_⟩
      · cases accessed
        exact ⟨capped, fun address at_ => by cases at_⟩

/-- A record accesses nothing, or a word before the end of the window. -/
def Record.RamBelow (record : Record) (words : ℕ) : Prop :=
  ∀ address, record.ram.accessed = some address →
    ∃ k, remapWordAddress address.toNat = some k ∧ k < words

/-- A step keeps the cap, and accesses a word of the window. -/
theorem Memory.Capped.step {prover : Prover} {code : List Ir} {m next : Machine} {record : Record} {pages : ℕ}
    (capped : m.memory.Capped pages) (stepped : Machine.stepWith prover code m = .ok (record, next)) :
    next.memory.Capped pages ∧ record.RamBelow (wordIndex (ramEnd pages)) := by
  unfold Machine.stepWith at stepped
  cases fetch : code[m.pc.toNat]? with
  | none =>
      rw [fetch] at stepped
      cases stepped
  | some instruction =>
      rw [fetch] at stepped
      simp only at stepped
      split at stepped
      · cases stepped
      · split at stepped
        · cases stepped
        · obtain ⟨⟨ram, rdValue, memory⟩, accessed, stepped⟩ := except_bind_eq_ok.mp stepped
          obtain ⟨pc, -, stepped⟩ := except_bind_eq_ok.mp stepped
          cases stepped
          obtain ⟨kept, located⟩ := capped.access accessed
          refine ⟨kept, fun address at_ => ?_⟩
          obtain ⟨slot, found⟩ := located address at_
          exact capped.locate found

/-- The states a run visits keep the cap. -/
theorem Memory.Capped.visits {code : List Ir} {m at_ : Machine} {pages : ℕ} (capped : m.memory.Capped pages)
    (visited : Machine.Visits code m at_) : at_.memory.Capped pages := by
  induction visited with
  | start => exact capped
  | step _ stepped _ ih => exact (ih.step stepped).1

/-- The machine at the entry stub of an export keeps the cap. -/
theorem Memory.Capped.enter {program : IrProgram} {m entered : Machine} {name : String} {args : List U64}
    {pages : ℕ} (capped : m.memory.Capped pages) (found : Machine.enter program m name args = .ok entered) :
    entered.memory.Capped pages := by
  obtain ⟨function, -, found⟩ := except_bind_eq_ok.mp found
  obtain ⟨entry, -, found⟩ := except_bind_eq_ok.mp found
  cases known : program.functions[function]? with
  | none =>
      rw [known] at found
      cases found
  | some f =>
      rw [known] at found
      obtain ⟨words, -, found⟩ := except_bind_eq_ok.mp found
      obtain ⟨-, found⟩ := except_check_eq_ok.mp found
      obtain ⟨memory, wrote, found⟩ := except_bind_eq_ok.mp found
      cases found
      cases inputs : Machine.writeInputs 0 args m.memory with
      | error trap =>
          rw [inputs] at wrote
          cases wrote
      | ok written =>
          rw [inputs] at wrote
          cases wrote
          exact capped.writeInputs inputs

/-! ## The smallest and the largest domain -/

/-- The largest RAM domain of a program's limits. -/
def IrProgram.ramDomain (program : IrProgram) : ℕ :=
  nextPowerOfTwo (wordIndex (ramEnd program.memory.maxPages) + 1)

theorem maxRamK_eq {program : IrProgram} (wellFormed : program.WellFormed) :
    maxRamK program.memory = .ok program.ramDomain := by
  have cap : program.memory.maxPages ≤ 65536 := wellFormed.memory.2
  have end_ : ramEnd program.memory.maxPages = 0x90124000 + 2 * (program.memory.maxPages * 65536) + 8 := rfl
  have words : wordIndex (ramEnd program.memory.maxPages) + 1 ≤ 2 ^ 40 := by
    rw [wordIndex_eq, end_]
    omega
  have small : program.ramDomain < 2 ^ 64 :=
    (Nat.pow_le_pow_right two_pos (Nat.clog_le_of_le_pow words)).trans_lt (by decide)
  exact if_pos small

theorem le_nextPowerOfTwo (n : ℕ) : n ≤ nextPowerOfTwo n := Nat.le_pow_clog one_lt_two n

/-- The smallest power of two above a number is at most every other one. -/
theorem nextPowerOfTwo_le {n : ℕ} (e : ℕ) (bound : n ≤ 2 ^ e) : nextPowerOfTwo n ≤ 2 ^ e :=
  Nat.pow_le_pow_right two_pos (Nat.clog_le_of_le_pow bound)

/-- The smallest domain is within the largest when the image is. -/
theorem minRamK_within {program : IrProgram} (wellFormed : program.WellFormed) (imageEnd : ℕ) :
    (∃ min, minRamK imageEnd = .ok min ∧ min ≤ program.ramDomain) ↔ imageEnd ≤ program.ramDomain := by
  have io : ioEndIndex ≤ program.ramDomain := by
    refine le_trans ?_ (le_nextPowerOfTwo _)
    have end_ : ramEnd program.memory.maxPages = 0x90124000 + 2 * (program.memory.maxPages * 65536) + 8 := rfl
    rw [ioEndIndex_eq, wordIndex_eq, end_]
    omega
  have bounded := (ramDomain_ok (maxRamK_eq wellFormed)).2
  constructor
  · rintro ⟨min, isMin, within⟩
    exact ((le_max_left _ _).trans (ramDomain_ok isMin).1).trans within
  · intro within
    have le : nextPowerOfTwo (max imageEnd ioEndIndex) ≤ program.ramDomain :=
      nextPowerOfTwo_le _ (max_le within io)
    exact ⟨_, if_pos (le.trans_lt bounded), le⟩

/-! ## The end of the program image -/

theorem ProgramImage.length_ofWords (words : List MemoryWord) : (ProgramImage.ofWords words).words.length =
    (((words.filter fun word => decide (globalsBase ≤ word.address)).map
      fun word => wordIndex word.address + 1).max?).getD programImageStartIndex - programImageStartIndex := by
  rw [ProgramImage.ofWords, length_setWords, List.length_replicate]

theorem programImageEndIndex_eq (program : ProgramPreprocessing) : program.programImageEndIndex =
    if program.programImageLenWords = 0 then 0 else programImageStartIndex + program.programImageLenWords := by
  rw [ProgramPreprocessing.programImageEndIndex]
  generalize program.programImageLenWords = len
  cases len with
  | zero => rfl
  | succ len => rw [if_neg (Nat.succ_ne_zero len)]

/-- The image ends after the last word from the globals on. -/
theorem programImageEndIndex_le (preprocessing : WasmProgramPreprocessing) (bound : ℕ) :
    (ProgramPreprocessing.full preprocessing).programImageEndIndex ≤ bound ↔
      ∀ word ∈ preprocessing.programMemory, globalsBase ≤ word.address → wordIndex word.address < bound := by
  have dense {word : MemoryWord} : word ∈ preprocessing.programMemory ∧ globalsBase ≤ word.address ↔
      word ∈ preprocessing.programMemory.filter fun word => decide (globalsBase ≤ word.address) := by
    rw [List.mem_filter, decide_eq_true_iff]
  have length : (ProgramPreprocessing.full preprocessing).programImageLenWords = _ :=
    ProgramImage.length_ofWords preprocessing.programMemory
  rw [programImageEndIndex_eq, length]
  cases last : ((preprocessing.programMemory.filter fun word => decide (globalsBase ≤ word.address)).map
      fun word => wordIndex word.address + 1).max? with
  | none =>
      rw [List.max?_eq_none_iff, List.map_eq_nil_iff] at last
      rw [Option.getD_none, Nat.sub_self, if_pos rfl]
      refine ⟨fun _ word member above => ?_, fun _ => Nat.zero_le _⟩
      have := dense.mp ⟨member, above⟩
      rw [last] at this
      cases this
  | some end_ =>
      obtain ⟨attained, upper⟩ := List.max?_eq_some_iff.mp last
      obtain ⟨top, inDense, rfl⟩ := List.mem_map.mp attained
      obtain ⟨inMemory, above⟩ := dense.mpr inDense
      have start : programImageStartIndex ≤ wordIndex top.address :=
        Nat.div_le_div_right (Nat.sub_le_sub_right above _)
      rw [Option.getD_some, if_neg (by omega), Nat.add_sub_cancel' (by omega)]
      constructor
      · intro within word member above
        have := upper _ (List.mem_map_of_mem (dense.mp ⟨member, above⟩))
        omega
      · intro all
        have := all top inMemory above
        omega

section

variable {program : IrProgram}

/-- The non-zero globals lie in the largest RAM domain. -/
def IrProgram.GlobalsInDomain (program : IrProgram) : Prop :=
  ∀ i value, program.globals[i]? = some value → value ≠ 0 → programImageStartIndex + i < program.ramDomain

/-- Words before the end of the window lie in the largest domain. -/
theorem IrProgram.lt_ramDomain {x : ℕ}
    (below : x ≤ 0x90124000 + 2 * (program.memory.maxPages * 65536)) : wordIndex x < program.ramDomain := by
  have end_ : ramEnd program.memory.maxPages = 0x90124000 + 2 * (program.memory.maxPages * 65536) + 8 := rfl
  refine lt_of_lt_of_le ?_ (le_nextPowerOfTwo _)
  rw [wordIndex_eq, wordIndex_eq, end_]
  omega

/-- The program image ends within the largest domain exactly when the non-zero globals lie in it. -/
theorem image_within {machine : Machine} {preprocessing : WasmProgramPreprocessing} {maxTraceLength : ℕ}
    (wellFormed : program.WellFormed) (created : Machine.new program = .ok machine)
    (preprocessed : WasmProgramPreprocessing.new program maxTraceLength = .ok preprocessing) :
    (ProgramPreprocessing.full preprocessing).programImageEndIndex ≤ program.ramDomain ↔
      program.GlobalsInDomain := by
  have globalsBase_ : globalsBase = 0x90104000 := rfl
  have tableBase_ : tableBase = 0x90114000 := rfl
  have sizeAddr : memorySizeAddr = 0x90000000 := rfl
  have start := programImageStartIndex_eq
  have tableFit : program.table.length ≤ 4096 := wellFormed.table
  have words (x : ℕ) (aligned : x % 8 = 0) (above : 0x90104000 ≤ x) :=
    (getD_initialWordMap program [] aligned).trans
      ((if_neg (by simp)).trans (if_neg (by rw [sizeAddr]; omega)))
  rw [programImageEndIndex_le, (preprocessed_memory preprocessed).1]
  constructor
  · intro all i value found nonzero
    by_contra outside
    set x := globalsBase + 8 * i with at_
    have index : wordIndex x = programImageStartIndex + i := by
      rw [at_, wordIndex_eq, globalsBase_, start]
      omega
    have high : 0x90124000 ≤ x := by
      by_contra low
      exact outside (index ▸ program.lt_ramDomain (by omega))
    have word := words x (by omega) (by omega)
    have position : (x - globalsBase) / 8 = i := by omega
    have inside : i < program.globals.length := (List.getElem?_eq_some_iff.mp found).1
    have past : ¬ (tableBase ≤ x ∧ (x - tableBase) / 8 < 2 * program.table.length) := by
      rw [tableBase_]
      omega
    rw [if_neg past, position, if_pos ⟨by omega, inside⟩, List.getD_eq_getElem?_getD,
      found, Option.getD_some, Std.TreeMap.getD_eq_getD_getElem?] at word
    cases entry : (initialWordMap program [])[x]? with
    | none =>
        rw [entry] at word
        exact nonzero word.symm
    | some stored =>
        rw [entry, Option.getD_some] at word
        rw [word] at entry
        exact outside (index ▸ all ⟨x, value⟩
          ((mem_initialMemoryWords program []).mpr ⟨nonzero, entry⟩) (show globalsBase ≤ x by omega))
  · rintro inDomain ⟨x, value⟩ member above
    obtain ⟨nonzero, entry⟩ := (mem_initialMemoryWords program []).mp member
    have aligned : x % 8 = 0 := (initialMemoryWords_aligned program []).aligned _ member
    change globalsBase ≤ x at above
    change wordIndex x < _
    have word := words x aligned (by omega)
    rw [Std.TreeMap.getD_eq_getD_getElem?, entry, Option.getD_some, tableBase_, globalsBase_] at word
    split at word
    · exact program.lt_ramDomain (by omega)
    · split at word
      · next global =>
          have found : program.globals[(x - 0x90104000) / 8]? = some value := by
            rw [word, List.getD_eq_getElem?_getD, List.getElem?_eq_getElem global.2, Option.getD_some]
          have := inDomain _ value found nonzero
          have index : wordIndex x = programImageStartIndex + (x - 0x90104000) / 8 := by
            rw [wordIndex_eq, start]
            omega
          rwa [index]
      · obtain ⟨linear, -, zero, holds⟩ := new_memory wellFormed created
        by_cases low : x < linearMemoryBase
        · exact absurd (word.trans (holds.below x low)) nonzero
        · rw [linearMemoryBase_eq] at low
          have at_ : x = linearMemoryBase + 8 * ((x - 0x90124000) / 8) := by
            rw [linearMemoryBase_eq]
            omega
          have cell := holds.cell ((x - 0x90124000) / 8)
          rw [← at_] at cell
          by_contra far
          have past : program.initialBytes ≤ 4 * ((x - 0x90124000) / 8) := by
            have pages : program.memory.initialPages * 65536 ≤ program.memory.maxPages * 65536 :=
              Nat.mul_le_mul_right _ wellFormed.memory.1
            have outside : 0x90124000 + 2 * (program.memory.maxPages * 65536) < x := by
              by_contra near
              exact far (program.lt_ramDomain (not_lt.mp near))
            change program.memory.initialPages * 65536 ≤ _
            omega
          have empty : cellAt linear (4 * ((x - 0x90124000) / 8)) = 0 := by
            unfold cellAt
            rw [zero _ past, zero _ (by omega), zero _ (by omega), zero _ (by omega)]
            rfl
          rw [empty] at cell
          exact nonzero (word.trans cell)

end

/-! ## The domain of an honest proof -/

/-- The records of the steps from the states that a run of an export visits. -/
def Machine.Traced (program : IrProgram) (machine : Machine) (name : String) (args : List U64)
    (record : Record) : Prop :=
  ∃ entered at_ next, Machine.enter program machine name args = .ok entered ∧
    Machine.Visits program.code entered at_ ∧ Machine.step program.code at_ = .ok (record, next)

/-- The records of an invocation that returns are traced. -/
theorem Machine.traced_of_invoke {program : IrProgram} {machine : Machine} {name : String} {args : List U64}
    {limit : ℕ} {execution : Execution}
    (invoked : Machine.invoke program machine name args limit = .ok execution) :
    ∀ record ∈ execution.records, Machine.Traced program machine name args record := by
  obtain ⟨entered, last, found, ran, -⟩ := Machine.invoke_ok invoked
  intro record member
  obtain ⟨at_, next, visited, stepped⟩ := Machine.run_visits ran record member
  exact ⟨entered, at_, next, found, visited, stepped⟩

/-- Every traced record accesses a word of the largest domain. -/
theorem Machine.Traced.below {program : IrProgram} {machine : Machine} {name : String} {args : List U64}
    {record : Record} (wellFormed : program.WellFormed) (created : Machine.new program = .ok machine)
    (traced : Machine.Traced program machine name args record) : record.RamBelow program.ramDomain := by
  obtain ⟨entered, at_, next, found, visited, stepped⟩ := traced
  obtain ⟨linear, memory, -⟩ := new_memory wellFormed created
  have start : (Memory.new program.memory program.globals program.table).Capped program.memory.maxPages :=
    .new wellFormed.memory.1 _ _
  have capped : machine.memory.Capped program.memory.maxPages := by
    rw [memory]
    exact ⟨start.cap, start.store⟩
  intro address accessed
  obtain ⟨k, word, below⟩ := (((capped.enter found).visits visited).step stepped).2 address accessed
  exact ⟨k, word, below.trans ((Nat.lt_succ_self _).trans_le (le_nextPowerOfTwo _))⟩

namespace ProverConfig

/-- A row touches the word that its record accesses. -/
theorem touchedWord_eq {record : Record} {row : WasmTraceRow} (made : WasmTraceRow.fromRecord record = .ok row) :
    touchedWord row = record.ram.accessed.bind fun address => remapWordAddress address.toNat := by
  unfold WasmTraceRow.fromRecord at made
  obtain ⟨-, made⟩ := except_check_eq_ok.mp made
  obtain ⟨slots, found, made⟩ := except_bind_eq_ok.mp made
  cases made
  unfold touchedWord WasmTraceRow.ramAddress WasmTraceRow.isLoad WasmTraceRow.isStore WasmTraceRow.fromParts
  unfold WasmTraceRow.slotsOf at found
  simp only at found ⊢
  split at found
  · next load =>
      split at found
      · next address value access =>
          split at found
          · cases found
          · cases found
            rw [load, Bool.true_or, if_pos rfl, if_pos rfl, access]
            rfl
      · cases found
  · next noLoad =>
      split at found
      · next store =>
          split at found
          · next address preValue postValue access =>
              split at found
              · cases found
              · cases found
                rw [store, Bool.or_true, if_pos rfl, if_neg noLoad, if_pos rfl, access]
                rfl
          · cases found
      · next noStore =>
          split at found
          · cases found
          · next access =>
              rw [Bool.not_eq_true] at noLoad noStore
              rw [noLoad, noStore, Bool.or_false, if_neg Bool.false_ne_true, not_not.mp access]
              rfl

end ProverConfig

/-- Every row of a trace is made of a record, and every record makes a row. -/
theorem buildTraceRows_mem {records : List Record} {rows : List WasmTraceRow}
    (built : buildTraceRows records = .ok rows) :
    (∀ row ∈ rows, ∃ record ∈ records, WasmTraceRow.fromRecord record = .ok row) ∧
      ∀ record ∈ records, ∃ row ∈ rows, WasmTraceRow.fromRecord record = .ok row := by
  induction records generalizing rows with
  | nil =>
      cases built
      exact ⟨fun _ member => absurd member List.not_mem_nil, fun _ member => absurd member List.not_mem_nil⟩
  | cons first records ih =>
      obtain ⟨row, made, built⟩ := except_bind_eq_ok.mp built
      obtain ⟨rest, builtRest, built⟩ := except_bind_eq_ok.mp built
      cases built
      obtain ⟨ofRow, ofRecord⟩ := ih builtRest
      constructor
      · intro other member
        rcases List.mem_cons.mp member with rfl | member
        · exact ⟨first, List.mem_cons_self, made⟩
        · obtain ⟨record, inRecords, makes⟩ := ofRow other member
          exact ⟨record, List.mem_cons_of_mem _ inRecords, makes⟩
      · intro other member
        rcases List.mem_cons.mp member with rfl | member
        · exact ⟨row, List.mem_cons_self, made⟩
        · obtain ⟨row', inRows, makes⟩ := ofRecord other member
          exact ⟨row', List.mem_cons_of_mem _ inRows, makes⟩

namespace ProverConfig

/-- The derived domain is a power of two between the smallest and the largest, and past every touched
word. -/
theorem derive_ok {rows : List WasmTraceRow} {imageEnd maxTraceLength : ℕ} {memory : MemoryLimits} {min e : ℕ}
    (short : paddedLength rows ≤ maxTraceLength) (isMin : minRamK imageEnd = .ok min)
    (isMax : maxRamK memory = .ok (2 ^ e)) (interval : min ≤ 2 ^ e)
    (below : ∀ row ∈ rows, ∀ k, touchedWord row = some k → k < 2 ^ e) :
    ∃ config, derive rows imageEnd memory maxTraceLength = .ok config ∧ isPowerOfTwo config.ramK = true ∧
      min ≤ config.ramK ∧ config.ramK ≤ 2 ^ e ∧ ∀ row ∈ rows, ∀ k, touchedWord row = some k → k < config.ramK := by
  set touched := (((rows.filterMap touchedWord).max?).map (· + 1)).getD 0 with isTouched
  have within : touched ≤ 2 ^ e := by
    rw [isTouched]
    cases last : (rows.filterMap touchedWord).max? with
    | none => exact Nat.zero_le _
    | some word =>
        obtain ⟨row, member, touches⟩ := List.mem_filterMap.mp (List.max?_eq_some_iff.mp last).1
        exact below row member word touches
  have past : ∀ row ∈ rows, ∀ k, touchedWord row = some k → k < touched := by
    intro row member k touches
    have inWords := List.mem_filterMap.mpr ⟨row, member, touches⟩
    rw [isTouched]
    cases last : (rows.filterMap touchedWord).max? with
    | none =>
        rw [List.max?_eq_none_iff] at last
        rw [last] at inWords
        cases inWords
    | some word => exact Nat.lt_succ_of_le ((List.max?_eq_some_iff.mp last).2 k inWords)
  have le : max (nextPowerOfTwo touched) min ≤ 2 ^ e := max_le (nextPowerOfTwo_le e within) interval
  have made : derive rows imageEnd memory maxTraceLength = .ok ⟨paddedLength rows,
      max (nextPowerOfTwo touched) min,
      readWriteConfig (paddedLength rows).log2 (max (nextPowerOfTwo touched) min).log2,
      oneHotConfigFor (paddedLength rows).log2, .cycleMajor⟩ := by
    unfold derive
    rw [isMin, isMax]
    refine except_check_eq_ok.mpr ⟨not_lt.mpr short, except_bind_eq_ok.mpr ⟨min, rfl, ?_⟩⟩
    exact except_bind_eq_ok.mpr ⟨2 ^ e, rfl, except_check_eq_ok.mpr ⟨not_lt.mpr le, rfl⟩⟩
  refine ⟨_, made, ?_,
    le_max_right (nextPowerOfTwo touched) min, le, fun row member k touches => (past row member k touches).trans_le ((le_nextPowerOfTwo touched).trans (le_max_left _ min))⟩
  have power : ∃ f, min = 2 ^ f := by
    unfold minRamK ramDomain at isMin
    split at isMin
    · cases isMin
      exact ⟨_, rfl⟩
    · cases isMin
  obtain ⟨f, rfl⟩ := power
  rw [isPowerOfTwo_iff]
  rcases max_choice (nextPowerOfTwo touched) (2 ^ f) with choice | choice
  · rw [choice, nextPowerOfTwo, Nat.log2_two_pow]
  · rw [choice, Nat.log2_two_pow]

end ProverConfig

/-! ## The interval check -/

/-- What the interval `[min, max]` of RAM domains promises about a program: every run stays below `max`, the
public initial words end by `min`, and the domain that a prover derives from a run passes the check. -/
structure RamDomainBounds (program : IrProgram) (machine : Machine) (preprocessing : WasmProgramPreprocessing)
    (min max : ℕ) : Prop where
  accesses : ∀ name args record, Machine.Traced program machine name args record → record.RamBelow max
  interval : min ≤ max
  image : ∀ io : PublicIo, io.inputs.length ≤ maxInputWords →
    ∀ segment ∈ (PublicInitialRam.new preprocessing io).segments,
      segment.startIndex + segment.words.length ≤ min
  honest : ∀ name args limit execution rows,
    Machine.invoke program machine name args limit = .ok execution →
      buildTraceRows execution.records = .ok rows →
        ProverConfig.paddedLength rows ≤ preprocessing.maxTraceLength →
          ∃ config, ProverConfig.derive rows (ProgramPreprocessing.full preprocessing).programImageEndIndex
              preprocessing.memory preprocessing.maxTraceLength = .ok config ∧
            isPowerOfTwo config.ramK = true ∧ min ≤ config.ramK ∧ config.ramK ≤ max ∧
            ∀ record ∈ execution.records, record.RamBelow config.ramK

/-- The bounds hold of the smallest and the largest domain. -/
def RamDomainHolds (program : IrProgram) (machine : Machine) (preprocessing : WasmProgramPreprocessing) : Prop :=
  ∃ min max, minRamK (ProgramPreprocessing.full preprocessing).programImageEndIndex = .ok min ∧
    maxRamK preprocessing.memory = .ok max ∧ RamDomainBounds program machine preprocessing min max

section

variable {program : IrProgram} {machine : Machine} {preprocessing : WasmProgramPreprocessing} {maxTraceLength : ℕ}

/-- When the image ends within the largest domain the bounds hold. -/
theorem ramDomainBounds (wellFormed : program.WellFormed) (created : Machine.new program = .ok machine)
    (preprocessed : WasmProgramPreprocessing.new program maxTraceLength = .ok preprocessing) {min : ℕ}
    (isMin : minRamK (ProgramPreprocessing.full preprocessing).programImageEndIndex = .ok min)
    (interval : min ≤ program.ramDomain) :
    RamDomainBounds program machine preprocessing min program.ramDomain where
  accesses _ _ _ traced := traced.below wellFormed created
  interval := interval
  image io inputs segment member := by
    have covered := (ramDomain_ok isMin).1
    have io_ := ioEndIndex_eq
    rw [PublicInitialRam.new_segments] at member
    rcases List.mem_append.mp member with member | member
    · exact inputsOnly_inside inputs (by omega) member
    · split at member
      · cases member
      · next nonempty =>
          obtain rfl := List.mem_singleton.mp member
          have length : (ProgramPreprocessing.full preprocessing).programImageLenWords ≠ 0 :=
            fun empty => nonempty (List.length_eq_zero_iff.mp empty)
          have end_ := programImageEndIndex_eq (.full preprocessing)
          rw [if_neg length] at end_
          exact end_.symm.le.trans ((le_max_left _ _).trans covered)
  honest name args limit execution rows invoked built short := by
    have traced := Machine.traced_of_invoke invoked
    obtain ⟨ofRow, ofRecord⟩ := buildTraceRows_mem built
    have isMax : maxRamK preprocessing.memory = .ok program.ramDomain := by
      rw [(preprocessed_memory preprocessed).2]
      exact maxRamK_eq wellFormed
    obtain ⟨config, derived, power, above, within, past⟩ :=
      ProverConfig.derive_ok short isMin isMax interval fun row member k touches => by
        obtain ⟨record, inRecords, makes⟩ := ofRow row member
        rw [ProverConfig.touchedWord_eq makes] at touches
        obtain ⟨address, accessed, word⟩ := Option.bind_eq_some_iff.mp touches
        obtain ⟨k', word', below⟩ := (traced record inRecords).below wellFormed created address accessed
        rw [word'] at word
        exact Option.some.inj word ▸ below
    refine ⟨config, derived, power, above, within, fun record inRecords address accessed => ?_⟩
    obtain ⟨row, member, makes⟩ := ofRecord record inRecords
    obtain ⟨k, word, -⟩ := (traced record inRecords).below wellFormed created address accessed
    refine ⟨k, word, past row member k ?_⟩
    rw [ProverConfig.touchedWord_eq makes, accessed]
    exact word

/-- The interval of RAM domains admits every honest proof and holds the whole image, exactly when the non-zero
globals lie in the largest domain. -/
theorem ramDomain_holds_iff {module : WasmModule} (lowered : lower module = .ok program)
    (created : Machine.new program = .ok machine)
    (preprocessed : WasmProgramPreprocessing.new program maxTraceLength = .ok preprocessing) :
    RamDomainHolds program machine preprocessing ↔ program.GlobalsInDomain := by
  have wellFormed := lower_wellFormed lowered
  have isMax : maxRamK preprocessing.memory = .ok program.ramDomain := by
    rw [(preprocessed_memory preprocessed).2]
    exact maxRamK_eq wellFormed
  rw [← image_within wellFormed created preprocessed, ← minRamK_within wellFormed]
  constructor
  · rintro ⟨min, max, isMin, isMax', bounds⟩
    cases isMax.symm.trans isMax'
    exact ⟨min, isMin, bounds.interval⟩
  · rintro ⟨min, isMin, interval⟩
    exact ⟨min, _, isMin, isMax, ramDomainBounds wellFormed created preprocessed isMin interval⟩

end

/-- The data segment, the global and the table of a module with one page lie in its largest domain. -/
theorem ramDomain_holds_imageModule : ∃ program machine preprocessing, lower imageModule = .ok program ∧
    Machine.new program = .ok machine ∧ WasmProgramPreprocessing.new program 1024 = .ok preprocessing ∧
      (RamDomainHolds program machine preprocessing ↔ program.GlobalsInDomain) :=
  ⟨_, _, _, rfl, rfl, rfl, ramDomain_holds_iff (show lower imageModule = .ok _ from rfl)
    (show Machine.new _ = .ok _ from rfl) (show WasmProgramPreprocessing.new _ 1024 = .ok _ from rfl)⟩

/-- A module without memory, whose last global lies past the largest RAM domain. -/
def manyGlobalsModule : WasmModule where
  globals := List.replicate 129024 ⟨.i32, false, 0⟩ ++ [⟨.i32, false, 7⟩]

/-- Its image ends past the largest domain, so that no domain passes the interval check. -/
theorem ramDomain_not_holds : ∃ program machine preprocessing, lower manyGlobalsModule = .ok program ∧
    Machine.new program = .ok machine ∧ WasmProgramPreprocessing.new program 1024 = .ok preprocessing ∧
      ¬ RamDomainHolds program machine preprocessing := by
  have lowered : lower manyGlobalsModule = .ok
      { code := [.halt], functions := [], exports := [], entries := [], outputWords := [],
        memory := ⟨0, 0⟩, globals := manyGlobalsModule.globals.map Global.init, data := [],
        table := [] } := rfl
  have wellFormed := lower_wellFormed lowered
  refine ⟨_, _, _, lowered, rfl, rfl, ?_⟩
  rintro ⟨min, max, isMin, isMax, bounds⟩
  cases (maxRamK_eq wellFormed).symm.trans isMax
  have within := (minRamK_within wellFormed _).mp ⟨min, isMin, bounds.interval⟩
  have inDomain := (@image_within _ _ _ 1024 wellFormed rfl rfl).mp within
  have last : (manyGlobalsModule.globals.map Global.init)[129024]? = some 7 := by
    rw [manyGlobalsModule, List.map_append, List.map_replicate,
      List.getElem?_append_right List.length_replicate.le, List.length_replicate, Nat.sub_self]
    rfl
  have below := inDomain 129024 7 last (by decide)
  exact absurd (below.trans_le (nextPowerOfTwo_le 18 (by decide))) (by decide)

end JoltWasm
