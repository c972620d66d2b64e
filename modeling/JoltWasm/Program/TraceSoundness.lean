import JoltWasm.Backend.Effects
import JoltWasm.Program.TraceRows

/-!
# Soundness of the relations

Accepted columns follow the machine from the entry of the export: in each cycle the machine steps, with advice of the
prover's choice, and the columns hold its state, until the last cycle or until a state that the relations do not
check.  The last state is at the halt row and its memory holds the claimed words.
-/

namespace JoltWasm

open Lib Layout

/-! ## States that the relations do not check -/

/-- A state whose row the machine refuses, or executes differently from the table of the proof. -/
inductive Machine.Unchecked (code : List Ir) (m : Machine) : Prop where
  | trap (fetch : code[m.pc.toNat]? = some .trap)
  | bitmask {op : AluOp} {rd rs1 : Reg} {rs2 : Operand} (fetch : code[m.pc.toNat]? = some (.alu op rd rs1 rs2))
      (reads : op.readsBitmask = true) (other : ¬ IsRightShiftBitmask (rs2.value m.regs))
  | load {rd base : Reg} {offset : U64} (fetch : code[m.pc.toNat]? = some (.load rd base offset)) {trap : Trap}
      (refused : m.memory.readWord (m.regs base + offset) = .error trap)
  | store {base value : Reg} {offset : U64} (fetch : code[m.pc.toNat]? = some (.store base value offset)) {trap : Trap}
      (refused : m.memory.writeWord (m.regs base + offset) (m.regs value) = .error trap)
  | shrinks {base value : Reg} {offset : U64} (fetch : code[m.pc.toNat]? = some (.store base value offset))
      (shrinks : m.memory.Shrinks (m.regs base + offset) (m.regs value))

/-- The runs of cycles from a state: a cycle is a step with its advice, or, where the accesses can miss the table,
an empty cycle from the halt row to the row after it. -/
inductive Machine.Follows (code : List Ir) (gap : Prop) (advice : ℕ → U64) (start : Machine) : ℕ → Machine → Prop where
  | start : Follows code gap advice start 0 start
  | step {j : ℕ} {m next : Machine} {record : Record} (before : Follows code gap advice start j m)
      (stepped : stepWith (constantProver (advice j)) code m = .ok (record, next)) : Follows code gap advice start (j + 1) next
  | empty {j : ℕ} {m : Machine} (before : Follows code gap advice start j m) (missed : gap) (halted : m.pc = 0) :
      Follows code gap advice start (j + 1) { m with pc := 1 }

/-- There is no word at address zero. -/
theorem Memory.locate_zero (m : Memory) {address : U64} (zero : address = 0) {slot : Slot} : m.locate address ≠ .ok slot := by
  intro located
  subst zero
  rcases locate_ok located with ⟨inside, -, -⟩ | ⟨region, above, -, -⟩
  · exact absurd inside (by decide)
  · cases region <;> exact absurd above (by decide)

namespace Stages.TraceColumns

variable {F : Type} [WideField F] {columns : TraceColumns F} {shape : ProofShape} {words : ℕ → F} {io : PublicIo}
  {source : IrProgram} {bytecode : WasmBytecode} (preprocessed : WasmBytecode.preprocess source = .ok bytecode)
  {checked : CheckedInputs} {virtualRaPolys : ℕ} (sized : shape.Sized checked bytecode virtualRaPolys) {entry : ℕ}
  {hots : JoltRaPolynomial → ℕ → Option ℕ} (traced : columns.Traced shape words io bytecode.rows entry hots)

/-! ## The address of an access -/

theorem wordAddress_eq (k : ℕ) : (RamColumns.wordAddress k : F) = ((unmapWordAddress k : ℕ) : F) := by
  rw [RamColumns.wordAddress, unmapWordAddress, wordBytes]
  push_cast
  ring

/-- An address that is a sum in the field is zero or the one of the word that the cycle picks. -/
theorem memory_address {logK : ℕ} (domain : logK ≤ 40) {place : Option ℕ} (inside : ∀ k ∈ place, k < 2 ^ logK) {base offset : U64}
    (sum : (base.toNat : F) + (offset.toInt : F) = place.elim 0 RamColumns.wordAddress) :
    (place = none ∧ base + offset = 0) ∨
      ∃ k, place = some k ∧ SumFits base offset ∧ (base + offset).toNat = unmapWordAddress k := by
  have lower := BitVec.le_toInt offset
  have upper := BitVec.toInt_lt (x := offset)
  have small := base.isLt
  -- Both sides are integers far below the order of the field.
  have lift {n : ℕ} (bounded : n < 2 ^ 64) (same : (base.toNat : F) + (offset.toInt : F) = (n : F)) :
      (base.toNat : ℤ) + offset.toInt = n := by
    refine intCast_inj_of_lt (F := F) ?_ ?_ ?_
    · rw [abs_lt]
      omega
    · rw [abs_lt]
      omega
    · push_cast
      exact same
  cases place with
  | none =>
      have zero := lift (n := 0) (by omega) (sum.trans Nat.cast_zero.symm)
      have fits : SumFits base offset := ⟨by omega, by omega⟩
      have total := toNat_address fits
      exact .inl ⟨rfl, BitVec.eq_of_toNat_eq (by rw [zero] at total; exact_mod_cast total)⟩
  | some k =>
      have below := inside k rfl
      have domain' : 2 ^ logK ≤ 2 ^ 40 := Nat.pow_le_pow_right two_pos domain
      have address := unmapWordAddress_eq k
      have same := lift (n := unmapWordAddress k) (by omega) (sum.trans (wordAddress_eq k))
      have fits : SumFits base offset := ⟨by omega, by omega⟩
      have total := toNat_address fits
      exact .inr ⟨k, rfl, fits, by omega⟩

/-! ## The state that the columns hold -/

/-- The register that a cycle writes. -/
def rdPlace (shape : ProofShape) (bytecode : List BytecodeRow) (hots : JoltRaPolynomial → ℕ → Option ℕ) (j : ℕ) : Option ℕ :=
  registerPlace bytecode BytecodeRow.rd (tablePlace shape hots j)

/-- The pc column, with the padding's pc after the last cycle. -/
def pcAt (columns : TraceColumns F) (shape : ProofShape) (j : ℕ) : F := if j < 2 ^ shape.logT then columns.pc j else 0

/-- The columns hold a state before a cycle: a register or word is the last one that was written. -/
structure Holds (columns : TraceColumns F) (shape : ProofShape) (words : ℕ → F) (bytecode : List BytecodeRow)
    (hots : JoltRaPolynomial → ℕ → Option ℕ) (j : ℕ) (m : Machine) : Prop where
  regs : ∀ r : Reg, lastWrite (fun _ => 0) (rdPlace shape bytecode hots) columns.rdWriteValue j r.val = ((m.regs r).toNat : F)
  ram : ∀ k < 2 ^ shape.logK, lastWrite words (wordPlace shape hots) columns.ram.ramWriteValue j k =
    ((m.memory.wordOf (unmapWordAddress k)).toNat : F)
  settled : m.memory.Settled
  pc : columns.pcAt shape j = (m.pc.toNat : F)

/-- The word that a cycle reads in a state. -/
def wordRead (shape : ProofShape) (hots : JoltRaPolynomial → ℕ → Option ℕ) (j : ℕ) (m : Machine) : U64 :=
  (wordPlace shape hots j).elim 0 fun k => m.memory.wordOf (unmapWordAddress k)

include preprocessed traced in
/-- The columns of a cycle are what its row reads of the state. -/
theorem readsOf {j : ℕ} (below : j < 2 ^ shape.logT) {m : Machine} {instruction : Ir}
    (executes : Executes source shape hots j m.pc instruction) (holds : columns.Holds shape words bytecode.rows hots j m) :
    ReadsOf (columns.cycle j) m instruction (wordRead shape hots j m) := by
  refine ⟨fun r register => ?_, fun r register => ?_, ?_⟩
  · refine (traced.registers.rs1 j below).trans ?_
    rw [registerPlace_eq preprocessed executes BytecodeRow.rs1 (congrArg registerId register)]
    exact holds.regs r
  · refine (traced.registers.rs2 j below).trans ?_
    rw [registerPlace_eq preprocessed executes BytecodeRow.rs2 (congrArg registerId register)]
    exact holds.regs r
  · refine (traced.memory.read j below).trans ?_
    rw [wordRead]
    cases place : wordPlace shape hots j with
    | none => exact Nat.cast_zero.symm
    | some k => exact holds.ram k ((traced.accesses j below).inside k place)

include preprocessed traced in
/-- The pc of a cycle is the place of its row in the table. -/
theorem executes_of_place {j : ℕ} (below : j < 2 ^ shape.logT) {m : Machine}
    (holds : columns.Holds shape words bytecode.rows hots j m) {k : ℕ} (place : tablePlace shape hots j = some k)
    {instruction : Ir} (fetch : source.code[k]? = some instruction) : Executes source shape hots j m.pc instruction := by
  have small := (List.getElem?_eq_some_iff.mp fetch).1
  have length := (WasmBytecode.preprocess_ok preprocessed).2.1
  have bounded := m.pc.isLt
  have pc := holds.pc
  rw [pcAt, if_pos below, traced.fetch.pc j below, place] at pc
  obtain rfl : k = m.pc.toNat := natCast_inj_of_lt (F := F) (by omega) (by omega) pc
  exact ⟨place, fetch⟩

include traced in
/-- The pc after a cycle is that of the next one, or the padding's. -/
theorem nextPc_eq {j : ℕ} (below : j < 2 ^ shape.logT) : columns.nextPc j = columns.pcAt shape (j + 1) :=
  traced.fetch.nextPc j below

include preprocessed sized in
/-- A row that the accesses pick has a pc. -/
theorem place_lt {j k : ℕ} (place : tablePlace shape hots j = some k) : k < 2 ^ 32 := by
  have inside : k < 2 ^ shape.dimensions.bytecodeReadRaf.logK := of_decide_eq_true (Option.filter_eq_some_iff.mp place).2
  have narrow := (WasmBytecode.length_rows preprocessed).2.2.1
  rw [sized.bytecode] at inside
  exact inside.trans_le (Nat.pow_le_pow_right two_pos narrow)

include preprocessed sized traced in
/-- No cycle is at a padding row: it would stay there, and the last cycle leaves for the halt row. -/
theorem place_inside {j k : ℕ} (below : j < 2 ^ shape.logT) (place : tablePlace shape hots j = some k) :
    k < source.code.length := by
  generalize gap : 2 ^ shape.logT - j = more
  induction more generalizing j k with
  | zero => omega
  | succ more ih =>
      by_contra past
      obtain ⟨head, -, -, -⟩ := WasmBytecode.preprocess_ok preprocessed
      have some_ : 0 < source.code.length := by
        rw [List.length_pos_iff]
        rintro empty
        rw [empty] at head
        cases head
      have small := place_lt preprocessed sized place
      have row : rowAt bytecode.rows k = BytecodeRow.of .halt := by
        rw [WasmBytecode.rowAt_eq preprocessed, List.getElem?_eq_none (Nat.not_lt.mp past), Option.getD_none]
      have halts : columns.flag .halt j = 1 := by
        rw [traced.fetch.flag .halt j below, place, Option.elim_some, row]
        exact if_pos (by decide)
      have stays : columns.nextPc j = (k : F) := by
        have equation := ((satisfies_iff _).mp (traced.constraints j below)).halt
        have pc := traced.fetch.pc j below
        rw [place, Option.elim_some] at pc
        simp only [cycle, halts, pc] at equation
        linear_combination equation
      rw [nextPc_eq traced below, pcAt] at stays
      have zero (same : (0 : F) = k) : False := by
        have := natCast_inj_of_lt (F := F) (by omega) (by omega) (Nat.cast_zero.trans same)
        omega
      split at stays
      · next below' =>
          rw [traced.fetch.pc _ below'] at stays
          cases place' : tablePlace shape hots (j + 1) with
          | none =>
              rw [place'] at stays
              exact zero stays
          | some k' =>
              have small' := place_lt preprocessed sized place'
              rw [place'] at stays
              obtain rfl : k' = k := natCast_inj_of_lt (F := F) (by omega) (by omega) stays
              exact past (ih below' place' (by omega))
      · exact zero stays

include preprocessed sized traced in
/-- The next pc is a pc of the table. -/
theorem exists_nextPc {j : ℕ} (below : j < 2 ^ shape.logT) : ∃ n < 2 ^ 32, columns.nextPc j = ((n : ℕ) : F) := by
  rw [nextPc_eq traced below, pcAt]
  split
  · next below' =>
      rw [traced.fetch.pc _ below']
      cases place : tablePlace shape hots (j + 1) with
      | none => exact ⟨0, by omega, Nat.cast_zero.symm⟩
      | some k => exact ⟨k, place_lt preprocessed sized place, rfl⟩
  · exact ⟨0, by omega, Nat.cast_zero.symm⟩

include traced in
/-- The address of a cycle is zero or the one of the word that it picks. -/
theorem wordPlace_of_address (domain : shape.logK ≤ 40) {j : ℕ} (below : j < 2 ^ shape.logT) {x : ℕ} (small : x < 2 ^ 64)
    (address : columns.ram.ramAddress j = (x : F)) :
    (wordPlace shape hots j = none ∧ x = 0) ∨ ∃ k, wordPlace shape hots j = some k ∧ x = unmapWordAddress k := by
  have same := address.symm.trans (traced.memory.address j below)
  cases place : wordPlace shape hots j with
  | none =>
      rw [place, Option.elim_none] at same
      exact .inl ⟨rfl, natCast_inj_of_lt (F := F) (by omega) (by omega) (same.trans Nat.cast_zero.symm)⟩
  | some k =>
      have inside := (traced.accesses j below).inside k place
      have room : 2 ^ shape.logK ≤ 2 ^ 40 := Nat.pow_le_pow_right two_pos domain
      have word := unmapWordAddress_eq k
      rw [place, Option.elim_some, wordAddress_eq] at same
      exact .inr ⟨k, rfl, natCast_inj_of_lt (F := F) (by omega) (by omega) same⟩

/-- The target of an indirect jump is the next pc. -/
theorem jumpReg_target {z : Column → F} (h : Equations z) {rs : Reg} {m : Machine} {advice ramRead : U64}
    (fixed : FixedBy z (BytecodeRow.of (.jumpReg rs)) m.pc) (reads : ReadsOf z m (.jumpReg rs) ramRead)
    (lookup : LookupHolds (Ir.jumpReg rs).rowSpec.lookup advice z) : z .nextPc = ((m.regs rs).toNat : F) := by
  have flag : ∀ f, z (.flag f) = if (Ir.jumpReg rs).rowSpec.flags.has f then 1 else 0 := fixed.flag
  have operands : OperandFlagsOf z (.add .w64) := by
    refine ⟨fixed.const, ?_, ?_, ?_, ?_⟩ <;> rw [flag] <;> simp [Ir.rowSpec, AluOp.operandMode]
  have left : z .leftInput = ((m.regs rs).toNat : F) := by
    rw [h.leftInput_rs1 (by rw [flag]; simp [Ir.rowSpec]), reads.rs1 _ rfl]
  have right := h.rightInput_zero fixed.const (by rw [flag]; simp [Ir.rowSpec]) (by rw [flag]; simp [Ir.rowSpec])
  have output := lookupOutput_eq h operands left (y := 0) (by simpa using right) lookup
  rw [tableOutput_eq_evaluate _ _ _ (by simp [AluOp.readsBitmask]), AluOp.evaluate_add64] at output
  rw [h.nextPc_jump (by rw [flag]; simp [Ir.rowSpec]), output]
  simp

/-! ## One cycle -/

section

variable (domain : shape.logK ≤ 40) {j : ℕ} (below : j < 2 ^ shape.logT) {m : Machine} {instruction : Ir}
  (executes : Executes source shape hots j m.pc instruction) (holds : columns.Holds shape words bytecode.rows hots j m)

include preprocessed traced domain below executes holds

/-- A row with memory access that the machine has a word for picks this word. -/
theorem wordPlace_memory {base : Reg} (register : instruction.rowSpec.rs1 = some base)
    (memory : instruction.rowSpec.flags.has .load = true ∨ instruction.rowSpec.flags.has .store = true)
    {slot : Slot} (located : m.memory.locate (m.regs base + instruction.rowSpec.imm) = .ok slot) :
    ∃ k, wordPlace shape hots j = some k ∧ SumFits (m.regs base) instruction.rowSpec.imm ∧
      (m.regs base + instruction.rowSpec.imm).toNat = unmapWordAddress k := by
  have h := (satisfies_iff _).mp (traced.constraints j below)
  have fixed := fixedBy preprocessed traced below executes
  have reads := readsOf preprocessed traced below executes holds
  have flags : columns.cycle j (.flag .load) + columns.cycle j (.flag .store) = 1 := by
    have shaped := instruction.rowSpec_shaped
    have flag : ∀ f, columns.cycle j (.flag f) = if instruction.rowSpec.flags.has f then 1 else 0 := fixed.flag
    rw [flag, flag]
    cases load : instruction.rowSpec.flags.has .load with
    | true => simp [(shaped.loadStore load).1]
    | false => simp [memory.resolve_left (by simp [load])]
  have sum : ((m.regs base).toNat : F) + (instruction.rowSpec.imm.toInt : F) =
      (wordPlace shape hots j).elim 0 RamColumns.wordAddress := by
    have equation := h.ramAddress
    rw [flags, reads.rs1 base register, fixed.imm, immSigned_of_memory memory] at equation
    rw [← traced.memory.address j below]
    change 1 * (columns.ram.ramAddress j - _ - _) = 0 at equation
    linear_combination -equation
  rcases memory_address domain (traced.accesses j below).inside sum with ⟨-, zero⟩ | found
  · exact absurd located (m.memory.locate_zero zero)
  · exact found

include sized

/-- A row that the relations check is one that they are designed for, and the memory accepts its access. -/
theorem arithmetized_of_checked (wellFormed : source.WellFormed) (exported : source.exports ≠ [])
    (sound : ¬ m.Unchecked source.code) :
    instruction.Arithmetized m ∧ instruction.MemoryAccepts m (wordRead shape hots j m) := by
  have fetch := executes.fetch
  have rowWellFormed := (wellFormed_of_fetch wellFormed fetch).1
  have succ (jump : instruction.rowSpec.flags.has .jump = false) : m.pc.toNat + 1 < 2 ^ 32 :=
    pc_succ_fits wellFormed exported fetch jump
  -- The word that an access picks is the one that the machine reads there.
  have word {base : Reg} (register : instruction.rowSpec.rs1 = some base)
      (memory : instruction.rowSpec.flags.has .load = true ∨ instruction.rowSpec.flags.has .store = true)
      {slot : Slot} (located : m.memory.locate (m.regs base + instruction.rowSpec.imm) = .ok slot) :
      SumFits (m.regs base) instruction.rowSpec.imm ∧
        wordRead shape hots j m = m.memory.wordOf (m.regs base + instruction.rowSpec.imm).toNat := by
    obtain ⟨k, place, fits, address⟩ := wordPlace_memory preprocessed traced domain below executes holds register memory located
    rw [wordRead, place, address]
    exact ⟨fits, rfl⟩
  cases instruction with
  | nop => exact ⟨succ (by simp [Ir.rowSpec]), trivial⟩
  | halt => exact ⟨trivial, trivial⟩
  | trap => exact absurd (.trap fetch) sound
  | alu op rd rs1 rs2 =>
      refine ⟨⟨of_decide_eq_true (rowWellFormed (by simp)), fun reads => ?_, ?_⟩, trivial⟩
      · by_contra other
        exact sound (.bitmask fetch reads other)
      · exact succ (by cases rs2 <;> simp [Ir.rowSpec, rightOperand])
  | advice hint rd rs1 rs2 =>
      exact ⟨⟨of_decide_eq_true (rowWellFormed (by simp)), succ (by simp [Ir.rowSpec])⟩, trivial⟩
  | assert op failure rs1 rs2 =>
      have boolean := readsBitmask_of_boolean (rowWellFormed (by simp))
      refine ⟨⟨fun reads => ?_, succ (by cases rs2 <;> simp [Ir.rowSpec, rightOperand])⟩, trivial⟩
      rw [boolean] at reads
      cases reads
  | load rd base offset =>
      cases read : m.memory.readWord (m.regs base + offset) with
      | error trap => exact absurd (.load fetch read) sound
      | ok value =>
          obtain ⟨slot, located, -⟩ := except_bind_eq_ok.mp read
          obtain ⟨fits, same⟩ := word rfl (.inl (by simp [Ir.rowSpec])) located
          refine ⟨⟨of_decide_eq_true (rowWellFormed (by simp)), fits, succ (by simp [Ir.rowSpec])⟩, ?_⟩
          rw [same]
          exact read.trans (congrArg Except.ok (Memory.readWord_flat read).symm)
  | store base value offset =>
      cases wrote : m.memory.writeWord (m.regs base + offset) (m.regs value) with
      | error trap => exact absurd (.store fetch wrote) sound
      | ok result =>
          obtain ⟨previous, next⟩ := result
          obtain ⟨slot, located, -⟩ := except_bind_eq_ok.mp wrote
          obtain ⟨fits, same⟩ := word rfl (.inr (by simp [Ir.rowSpec])) located
          have keeps : ¬ m.memory.Shrinks (m.regs base + offset) (m.regs value) := fun shrinks => sound (.shrinks fetch shrinks)
          refine ⟨⟨fits, succ (by simp [Ir.rowSpec])⟩, next, ?_⟩
          rw [same]
          refine wrote.trans (congrArg (fun word => Except.ok (word, next)) ?_)
          exact (Memory.writeWord_flat holds.settled wrote keeps).2.1.symm
  | jump target => exact ⟨trivial, trivial⟩
  | jumpReg rs =>
      obtain ⟨n, small, next⟩ := exists_nextPc preprocessed sized traced below
      obtain ⟨x, inside, place⟩ := exists_lookupPlace sized traced below
      have target := jumpReg_target ((satisfies_iff _).mp (traced.constraints j below)) (fixedBy preprocessed traced below executes)
        (readsOf preprocessed traced below executes holds) (lookupHolds preprocessed sized traced below executes inside place)
      have bounded := (m.regs rs).isLt
      have same := natCast_inj_of_lt (F := F) (by omega) (by omega) (target.symm.trans next)
      exact ⟨same.trans_lt small, trivial⟩
  | branch op rs1 rs2 target =>
      have boolean := readsBitmask_of_boolean (rowWellFormed (by simp))
      refine ⟨⟨fun reads => ?_, fun _ => succ (by simp [Ir.rowSpec])⟩, trivial⟩
      rw [boolean] at reads
      cases reads

end

/-- The advice that the lookup of a cycle supplies. -/
def adviceAt (shape : ProofShape) (hots : JoltRaPolynomial → ℕ → Option ℕ) (j : ℕ) : U64 :=
  WasmTable.rangeCheck.materializeEntry (BitVec.ofNat 128 ((lookupPlace shape hots j).getD 0))

section

variable (domain : shape.logK ≤ 40) {j : ℕ} (below : j < 2 ^ shape.logT) {m next : Machine} {record : Record}
  (executes : Executes source shape hots j m.pc record.instruction)
  (holds : columns.Holds shape words bytecode.rows hots j m) (writes : WritesOf (columns.cycle j) record)
  (effects : m.Effects record next)

include preprocessed executes holds writes effects in
/-- The registers after a step. -/
theorem holds_regs (r : Reg) :
    lastWrite (fun _ => 0) (rdPlace shape bytecode.rows hots) columns.rdWriteValue (j + 1) r.val = ((next.regs r).toNat : F) := by
  have place : rdPlace shape bytecode.rows hots j = record.rd.map fun write => write.register.val := by
    rw [rdPlace, registerPlace_eq preprocessed executes BytecodeRow.rd rfl, ← effects.rd,
      Option.map_map]
    rfl
  rw [lastWrite, place, effects.regs]
  cases written : record.rd with
  | none =>
      rw [Option.map_none, if_neg (Option.some_ne_none _).symm]
      exact holds.regs r
  | some write =>
      rw [Option.map_some, Machine.written, Function.update_apply]
      by_cases here : r = write.register
      · subst here
        rw [if_pos rfl, if_pos rfl]
        exact writes.rd write written
      · rw [if_neg here, if_neg fun same => here (Fin.ext (Option.some.inj same).symm)]
        exact holds.regs r

include traced domain below holds writes effects in
/-- The words after a step, and the bytes past the backing store. -/
theorem holds_words (keeps : ∀ address preValue postValue, record.ram = .write address preValue postValue →
      ¬ m.memory.Shrinks address postValue) :
    next.memory.Settled ∧ ∀ k < 2 ^ shape.logK,
      lastWrite words (wordPlace shape hots) columns.ram.ramWriteValue (j + 1) k =
        ((next.memory.wordOf (unmapWordAddress k)).toNat : F) := by
  have ram := writes.ram
  have leads := effects.ram
  have picks {address : U64} (value : columns.cycle j .ramAddress = (address.toNat : F)) {slot : Slot}
      (located : m.memory.locate address = .ok slot) : ∃ k, wordPlace shape hots j = some k ∧ address.toNat = unmapWordAddress k :=
    (wordPlace_of_address traced domain below address.isLt value).resolve_left fun missed =>
      m.memory.locate_zero (BitVec.eq_of_toNat_eq missed.2) located
  have injective {i k : ℕ} (same : unmapWordAddress i = unmapWordAddress k) : i = k := by
    rw [unmapWordAddress_eq, unmapWordAddress_eq] at same
    omega
  cases access : record.ram with
  | noOp =>
      rw [access] at ram leads
      have none_ : wordPlace shape hots j = none := by
        rcases wordPlace_of_address traced domain below (x := 0) (by omega) (Eq.trans ram Nat.cast_zero.symm) with
          ⟨place, -⟩ | ⟨k, -, word⟩
        · exact place
        · rw [unmapWordAddress_eq] at word
          omega
      refine ⟨leads.symm ▸ holds.settled, fun k inside => ?_⟩
      rw [lastWrite, none_, if_neg (Option.some_ne_none _).symm, leads]
      exact holds.ram k inside
  | read address value =>
      rw [access] at ram leads
      obtain ⟨read, same⟩ := leads
      obtain ⟨slot, located, -⟩ := except_bind_eq_ok.mp read
      obtain ⟨here, place, word⟩ := picks ram.1 located
      refine ⟨same.symm ▸ holds.settled, fun k inside => ?_⟩
      rw [lastWrite, place, same]
      split_ifs with hit
      · obtain rfl := Option.some.inj hit
        rw [← word, Memory.readWord_flat read]
        exact ram.2
      · exact holds.ram k inside
  | write address preValue postValue =>
      rw [access] at ram leads
      obtain ⟨slot, located, -⟩ := except_bind_eq_ok.mp leads
      obtain ⟨here, place, word⟩ := picks ram.1 located
      obtain ⟨settled, -, after⟩ := Memory.writeWord_flat holds.settled leads (keeps _ _ _ access)
      refine ⟨settled, fun k inside => ?_⟩
      have room : 2 ^ shape.logK ≤ 2 ^ 40 := Nat.pow_le_pow_right two_pos domain
      have address' := unmapWordAddress_eq k
      rw [lastWrite, place, after _ (by omega) (by omega)]
      by_cases hit : here = k
      · subst hit
        rw [if_pos rfl, if_pos word.symm]
        exact ram.2
      · rw [if_neg fun same => hit (Option.some.inj same), if_neg fun same => hit (injective (word.symm.trans same.symm))]
        exact holds.ram k inside

end

include preprocessed sized traced in
/-- A cycle that picks a row of the code is a step of the machine, unless its state is not checked. -/
theorem step_holds (domain : shape.logK ≤ 40) (wellFormed : source.WellFormed) (exported : source.exports ≠ []) {j : ℕ}
    (below : j < 2 ^ shape.logT) {m : Machine} (holds : columns.Holds shape words bytecode.rows hots j m) {instruction : Ir}
    (executes : Executes source shape hots j m.pc instruction) (sound : ¬ m.Unchecked source.code) :
    ∃ record next, Machine.stepWith (constantProver (adviceAt shape hots j)) source.code m = .ok (record, next) ∧
      columns.Holds shape words bytecode.rows hots (j + 1) next := by
  obtain ⟨x, inside, place⟩ := exists_lookupPlace sized traced below
  have advice : adviceAt shape hots j = WasmTable.rangeCheck.materializeEntry (BitVec.ofNat 128 x) := by
    rw [adviceAt, place, Option.getD_some]
  obtain ⟨arithmetized, memory⟩ :=
    arithmetized_of_checked preprocessed sized traced domain below executes holds wellFormed exported sound
  obtain ⟨record, next, stepped, writes⟩ := row_writes executes.fetch (fixedBy preprocessed traced below executes)
    (readsOf preprocessed traced below executes holds) (lookupHolds preprocessed sized traced below executes inside place)
    ((satisfies_iff _).mp (traced.constraints j below)) arithmetized memory
  have effects := Machine.effects_of_step stepped
  obtain ⟨fetch, -, nextPc⟩ := Machine.stepWith_ok stepped
  obtain rfl : record.instruction = instruction := Option.some.inj (fetch.symm.trans executes.fetch)
  have keeps : ∀ address preValue postValue, record.ram = .write address preValue postValue →
      ¬ m.memory.Shrinks address postValue := fun address preValue postValue access shrinks => by
    obtain ⟨base, value, offset, row, rfl, rfl⟩ := effects.store address preValue postValue access
    exact sound (.shrinks (row ▸ fetch) shrinks)
  obtain ⟨settled, ram⟩ := holds_words traced domain below holds writes effects keeps
  refine ⟨record, next, advice ▸ stepped, holds_regs preprocessed executes holds writes effects, ram, settled, ?_⟩
  rw [← nextPc_eq traced below, ← nextPc]
  exact writes.nextPc

include sized traced in
/-- The accesses pick a row in every cycle when their chunks tile the table. -/
theorem exists_tablePlace (tiles : shape.committedChunkBits ∣ bytecode.logSize) {j : ℕ} (below : j < 2 ^ shape.logT) :
    tablePlace shape hots j ≠ none := by
  have listed {i : ℕ} (inside : i < chunkCount bytecode.logSize shape.committedChunkBits) :
      JoltRaPolynomial.bytecode i ∈ shape.booleanity.layout.polynomials :=
    shape.booleanity.layout.bytecode_mem (by rwa [ProofShape.booleanity, sized.layout])
  obtain ⟨k, -, place⟩ := accessedPlace_of_dvd sized.positive tiles
    (fun i inside => (traced.hot.hot _ (listed inside) j below).inside) fun i inside => by
      have weight := traced.hot.weight _ (listed inside) j below
      by_contra cold
      rw [if_neg cold] at weight
      exact one_ne_zero weight
  rw [tablePlace, sized.bytecode]
  exact place ▸ Option.some_ne_none k

include traced in
/-- A cycle that picks no row is empty: it goes from pc zero to pc one and writes nothing. -/
theorem empty_holds (domain : shape.logK ≤ 40) {j : ℕ} (below : j < 2 ^ shape.logT) {m : Machine}
    (holds : columns.Holds shape words bytecode.rows hots j m) (missed : tablePlace shape hots j = none) :
    m.pc = 0 ∧ columns.Holds shape words bytecode.rows hots (j + 1) { m with pc := 1 } := by
  have h := (satisfies_iff _).mp (traced.constraints j below)
  have off (f : RowFlag) : columns.cycle j (.flag f) = 0 := (traced.fetch.flag f j below).trans (by rw [missed, Option.elim_none])
  have pc : columns.pc j = 0 := by rw [traced.fetch.pc j below, missed, Option.elim_none]
  have none_ : wordPlace shape hots j = none := by
    have zero : columns.ram.ramAddress j = 0 := h.ramAddress_noOp rfl (off .load) (off .store)
    rcases wordPlace_of_address traced domain below (x := 0) (by omega) (zero.trans Nat.cast_zero.symm) with
      ⟨place, -⟩ | ⟨k, -, word⟩
    · exact place
    · rw [unmapWordAddress_eq] at word
      omega
  refine ⟨?_, fun r => ?_, fun k inside => ?_, holds.settled, ?_⟩
  · have bounded := m.pc.isLt
    have here := holds.pc
    rw [pcAt, if_pos below, pc] at here
    exact BitVec.eq_of_toNat_eq (natCast_inj_of_lt (F := F) (by omega) (by decide) (here.symm.trans Nat.cast_zero.symm))
  · have place : rdPlace shape bytecode.rows hots j = none := by
      rw [rdPlace, missed]
      rfl
    rw [lastWrite, place, if_neg (Option.some_ne_none _).symm]
    exact holds.regs r
  · rw [lastWrite, none_, if_neg (Option.some_ne_none _).symm]
    exact holds.ram k inside
  · have next : columns.nextPc j = columns.pc j + 1 := h.nextPc_fallThrough rfl (off .branch) (off .jump) (off .halt)
    rw [← nextPc_eq traced below, next, pc, zero_add]
    exact Nat.cast_one.symm

/-! ## Runs -/

include preprocessed sized traced in
/-- The cycles follow the machine until one is at a state that is not checked. -/
theorem follows_of_traced (domain : shape.logK ≤ 40) (wellFormed : source.WellFormed) (exported : source.exports ≠ [])
    {start : Machine} (initially : columns.Holds shape words bytecode.rows hots 0 start) {j : ℕ} (within : j ≤ 2 ^ shape.logT) :
    (∃ i < j, ∃ m, m.Unchecked source.code ∧
      start.Follows source.code (¬shape.committedChunkBits ∣ bytecode.logSize) (adviceAt shape hots) i m) ∨
    ∃ m, start.Follows source.code (¬shape.committedChunkBits ∣ bytecode.logSize) (adviceAt shape hots) j m ∧
      columns.Holds shape words bytecode.rows hots j m := by
  induction j with
  | zero => exact .inr ⟨start, .start, initially⟩
  | succ j ih =>
      have below : j < 2 ^ shape.logT := within
      rcases ih below.le with ⟨i, less, found⟩ | ⟨m, follows, holds⟩
      · exact .inl ⟨i, less.trans (Nat.lt_succ_self j), found⟩
      cases place : tablePlace shape hots j with
      | none =>
          have gap : ¬shape.committedChunkBits ∣ bytecode.logSize := fun tiles => exists_tablePlace sized traced tiles below place
          obtain ⟨halted, after⟩ := empty_holds traced domain below holds place
          exact .inr ⟨_, .empty follows gap halted, after⟩
      | some k =>
          have inside := place_inside preprocessed sized traced below place
          have executes := executes_of_place preprocessed traced below holds place (List.getElem?_eq_getElem inside)
          by_cases unchecked : m.Unchecked source.code
          · exact .inl ⟨j, Nat.lt_succ_self j, m, unchecked, follows⟩
          · obtain ⟨record, next, stepped, after⟩ :=
              step_holds preprocessed sized traced domain wellFormed exported below holds executes unchecked
            exact .inr ⟨next, .step follows stepped, after⟩

end Stages.TraceColumns

/-! ## Accepted proofs -/

/-- The entry is one of the table, and the RAM domain is within the largest of the program's limits. -/
theorem validateInputsFromParts_full {preprocessing : WasmProgramPreprocessing} {io : PublicIo} {traceLength ramK : ℕ}
    {checked : CheckedInputs} (validated : validateInputsFromParts (.full preprocessing) io traceLength ramK = .ok checked) :
    preprocessing.bytecode.entry io.entry = some checked.entryPc ∧
      ∃ max, maxRamK preprocessing.memory = .ok max ∧ checked.ramK ≤ max := by
  unfold validateInputsFromParts at validated
  split at validated
  · next entryPc found =>
      obtain ⟨-, validated⟩ := except_check_eq_ok.mp validated
      obtain ⟨-, validated⟩ := except_check_eq_ok.mp validated
      obtain ⟨-, validated⟩ := except_check_eq_ok.mp validated
      obtain ⟨min, -, validated⟩ := except_bind_eq_ok.mp validated
      obtain ⟨max, isMax, validated⟩ := except_bind_eq_ok.mp validated
      obtain ⟨domain, validated⟩ := except_check_eq_ok.mp validated
      simp only [Bool.or_eq_true, Bool.not_eq_true', decide_eq_true_eq, not_or, Bool.not_eq_false] at domain
      cases validated
      exact ⟨found, max, isMax, Nat.not_lt.mp domain.2⟩
  · cases validated

theorem ramDomain_le {program : IrProgram} (wellFormed : program.WellFormed) : program.ramDomain ≤ 2 ^ 40 := by
  have cap : program.memory.maxPages ≤ 65536 := wellFormed.memory.2
  have end_ : ramEnd program.memory.maxPages = 0x90124000 + 2 * (program.memory.maxPages * 65536) + 8 := rfl
  refine nextPowerOfTwo_le 40 ?_
  rw [wordIndex_eq, end_]
  omega

theorem WasmBytecode.exports_ne_nil {source : IrProgram} {bytecode : WasmBytecode} (preprocessed : preprocess source = .ok bytecode)
    {name : String} {pc : Pc} (found : bytecode.entry name = some pc) : source.exports ≠ [] := by
  intro empty
  obtain ⟨-, -, -, listed⟩ := preprocess_ok preprocessed
  rw [empty, preprocessEntries] at listed
  rw [entry, ← Except.ok.inj listed] at found
  cases found

namespace Stages

section

variable {F : Type} [WideField F] {columns : TraceColumns F} {shape : ProofShape} {source : IrProgram}
  (wellFormed : source.WellFormed) {machine : Machine} (created : Machine.new source = .ok machine) {maxTraceLength : ℕ}
  {preprocessing : WasmProgramPreprocessing}
  (preprocessed : WasmProgramPreprocessing.new source maxTraceLength = .ok preprocessing) {io : PublicIo}
  {memory : Memory} (entered : Machine.writeInputs 0 io.inputs machine.memory = .ok memory)

include wellFormed created preprocessed entered in
/-- The memory with the inputs is the public initial memory. -/
theorem initialVector_memory (fit : source.GlobalsFit) (fits : io.inputs.length ≤ maxInputWords) :
    memory.Settled ∧ ∀ k, (initialVector preprocessing io.inputs k : F) = ((memory.wordOf (unmapWordAddress k)).toNat : F) := by
  obtain ⟨linear, new, zero, cells⟩ := new_memory wellFormed created
  rw [writeInputs_eq machine.memory (by rwa [Nat.zero_add])] at entered
  obtain rfl := Except.ok.inj entered
  rw [new]
  refine ⟨fun i past => zero i ?_, fun k => ?_⟩
  · change (source.memory.initialPages * pageSize + wasmWordBytes) / 4 * 4 ≤ i at past
    have words : wasmWordBytes = 4 := rfl
    rw [words] at past
    rw [IrProgram.initialBytes]
    omega
  · have aligned : unmapWordAddress k % 8 = 0 := by
      rw [unmapWordAddress_eq]
      omega
    rw [initialVector, (initialMemory_words cells fits preprocessed).2, getD_eq_wordOf wellFormed zero cells fit fits aligned]

variable {traceLength ramK : ℕ} {checked : CheckedInputs}
  (validated : validateInputsFromParts (.full preprocessing) io traceLength ramK = .ok checked)
  {config : FiatShamir.JoltOneHotConfig} {readWrite : JoltReadWriteConfig}
  (from_ : shape.From config readWrite checked preprocessing.bytecode) {initial : InitialEvaluations F}
  (opened : initial.OfFull checked preprocessing)

end

end Stages

end JoltWasm
