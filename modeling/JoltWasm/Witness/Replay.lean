import JoltWasm.Backend.Effects
import JoltWasm.Program.Completeness
import JoltWasm.Program.ExecutableSpec
import JoltWasm.Program.FlatMemory
import JoltWasm.Program.RamDomain
import JoltWasm.Witness.Oracle

/-!
# Replays of a run

The rows of a halting run, with the padding after them, are the steps of one machine that never stops: the padding is
what the machine does at the halt row.  Replaying the rows over words and registers gives the machine's states back.
-/

namespace JoltWasm

open Lib Layout

/-! ## Runs without end -/

namespace Machine

/-- A run without end: each record is that of the step from its state. -/
def Endless (code : List Ir) (states : ℕ → Machine) (records : ℕ → Record) : Prop :=
  ∀ j, step code (states j) = .ok (records j, states (j + 1))

/-- A halting run goes on at the halt row. -/
theorem run_endless {code : List Ir} (single : ∀ pc : ℕ, code[pc]? = some .halt → pc = 0)
    {limit fuel : ℕ} {m last : Machine} {records : List Record} (ran : run code limit fuel m = .ok (records, last)) :
    ∃ states : ℕ → Machine, Endless code states (fun j => records.getD j paddingRecord) ∧ states 0 = m ∧
      (∀ j, records.length ≤ j → states j = last) ∧ (∀ j < records.length, Visits code m (states j)) ∧ last.pc = 0 := by
  induction fuel generalizing m records with
  | zero => cases ran
  | succ fuel ih =>
      obtain ⟨record, next, stepped, ⟨halts, rfl, rfl⟩ | ⟨goes, rest, rfl, tail⟩⟩ := run_ok ran
      · -- The last step is already one of the padding.
        obtain ⟨fetch, -, -⟩ := stepWith_ok stepped
        rw [halts] at fetch
        have zero : m.pc = 0 := BitVec.eq_of_toNat_eq (single _ fetch)
        rw [step, stepWith_halt _ fetch] at stepped
        cases stepped
        refine ⟨fun _ => last, fun j => ?_, rfl, fun _ _ => rfl, fun _ _ => .start, zero⟩
        refine (stepWith_halt _ fetch).trans (congrArg (fun record => Except.ok (record, last)) ?_)
        rw [zero]
        cases j <;> rfl
      · obtain ⟨states, steps, start, after, visits, halted⟩ := ih tail
        refine ⟨fun j => j.casesOn m states, fun j => ?_, rfl, fun j past => ?_, fun j inside => ?_, halted⟩
        · cases j with
          | zero => exact stepped.trans (by rw [← start]; rfl)
          | succ j => exact steps j
        · cases j with
          | zero => cases past
          | succ j => exact after j (Nat.le_of_succ_le_succ past)
        · cases j with
          | zero => exact .start
          | succ j => exact (visits j (Nat.lt_of_succ_lt_succ inside)).after stepped goes

end Machine

/-! ## What a row holds of its record -/

/-- The word before and after an access, zero without one. -/
def RamAccess.before : RamAccess → U64
  | read _ value => value
  | write _ preValue _ => preValue
  | noOp => 0

def RamAccess.after : RamAccess → U64
  | read _ value => value
  | write _ _ postValue => postValue
  | noOp => 0

/-- The access of a row and the value before its write are those of its record. -/
structure AccessOf (row : WasmTraceRow) (record : Record) : Prop where
  address : Extract.ramAccessAddress row = record.ram.accessed
  read : row.ramReadValue = record.ram.before
  write : row.ramWriteValue = record.ram.after
  pre : row.rdPreValue = record.rdPre

theorem accessOf_fromRecord {record : Record} {row : WasmTraceRow} (made : WasmTraceRow.fromRecord record = .ok row) :
    AccessOf row record := by
  unfold WasmTraceRow.fromRecord at made
  obtain ⟨same, made⟩ := except_check_eq_ok.mp made
  obtain ⟨slots, found, made⟩ := except_bind_eq_ok.mp made
  cases made
  have shaped := record.instruction.rowSpec_shaped
  have rd := (Prod.mk.inj (Prod.mk.inj (not_not.mp same)).2).2
  unfold WasmTraceRow.slotsOf at found
  generalize record.instruction.rowSpec = spec at shaped rd found ⊢
  cases load : spec.flags.has .load with
  | true =>
      have store := (shaped.loadStore load).1
      cases access : record.ram with
      | read address value =>
          simp only [load, access, if_true] at found
          split_ifs at found with equal
          cases found
          have value_ := not_not.mp equal
          constructor <;> simp [Extract.ramAccessAddress, WasmTraceRow.isLoad, WasmTraceRow.isStore, WasmTraceRow.fromParts,
            WasmTraceRow.ramAddress, WasmTraceRow.ramReadValue, WasmTraceRow.ramWriteValue, WasmTraceRow.rdPreValue,
            RamAccess.accessed, RamAccess.before, RamAccess.after, access, load, store, value_]
      | _ => simp [load, access] at found
  | false =>
      cases store : spec.flags.has .store with
      | true =>
          have pre : record.rdPre = 0 := by
            rw [shaped.storeWrite store, Option.map_eq_none_iff] at rd
            simp [Record.rdPre, rd]
          cases access : record.ram with
          | write address preValue postValue =>
              simp only [load, store, access, Bool.false_eq_true, if_true, if_false] at found
              split_ifs at found with equal
              cases found
              have value_ := not_not.mp equal
              constructor <;> simp [Extract.ramAccessAddress, WasmTraceRow.isLoad, WasmTraceRow.isStore, WasmTraceRow.fromParts,
                WasmTraceRow.ramAddress, WasmTraceRow.ramReadValue, WasmTraceRow.ramWriteValue, WasmTraceRow.rdPreValue,
                RamAccess.accessed, RamAccess.before, RamAccess.after, access, load, store, pre, value_]
          | _ => simp [load, store, access] at found
      | false =>
          cases access : record.ram with
          | noOp =>
              simp [load, store, access] at found
              cases found
              constructor <;> simp [Extract.ramAccessAddress, WasmTraceRow.isLoad, WasmTraceRow.isStore, WasmTraceRow.fromParts,
                WasmTraceRow.ramReadValue, WasmTraceRow.ramWriteValue, WasmTraceRow.rdPreValue, RamAccess.accessed,
                RamAccess.before, RamAccess.after, access, load, store]
          | _ => simp [load, store, access] at found

/-! ## Replays -/

/-- The rows replay words and registers: a read finds what is there, and a write leaves its value. -/
structure Replay (ramK : ℕ) (rows : ℕ → WasmTraceRow) (words : ℕ → ℕ → U64) (regs : ℕ → Reg → U64) : Prop where
  access : ∀ j address, Extract.ramAccessAddress (rows j) = some address → ∃ k < ramK, remapWordAddress address.toNat = some k
  read : ∀ j k, Extract.remappedRamAddress (rows j) = some k → (rows j).ramReadValue = words j k
  write : ∀ j, ∀ k < ramK, words (j + 1) k =
    if Extract.remappedRamAddress (rows j) = some k then (rows j).ramWriteValue else words j k
  rs1 : ∀ j, (rows j).rs1Value = (rows j).rs1Index.elim 0 (regs j)
  rs2 : ∀ j, (rows j).rs2Value = (rows j).rs2Index.elim 0 (regs j)
  rdPre : ∀ j r, (rows j).rdIndex = some r → (rows j).rdPreValue = regs j r
  rdNone : ∀ j, (rows j).rdIndex = none → (rows j).rdWriteValue = 0
  regs : ∀ j r, regs (j + 1) r = if (rows j).rdIndex = some r then (rows j).rdWriteValue else regs j r

/-- An address that has a word index is the address of the word. -/
theorem address_of_remap {address k : ℕ} (remapped : remapWordAddress address = some k) : address = unmapWordAddress k := by
  unfold remapWordAddress at remapped
  split_ifs at remapped with outside
  cases remapped
  change ¬(address < 0x90000000 ∨ address % 8 ≠ 0) at outside
  rw [unmapWordAddress_eq]
  change address = 0x90000000 + 8 * ((address - 0x90000000) / 8)
  omega

theorem registerOfId_registerId (reg : Option Reg) : registerOfId (registerId reg) = reg := by
  cases reg with
  | none => rfl
  | some r =>
      have small : r.val < registerCount := r.isLt
      have count : registerCount < registerNone := by decide
      rw [registerId, registerOfId, if_pos (by omega), dif_pos small]

/-- The registers of a row are those of its record. -/
theorem Converted.registerIndex {row : WasmTraceRow} {record : Record} {spec : RowSpec} (converted : Converted row record spec) :
    row.rs1Index = record.rs1.map RegisterRead.register ∧ row.rs2Index = record.rs2.map RegisterRead.register ∧
      row.rdIndex = record.rd.map RegisterWrite.register := by
  obtain ⟨rs1, rs2, rd⟩ := converted.registers
  have static := converted.static
  refine ⟨?_, ?_, ?_⟩
  · rw [rs1, ← registerOfId_registerId spec.rs1]
    exact congrArg (fun row => registerOfId row.rs1) static
  · rw [rs2, ← registerOfId_registerId spec.rs2]
    exact congrArg (fun row => registerOfId row.rs2) static
  · rw [rd, ← registerOfId_registerId spec.rd]
    exact congrArg (fun row => registerOfId row.rd) static

section

variable {code : List Ir} {states : ℕ → Machine} {records : ℕ → Record} {rows : ℕ → WasmTraceRow}
  (steps : Machine.Endless code states records) (made : ∀ j, WasmTraceRow.fromRecord (records j) = .ok (rows j))
  (settled : (states 0).memory.Settled)
  (grows : ∀ j address preValue postValue, (records j).ram = .write address preValue postValue →
    ¬ (states j).memory.Shrinks address postValue)

include steps settled grows

/-- The memory after a step that does not take its backing store away. -/
theorem Machine.Endless.stays_settled (j : ℕ) : (states j).memory.Settled := by
  induction j with
  | zero => exact settled
  | succ j ih =>
      have leads := (Machine.effects_of_step (steps j)).ram
      cases access : (records j).ram with
      | noOp =>
          rw [access] at leads
          exact leads.symm ▸ ih
      | read address value =>
          rw [access] at leads
          exact leads.2.symm ▸ ih
      | write address preValue postValue =>
          rw [access] at leads
          exact (Memory.writeWord_flat ih leads (grows j _ _ _ access)).1

include made

/-- The rows of a run replay its words and registers. -/
theorem Machine.Endless.replay {ramK : ℕ} (domain : ramK ≤ 2 ^ 40) (below : ∀ j, (records j).RamBelow ramK) :
    Replay ramK rows (fun j k => (states j).memory.wordOf (unmapWordAddress k)) fun j => (states j).regs := by
  have settled := steps.stays_settled settled grows
  have accessOf (j : ℕ) := accessOf_fromRecord (made j)
  have converted (j : ℕ) := converted_of_fromRecord (made j)
  have effects (j : ℕ) := Machine.effects_of_step (steps j)
  have reads (j : ℕ) := Machine.reads_of_step (steps j)
  have injective {i k : ℕ} (same : unmapWordAddress i = unmapWordAddress k) : i = k := by
    rw [unmapWordAddress_eq, unmapWordAddress_eq] at same
    omega
  refine ⟨fun j address accessed => ?_, fun j k place => ?_, fun j k inside => ?_, fun j => ?_, fun j => ?_, fun j r write => ?_,
    fun j none_ => ?_, fun j r => ?_⟩
  · rw [(accessOf j).address] at accessed
    obtain ⟨k, remapped, inside⟩ := below j address accessed
    exact ⟨k, inside, remapped⟩
  · obtain ⟨address, accessed, remapped⟩ := Option.bind_eq_some_iff.mp place
    rw [(accessOf j).address] at accessed
    rw [(accessOf j).read, ← address_of_remap remapped]
    have leads := (effects j).ram
    cases access : (records j).ram with
    | noOp =>
        rw [access] at accessed
        cases accessed
    | read address' value =>
        rw [access] at accessed leads
        cases accessed
        exact (Memory.readWord_flat leads.1).symm
    | write address' preValue postValue =>
        rw [access] at accessed leads
        cases accessed
        exact (Memory.writeWord_flat (settled j) leads (grows j _ _ _ access)).2.1.symm
  · have leads := (effects j).ram
    have accessed := (accessOf j).address
    have room := unmapWordAddress_eq k
    rw [(accessOf j).write, Extract.remappedRamAddress, accessed]
    cases access : (records j).ram with
    | noOp =>
        rw [access] at leads
        rw [leads]
        exact (if_neg (Option.some_ne_none _).symm).symm
    | read address value =>
        rw [access] at leads
        obtain ⟨k', remapped, -⟩ := below j address (by rw [access]; rfl)
        rw [RamAccess.accessed, Option.bind_some, remapped, leads.2]
        split_ifs with here
        · cases here
          rw [← address_of_remap remapped]
          exact Memory.readWord_flat leads.1
        · rfl
    | write address preValue postValue =>
        rw [access] at leads
        obtain ⟨k', remapped, -⟩ := below j address (by rw [access]; rfl)
        obtain ⟨-, -, after⟩ := Memory.writeWord_flat (settled j) leads (grows j _ _ _ access)
        rw [RamAccess.accessed, Option.bind_some, remapped, after _ (by omega) (by omega), address_of_remap remapped]
        refine if_congr ⟨fun same => ?_, fun same => ?_⟩ rfl rfl
        · rw [injective same]
        · rw [Option.some.inj same]
  · rw [(converted j).rs1, (converted j).registerIndex.1, Record.rs1Value]
    cases read : (records j).rs1 with
    | none => rfl
    | some read_ => exact (reads j).rs1 read_ read
  · rw [(converted j).rs2, (converted j).registerIndex.2.1, Record.rs2Value]
    cases read : (records j).rs2 with
    | none => rfl
    | some read_ => exact (reads j).rs2 read_ read
  · rw [(converted j).registerIndex.2.2] at write
    obtain ⟨write_, found, rfl⟩ := Option.map_eq_some_iff.mp write
    rw [(accessOf j).pre, Record.rdPre, found]
    exact (reads j).rd write_ found
  · rw [(converted j).registerIndex.2.2, Option.map_eq_none_iff] at none_
    rw [(converted j).rd, Record.rdWrite, none_]
    rfl
  · rw [(converted j).registerIndex.2.2, (converted j).rd, (effects j).regs, Record.rdWrite]
    cases write : (records j).rd with
    | none => exact (if_neg (Option.some_ne_none _).symm).symm
    | some write_ =>
        rw [Machine.written, Function.update_apply, Option.map_some]
        exact if_congr ⟨fun same => congrArg some same.symm, fun same => (Option.some.inj same).symm⟩ rfl rfl

end

end JoltWasm
