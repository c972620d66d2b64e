import JoltWasm.Program.FlatMemory
import JoltWasm.Program.TraceColumns
import JoltWasm.Tables.LookupBits

/-!
# The cycles of traced columns

What the columns of a cycle are, when its accesses pick a row of the code: the row fixes the flags, the immediate and
the pc, the reads are those of the machine that holds the columns' state, and the lookup is one of the row's table.
-/

namespace JoltWasm

open Lib Layout

/-! ## Places that chunks always have -/

theorem joinChunks_isSome {bits : ℕ} {digits : List (Option ℕ)} (all : ∀ digit ∈ digits, digit.isSome) :
    (joinChunks bits digits).isSome := by
  have loop (start : ℕ) : (digits.foldl (fun place digit => do return (← place) * 2 ^ bits + (← digit)) (some start)).isSome := by
    induction digits generalizing start with
    | nil => rfl
    | cons digit digits ih =>
        obtain ⟨v, rfl⟩ := Option.isSome_iff_exists.mp (all digit List.mem_cons_self)
        exact ih (fun digit member => all digit (List.mem_cons_of_mem _ member)) _
  exact loop 0

/-- Hot chunks that tile an address have a place. -/
theorem accessedPlace_of_dvd {width bits : ℕ} (positive : 0 < bits) (tiles : bits ∣ width) {digits : ℕ → Option ℕ}
    (small : ∀ i < chunkCount width bits, ∀ v ∈ digits i, v < 2 ^ bits)
    (all : ∀ i < chunkCount width bits, (digits i).isSome) : ∃ k < 2 ^ width, accessedPlace width bits digits = some k := by
  obtain ⟨count, rfl⟩ := tiles
  have chunks : chunkCount (bits * count) bits = count := by
    rw [chunkCount, Nat.add_sub_assoc positive, Nat.mul_add_div positive, Nat.div_eq_of_lt (by omega), Nat.add_zero]
  have joined : (joinChunks bits ((List.range (chunkCount (bits * count) bits)).map digits)).isSome :=
    joinChunks_isSome fun digit member => by
      obtain ⟨i, inside, rfl⟩ := List.mem_map.mp member
      exact all i (List.mem_range.mp inside)
  obtain ⟨k, here⟩ := Option.isSome_iff_exists.mp joined
  have below := ((joinChunks_eq_some small).mp here).1
  rw [chunks, Nat.mul_comm] at below
  exact ⟨k, below, Option.filter_eq_some_iff.mpr ⟨here, decide_eq_true below⟩⟩

namespace Stages.TraceColumns

variable {F : Type} [WideField F] {columns : TraceColumns F} {shape : ProofShape} {words : ℕ → F} {io : PublicIo}
  {source : IrProgram} {bytecode : WasmBytecode} (preprocessed : WasmBytecode.preprocess source = .ok bytecode)
  {checked : CheckedInputs} {virtualRaPolys : ℕ} (sized : shape.Sized checked bytecode virtualRaPolys) {entry : ℕ}
  {hots : JoltRaPolynomial → ℕ → Option ℕ} (traced : columns.Traced shape words io bytecode.rows entry hots)

/-- The row that a cycle picks, with its instruction. -/
structure Executes (source : IrProgram) (shape : ProofShape) (hots : JoltRaPolynomial → ℕ → Option ℕ) (j : ℕ) (pc : Pc)
    (instruction : Ir) : Prop where
  place : tablePlace shape hots j = some pc.toNat
  fetch : source.code[pc.toNat]? = some instruction

section

variable {j : ℕ} (below : j < 2 ^ shape.logT) {pc : Pc} {instruction : Ir}
  (executes : Executes source shape hots j pc instruction)

include preprocessed in
theorem Executes.row (executes : Executes source shape hots j pc instruction) :
    rowAt bytecode.rows pc.toNat = BytecodeRow.of instruction := by
  rw [WasmBytecode.rowAt_eq preprocessed, executes.fetch, Option.getD_some]

include preprocessed traced below executes in
/-- The row fixes the columns that the constraints take as given. -/
theorem fixedBy : FixedBy (columns.cycle j) (BytecodeRow.of instruction) pc := by
  have row := executes.row preprocessed
  refine ⟨rfl, fun f => ?_, ?_, ?_⟩
  · exact (traced.fetch.flag f j below).trans (by rw [executes.place, Option.elim_some, row])
  · exact (traced.fetch.imm j below).trans (by rw [executes.place, Option.elim_some, row])
  · exact (traced.fetch.pc j below).trans (by rw [executes.place, Option.elim_some])

omit [WideField F] in
include preprocessed executes in
/-- The registers that the row names are those of the places. -/
theorem registerPlace_eq (register : BytecodeRow → ℕ) {reg : Option Reg}
    (names : register (BytecodeRow.of instruction) = registerId reg) :
    registerPlace bytecode.rows register (tablePlace shape hots j) = reg.map Fin.val := by
  rw [registerPlace, executes.place, Option.map_some, executes.row preprocessed, names]
  cases reg with
  | none => rfl
  | some r =>
      have small : r.val < laneRegisterCount := r.isLt.trans_le (by decide)
      exact Option.filter_eq_some_iff.mpr ⟨rfl, decide_eq_true small⟩

end

/-! ## The lookup of a cycle -/

include sized traced in
/-- Every cycle has a place in the lookup tables. -/
theorem exists_lookupPlace {j : ℕ} (below : j < 2 ^ shape.logT) :
    ∃ x < 2 ^ (2 * xlen), lookupPlace shape hots j = some x := by
  have listed {i : ℕ} (inside : i < chunkCount (2 * xlen) shape.committedChunkBits) :
      JoltRaPolynomial.instruction i ∈ shape.booleanity.layout.polynomials :=
    shape.booleanity.layout.instruction_mem (by rwa [ProofShape.booleanity, sized.layout])
  refine accessedPlace_of_dvd sized.positive ?_ (fun i inside => (traced.hot.hot _ (listed inside) j below).inside)
    fun i inside => ?_
  · rw [← sized.tiles, ← Nat.mul_assoc]
    exact Nat.dvd_mul_left _ _
  · have weight := traced.hot.weight _ (listed inside) j below
    by_contra cold
    rw [if_neg cold] at weight
    exact one_ne_zero weight

omit [WideField F] in
theorem index_eq_iff {table other : WasmTable} : table.index = other.index ↔ other = table := by
  refine ⟨fun same => ?_, fun same => congrArg WasmTable.index same.symm⟩
  have found := WasmTable.fromIndex_index other
  rw [← same, WasmTable.fromIndex_index] at found
  exact (Option.some.inj found).symm

/-- The flag of one table selects its entry. -/
theorem tableEntry_of {lookups : LookupColumns F} {table : WasmTable} {x j : ℕ}
    (flags : ∀ t < WasmTable.count, lookups.lookupTableFlag t j = if table.index = t then 1 else 0) :
    lookups.tableEntry x j = ((table.materializeEntry (BitVec.ofNat 128 x)).toNat : F) := by
  have entry (other : WasmTable) : ((other.materializeEntry (BitVec.ofNat 128 x)).toNat : F) *
      lookups.lookupTableFlag other.index j =
        if other = table then ((other.materializeEntry (BitVec.ofNat 128 x)).toNat : F) else 0 := by
    rw [flags _ other.index_lt, mul_ite, mul_one, mul_zero]
    exact if_congr index_eq_iff rfl rfl
  have once : WasmTable.iter.count table = 1 := by cases table <;> rfl
  unfold LookupColumns.tableEntry
  simp only [entry]
  rw [List.sum_map_ite_eq, once, List.sum_map_zero, one_nsmul, sub_zero, add_zero]

include preprocessed sized traced in
/-- The lookup of a cycle is one of its row's table at the place. -/
theorem lookupHolds {j : ℕ} (below : j < 2 ^ shape.logT) {pc : Pc} {instruction : Ir}
    (executes : Executes source shape hots j pc instruction) {x : ℕ} (inside : x < 2 ^ (2 * xlen))
    (place : lookupPlace shape hots j = some x) :
    LookupHolds instruction.rowSpec.lookup (WasmTable.rangeCheck.materializeEntry (BitVec.ofNat 128 x)) (columns.cycle j) := by
  have row := executes.row preprocessed
  have cycles : j < 2 ^ shape.dimensions.instructionReadRaf.logT := by rwa [sized.readRaf]
  have index : ((BitVec.ofNat 128 x).toNat : F) = (x : F) := by
    rw [BitVec.toNat_ofNat, Nat.mod_eq_of_lt (show x < 2 ^ 128 from inside)]
  cases lookup : instruction.rowSpec.lookup with
  | none => trivial
  | some found =>
      have raf : columns.instructionRafFlag j = if found.isRawIndex then 1 else 0 := by
        rw [traced.fetch.rafFlag j below, executes.place, Option.elim_some, row, BytecodeRow.rafFlag, BytecodeRow.of,
          BytecodeRow.fromSpec, lookup]
        rfl
      have flags : ∀ t < WasmTable.count,
          columns.lookups.lookupTableFlag t j = if (WasmTable.of found.tableOp).index = t then 1 else 0 := fun t small => by
        refine (traced.fetch.table t small j below).trans ?_
        rw [executes.place, Option.elim_some, row, bytecodeTableId, BytecodeRow.tableOp, BytecodeRow.of, BytecodeRow.fromSpec,
          lookup, Option.map_some, Option.map_some]
        exact if_congr Option.some_inj rfl rfl
      have output : columns.lookupOutput j =
          (((WasmTable.of found.tableOp).materializeEntry (BitVec.ofNat 128 x)).toNat : F) := by
        refine (traced.lookups.output j cycles).trans ?_
        rw [place, Option.elim_some, tableEntry_of flags]
      have left : columns.leftLookupOperand j =
          (1 - columns.instructionRafFlag j) * ((OperandSide.left.of x).toNat : F) :=
        (traced.lookups.left j cycles).trans (by rw [place]; rfl)
      have right : columns.rightLookupOperand j = (1 - columns.instructionRafFlag j) * ((OperandSide.right.of x).toNat : F) +
          columns.instructionRafFlag j * (x : F) :=
        (traced.lookups.right j cycles).trans (by rw [place]; rfl)
      cases found with
      | advice hint => exact output
      | table op =>
          cases mode : op.operandMode with
          | interleaved =>
              have off : columns.instructionRafFlag j = 0 := by
                rw [raf, Lookup.isRawIndex, mode]
                rfl
              rw [off] at left right
              simp only [LookupHolds, mode]
              refine ⟨OperandSide.left.of x, OperandSide.right.of x, ?_, ?_, ?_⟩
              · exact left.trans (by ring)
              · exact right.trans (by ring)
              · rw [OperandSide.of, OperandSide.of, interleave_uninterleave]
                exact output
          | _ =>
              have on : columns.instructionRafFlag j = 1 := by
                rw [raf, Lookup.isRawIndex, mode]
                rfl
              rw [on] at right
              simp only [LookupHolds, mode]
              exact ⟨BitVec.ofNat 128 x, right.trans (by rw [index]; ring), output⟩

end Stages.TraceColumns

end JoltWasm
