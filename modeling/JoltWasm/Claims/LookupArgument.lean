import JoltWasm.Claims.AccessChunks
import JoltWasm.Claims.LookupRelations
import JoltWasm.Tables.MleCorrect

/-!
# The argument for the lookups

Over one-hot instruction accesses the read-RAF check and the virtualization of its accesses hold for every challenge
exactly when, in each cycle, the lookup output is the entry of the cycle's tables at the place that its chunks join
to, and the lookup operands are the place itself or its two halves.
-/

namespace JoltWasm

open Lib Finset

/-- The operand of an index that a side reads. -/
def OperandSide.of : OperandSide → ℕ → U64
  | left, k => (uninterleaveBits (BitVec.ofNat 128 k)).1
  | right, k => (uninterleaveBits (BitVec.ofNat 128 k)).2

namespace Stages

open VerifierStop

/-- The columns of the lookups: the virtual accesses by column, place and cycle, the table flags by table and cycle,
the rest by cycle. -/
structure LookupColumns (F : Type) where
  lookupOutput : ℕ → F
  leftLookupOperand : ℕ → F
  rightLookupOperand : ℕ → F
  lookupTableFlag : ℕ → ℕ → F
  instructionRafFlag : ℕ → F
  instructionRa : ℕ → ℕ → ℕ → F

section

variable {F : Type} [Field F]

/-! ## The operands of an address -/

/-- The value of an operand polynomial. -/
def operandValue (side : OperandSide) (point : List F) : F :=
  pairWord (fun x y => match side with | .left => x | .right => y) point

theorem operandTerm_eq (side : OperandSide) {point : List F} {n : ℕ} (length : point.length = 2 * n) :
    operandTerm ⟨2 * n, side⟩ point = .ok (operandValue side point) := by
  have loop : (List.range n).foldl (fun acc i => acc + point.getD (2 * i + side.offset) 0 * 2 ^ (n - 1 - i)) 0 =
      forPairs n point (0 : F) fun i x y acc => acc + (match side with | .left => x | .right => y) * 2 ^ (n - 1 - i) := by
    cases side <;> rfl
  rw [operandTerm, if_neg (not_not.mpr length), if_neg (by simp)]
  simp only [Nat.mul_div_cancel_left n two_pos, loop]
  rw [forPairs_word length 0 _ fun i x y acc _ => by push_cast; rw [mul_comm], zero_add, operandValue]

theorem operandValue_corner (side : OperandSide) {k : ℕ} (inside : k < 2 ^ 128) :
    operandValue side (bitPoint F 128 k) = ((side.of k).toNat : F) := by
  have index : (BitVec.ofNat 128 k).toNat = k := by rw [BitVec.toNat_ofNat, Nat.mod_eq_of_lt inside]
  have bits : bitPoint F 128 k = pairPoint F 64 (OperandSide.left.of k).toNat (OperandSide.right.of k).toNat := by
    conv_lhs => rw [← index]
    exact bitPoint_index (BitVec.ofNat 128 k) le_rfl
  have small : (side.of k).toNat < 2 ^ 64 := (side.of k).isLt
  rw [operandValue, bits]
  cases side with
  | left =>
      rw [@pairWord_pairPoint F _ _ (fun a _ => a) _ _ _ (OperandSide.left.of k).toNat (fun _ _ => rfl) fun _ _ => rfl,
        Nat.mod_eq_of_lt small]
  | right =>
      rw [@pairWord_pairPoint F _ _ (fun _ b => b) _ _ _ (OperandSide.right.of k).toNat (fun _ _ => rfl) fun _ _ => rfl,
        Nat.mod_eq_of_lt small]

end

/-! ## The digits of digits -/

/-- The chunks of a chunk are chunks of the whole. -/
theorem chunkDigit_chunkDigit {count per bits v c : ℕ} (inside : v < count) (inside' : c < per) (k : ℕ) :
    chunkDigit per bits c (chunkDigit count (per * bits) v k) = chunkDigit (count * per) bits (v * per + c) k := by
  have within : (per - 1 - c) * bits + bits ≤ per * bits := by
    rw [← Nat.succ_mul]
    exact Nat.mul_le_mul_right _ (by omega)
  have total : (count - 1 - v) * (per * bits) + (per - 1 - c) * bits = (count * per - 1 - (v * per + c)) * bits := by
    obtain ⟨rest, rfl⟩ := Nat.exists_eq_add_of_lt inside
    obtain ⟨rest', rfl⟩ := Nat.exists_eq_add_of_lt inside'
    have first : v + rest + 1 - 1 - v = rest := by omega
    have second : c + rest' + 1 - 1 - c = rest' := by omega
    have third : (v + rest + 1) * (c + rest' + 1) - 1 - (v * (c + rest' + 1) + c) = rest * (c + rest' + 1) + rest' := by
      have expand : (v + rest + 1) * (c + rest' + 1) = v * (c + rest' + 1) + rest * (c + rest' + 1) + (c + rest' + 1) := by ring
      omega
    rw [first, second, third]
    ring
  rw [chunkDigit, chunkDigit, chunkDigit, ← total, pow_add, ← Nat.div_div_eq_div_mul]
  generalize k / 2 ^ ((count - 1 - v) * (per * bits)) = q
  rw [← Nat.add_sub_of_le within, pow_add, pow_add, Nat.mul_assoc, Nat.mod_mul_right_div_self, Nat.mod_mul_right_mod]

namespace LookupColumns

variable {F : Type} [Field F] (columns : LookupColumns F)

/-- The openings of the read-RAF check as evaluations. -/
def polys (d : InstructionReadRafDimensions) : InstructionReadRafOutputClaims (List F → F) where
  lookupTableFlags := (List.range WasmTable.count).map fun t => extension (columns.lookupTableFlag t)
  instructionRa := (List.range d.numVirtualRaPolys).map fun v => extension (gridColumn d.logT (columns.instructionRa v))
  instructionRafFlag := extension columns.instructionRafFlag

/-- The place of a virtual column in an address. -/
def virtualChunk (d : InstructionReadRafDimensions) (v : ℕ) (address : List F) : List F :=
  let chunkSize := d.instructionAddressBits / d.numVirtualRaPolys
  (address.drop (v * chunkSize)).take chunkSize

/-- The relations of the lookups hold at every point and for every challenge. -/
structure Holds (committed : OneHotColumns F) (d : InstructionReadRafDimensions) (committedPerVirtual committedChunkBits : ℕ) :
    Prop where
  readRaf : ∀ (gamma : F) (reduction : List F), reduction.length = d.logT →
    SumsTo (InstructionReadRaf.rounds ⟨d⟩) (InstructionReadRaf.summand ⟨d⟩ gamma reduction (columns.polys d))
      (InstructionReadRaf.inputExpression gamma ⟨extension columns.lookupOutput reduction,
        extension columns.leftLookupOperand reduction, extension columns.rightLookupOperand reduction⟩)
  virtualization : ∀ (gamma : F) (address cycle : List F), address.length = d.instructionAddressBits → cycle.length = d.logT →
    SumsTo d.logT
      (InstructionRaVirtualization.summand
        ⟨⟨d.logT, d.numVirtualRaPolys, committedPerVirtual⟩, address, cycle, committedChunkBits⟩ gamma
        fun i => committed.polys d.logT (.instruction i))
      (InstructionRaVirtualization.inputExpression
        ⟨⟨d.logT, d.numVirtualRaPolys, committedPerVirtual⟩, address, cycle, committedChunkBits⟩ gamma
        fun v => extension (gridColumn d.logT (columns.instructionRa v)) (virtualChunk d v address ++ cycle))

/-- The entry of the tables that a cycle's flags select, at an index. -/
def tableEntry (k j : ℕ) : F :=
  (WasmTable.iter.map fun table =>
    ((table.materializeEntry (BitVec.ofNat 128 k)).toNat : F) * columns.lookupTableFlag table.index j).sum

/-- The virtual column as a product of committed ones. -/
def committedColumn (committed : OneHotColumns F) (committedPerVirtual committedChunkBits v x j : ℕ) : F :=
  ∏ c ∈ range committedPerVirtual,
    committed.ra (.instruction (v * committedPerVirtual + c)) (chunkDigit committedPerVirtual committedChunkBits c x) j

/-- The lookups are those of the tables at the places; a cycle without a place has nothing. -/
structure Looked (committed : OneHotColumns F) (d : InstructionReadRafDimensions) (committedPerVirtual committedChunkBits : ℕ)
    (place : ℕ → Option ℕ) : Prop where
  virtual : ∀ v < d.numVirtualRaPolys, ∀ x < 2 ^ (committedPerVirtual * committedChunkBits), ∀ j < 2 ^ d.logT,
    columns.instructionRa v x j = committedColumn committed committedPerVirtual committedChunkBits v x j
  output : ∀ j < 2 ^ d.logT, columns.lookupOutput j = (place j).elim 0 fun k => columns.tableEntry k j
  left : ∀ j < 2 ^ d.logT, columns.leftLookupOperand j =
    (place j).elim 0 fun k => (1 - columns.instructionRafFlag j) * ((OperandSide.left.of k).toNat : F)
  right : ∀ j < 2 ^ d.logT, columns.rightLookupOperand j =
    (place j).elim 0 fun k =>
      (1 - columns.instructionRafFlag j) * ((OperandSide.right.of k).toNat : F) + columns.instructionRafFlag j * (k : F)

/-! ## The read-RAF check -/

variable {columns}

section

variable {d : InstructionReadRafDimensions} {size : ℕ} (wide : d.instructionAddressBits = 2 * xlen)
  (tiles : d.numVirtualRaPolys * size = 2 * xlen)

include tiles in
theorem virtual_pos : 0 < d.numVirtualRaPolys ∧ 0 < size := by
  constructor
  · rcases Nat.eq_zero_or_pos d.numVirtualRaPolys with zero | positive
    · rw [zero, Nat.zero_mul] at tiles
      exact absurd tiles (by decide)
    · exact positive
  · rcases Nat.eq_zero_or_pos size with zero | positive
    · rw [zero, Nat.mul_zero] at tiles
      exact absurd tiles (by decide)
    · exact positive

omit [Field F] in
include wide tiles in
theorem virtualChunk_eq (v : ℕ) (address : List F) : virtualChunk d v address = (address.drop (v * size)).take size := by
  have divided : d.instructionAddressBits / d.numVirtualRaPolys = size := by
    rw [wide, ← tiles, Nat.mul_div_cancel_left _ (virtual_pos tiles).1]
  simp only [virtualChunk, divided]

omit [Field F] in
include wide tiles in
theorem length_virtualChunk {address : List F} (width : address.length = d.instructionAddressBits) {v : ℕ}
    (inside : v < d.numVirtualRaPolys) : (virtualChunk d v address).length = size := by
  have room : (v + 1) * size ≤ d.numVirtualRaPolys * size := Nat.mul_le_mul_right _ inside
  rw [virtualChunk_eq wide tiles, List.length_take, List.length_drop, width, wide, ← tiles]
  rw [Nat.succ_mul] at room
  omega

/-- Chunks of the same size tile a list. -/
theorem flatMap_chunks {α : Type} {items : List α} {count size : ℕ} (length : items.length = count * size) :
    ((List.range count).flatMap fun i => (items.drop (i * size)).take size) = items := by
  induction count generalizing items with
  | zero =>
      rw [Nat.zero_mul, List.length_eq_zero_iff] at length
      rw [length]
      rfl
  | succ count ih =>
      have rest : (items.drop size).length = count * size := by
        rw [List.length_drop, length, Nat.succ_mul, Nat.add_sub_cancel]
      have shifted (i : ℕ) : (items.drop ((i + 1) * size)).take size = ((items.drop size).drop (i * size)).take size := by
        rw [List.drop_drop, Nat.succ_mul, Nat.add_comm size]
      rw [List.range_succ_eq_map, List.flatMap_cons, List.flatMap_map, Nat.zero_mul, List.drop_zero]
      simp only [shifted]
      rw [ih rest, List.take_append_drop]

omit [Field F] in
include wide tiles in
theorem deriveOpeningPoints_eq {address cycle : List F} (width : address.length = d.instructionAddressBits)
    (length : cycle.length = d.logT) : InstructionReadRaf.deriveOpeningPoints ⟨d⟩ (address ++ cycle.reverse) =
      .ok ⟨List.replicate WasmTable.count cycle,
        (List.range d.numVirtualRaPolys).map fun v => virtualChunk d v address ++ cycle, cycle⟩ := by
  obtain ⟨some_, wide_⟩ := virtual_pos tiles
  have point : d.openingPoint (address ++ cycle.reverse) = .ok ⟨address, cycle, address ++ cycle⟩ := by
    rw [InstructionReadRafDimensions.openingPoint, if_neg (by rw [List.length_append, List.length_reverse, width, length, not_not])]
    simp only [← width, List.take_left, List.drop_left, List.reverse_reverse]
  have divided : address.length / d.numVirtualRaPolys = size := by
    rw [width, wide, ← tiles, Nat.mul_div_cancel_left _ some_]
  have count : (address.length + size - 1) / size = d.numVirtualRaPolys := by
    rw [width, wide, ← tiles, Nat.add_sub_assoc wide_, Nat.mul_comm, Nat.mul_add_div wide_, Nat.div_eq_of_lt (by omega), Nat.add_zero]
  refine except_bind_eq_ok.mpr ⟨_, congrArg (ofResult _) point, ?_⟩
  simp only [divided]
  rw [if_neg (not_or.mpr ⟨some_.ne', not_not.mpr (by rw [width, wide, ← tiles, Nat.mul_comm])⟩), if_neg wide_.ne', chunksOf, count,
    List.map_map]
  simp only [Function.comp_def, virtualChunk_eq wide tiles]
  rfl

omit [Field F] in
include wide tiles in
theorem reconstructRAddress_eq {address cycle : List F} (width : address.length = d.instructionAddressBits) {flags : List (List F)}
    {raf : List F} : InstructionReadRaf.reconstructRAddress
      ⟨flags, (List.range d.numVirtualRaPolys).map fun v => virtualChunk d v address ++ cycle, raf⟩ cycle.length = address := by
  rw [InstructionReadRaf.reconstructRAddress, List.flatMap_map]
  simp only [List.length_append, Nat.add_sub_cancel, List.take_left, virtualChunk_eq wide tiles]
  exact flatMap_chunks (by rw [width, wide, tiles])

/-- The reads that the powers of the challenge combine, at an address and a cycle. -/
def readFactors (columns : LookupColumns F) (address cycle : List F) : List F :=
  let raf := extension columns.instructionRafFlag cycle
  [(WasmTable.iter.map fun table => table.evaluateMle xlen address * extension (columns.lookupTableFlag table.index) cycle).sum,
    (1 - raf) * operandValue .left address,
    (1 - raf) * operandValue .right address + raf * identityEvaluate address]

/-- The product of the virtual columns. -/
def virtualProduct (columns : LookupColumns F) (d : InstructionReadRafDimensions) (address cycle : List F) : F :=
  ∏ v ∈ range d.numVirtualRaPolys, extension (gridColumn d.logT (columns.instructionRa v)) (virtualChunk d v address ++ cycle)

omit [Field F] in
/-- Polynomials by index at points by index. -/
theorem zipWith_range {α β : Type} (n : ℕ) (f : ℕ → α → β) (point : ℕ → α) :
    List.zipWith (fun poly x => poly x) ((List.range n).map f) ((List.range n).map point) = (List.range n).map fun i => f i (point i) := by
  rw [List.zipWith_map, List.zipWith_self]

include wide tiles in
theorem summand_eq (gamma : F) {reduction address cycle : List F} (width : address.length = d.instructionAddressBits)
    (length : cycle.length = d.logT) (arity : reduction.length = d.logT) :
    InstructionReadRaf.summand ⟨d⟩ gamma reduction (columns.polys d) (address ++ cycle.reverse) =
      .ok (powerSum gamma (columns.readFactors address cycle) * eqMle reduction cycle * columns.virtualProduct d address cycle) := by
  have address_ := @reconstructRAddress_eq F _ _ wide tiles address cycle width (List.replicate WasmTable.count cycle) cycle
  have operand (side : OperandSide) := operandTerm_eq side (width.trans wide)
  have products (flags : List F) (raf : F) : InstructionReadRaf.raProduct ⟨d⟩
      ⟨flags, (List.range d.numVirtualRaPolys).map fun v =>
        extension (gridColumn d.logT (columns.instructionRa v)) (virtualChunk d v address ++ cycle), raf⟩ =
      columns.virtualProduct d address cycle := by
    have each : (List.range d.numVirtualRaPolys).foldl (fun product i => product * ((List.range d.numVirtualRaPolys).map fun v =>
          extension (gridColumn d.logT (columns.instructionRa v)) (virtualChunk d v address ++ cycle)).getD i 0) (1 : F) =
        ((List.range d.numVirtualRaPolys).map fun v =>
          extension (gridColumn d.logT (columns.instructionRa v)) (virtualChunk d v address ++ cycle)).foldl (· * ·) 1 := by
      rw [List.foldl_map]
      refine List.foldl_ext _ _ _ fun product v member => ?_
      rw [List.getD_eq_getElem _ _ (by simpa using member), List.getElem_map, List.getElem_range]
    exact each.trans (List.prod_eq_foldl ..).symm
  refine except_bind_eq_ok.mpr ⟨_, deriveOpeningPoints_eq wide tiles width length, ?_⟩
  refine except_bind_eq_ok.mpr ⟨⟨WasmTable.iter.map fun table => eqMle reduction cycle * table.evaluateMle xlen address,
    eqMle reduction cycle * (gamma * operandValue .left address + gamma * gamma * operandValue .right address),
    eqMle reduction cycle * (gamma * gamma * identityEvaluate address - gamma * operandValue .left address -
      gamma * gamma * operandValue .right address)⟩, ?_, ?_⟩
  · unfold InstructionReadRaf.derivePublics
    simp only [address_]
    refine except_bind_eq_ok.mpr ⟨_, eqTerm_eq _ (arity.trans length.symm), ?_⟩
    rw [if_neg (not_not.mpr width), wide]
    refine except_bind_eq_ok.mpr ⟨_, operand .left, except_bind_eq_ok.mpr ⟨_, operand .right, ?_⟩⟩
    rfl
  · have flags : (List.replicate WasmTable.count cycle) = (List.range WasmTable.count).map fun _ => cycle := by
      rw [List.map_const', List.length_range]
    simp only [polys, flags]
    rw [zipWith_range, zipWith_range]
    refine congrArg Except.ok ?_
    unfold InstructionReadRaf.outputExpression
    simp only [products]
    have entries : WasmTable.iter.foldl (fun output table => output +
        (WasmTable.iter.map fun table => eqMle reduction cycle * table.evaluateMle xlen address).getD table.index 0 *
          columns.virtualProduct d address cycle *
            ((List.range WasmTable.count).map fun t => extension (columns.lookupTableFlag t) cycle).getD table.index 0) (0 : F) =
        (WasmTable.iter.map fun table => eqMle reduction cycle * columns.virtualProduct d address cycle *
          (table.evaluateMle xlen address * extension (columns.lookupTableFlag table.index) cycle)).sum := by
      rw [List.sum_eq_foldl, List.foldl_map]
      refine List.foldl_ext _ _ _ fun output table _ => congrArg (output + ·) ?_
      have listed : WasmTable.iter[table.index]? = some table := WasmTable.fromIndex_index table
      rw [List.getD_eq_getElem?_getD, List.getElem?_map, listed, List.getD_eq_getElem _ _ (by simpa using WasmTable.index_lt table),
        List.getElem_map, List.getElem_range, Option.map_some, Option.getD_some]
      ring
    rw [entries, List.sum_map_mul_left, readFactors]
    simp only [powerSum]
    ring

include wide tiles in
theorem readRaf_sumsTo (gamma : F) {reduction : List F} (arity : reduction.length = d.logT) :
    SumsTo (InstructionReadRaf.rounds ⟨d⟩) (InstructionReadRaf.summand ⟨d⟩ gamma reduction (columns.polys d))
      (cubeSum d.instructionAddressBits fun address => cubeSum d.logT fun cycle =>
        powerSum gamma (columns.readFactors address cycle) * eqMle reduction cycle * columns.virtualProduct d address cycle) := by
  let value (address cycle : List F) : F :=
    powerSum gamma (columns.readFactors address cycle) * eqMle reduction cycle * columns.virtualProduct d address cycle
  have rounds : InstructionReadRaf.rounds ⟨d⟩ = d.instructionAddressBits + d.logT := rfl
  refine ⟨fun x => value (x.take d.instructionAddressBits) (x.drop d.instructionAddressBits).reverse, fun x drawn => ?_, ?_⟩
  · have width : (x.take d.instructionAddressBits).length = d.instructionAddressBits := by
      rw [List.length_take, drawn, rounds]
      omega
    have length : (x.drop d.instructionAddressBits).reverse.length = d.logT := by
      rw [List.length_reverse, List.length_drop, drawn, rounds, Nat.add_sub_cancel_left]
    have cut : x = x.take d.instructionAddressBits ++ (x.drop d.instructionAddressBits).reverse.reverse := by
      rw [List.reverse_reverse, List.take_append_drop]
    conv_lhs => rw [cut]
    exact summand_eq wide tiles gamma width length arity
  · refine (cubeSum_append d.instructionAddressBits d.logT _).trans (cubeSum_congr fun address width => ?_)
    simp only [← width, List.take_left, List.drop_left]
    exact cubeSum_reverse d.logT (value address)

/-- What the places read of the tables and of their operands. -/
def lookups (columns : LookupColumns F) (place : ℕ → Option ℕ) : List (ℕ → F) :=
  [fun j => (place j).elim 0 fun k => columns.tableEntry k j,
    fun j => (place j).elim 0 fun k => (1 - columns.instructionRafFlag j) * ((OperandSide.left.of k).toNat : F),
    fun j => (place j).elim 0 fun k =>
      (1 - columns.instructionRafFlag j) * ((OperandSide.right.of k).toNat : F) + columns.instructionRafFlag j * (k : F)]

/-- The reads at a place and a cycle. -/
def cornerReads (columns : LookupColumns F) : List (ℕ → ℕ → F) :=
  [columns.tableEntry,
    fun k j => (1 - columns.instructionRafFlag j) * ((OperandSide.left.of k).toNat : F),
    fun k j => (1 - columns.instructionRafFlag j) * ((OperandSide.right.of k).toNat : F) + columns.instructionRafFlag j * (k : F)]

theorem readFactors_corner {logT k j : ℕ} (inside : k < 2 ^ (2 * xlen)) (inside' : j < 2 ^ logT) :
    columns.readFactors (bitPoint F (2 * xlen) k) (bitPoint F logT j) = columns.cornerReads.map fun read => read k j := by
  have index : (BitVec.ofNat 128 k).toNat = k := (BitVec.toNat_ofNat k 128).trans (Nat.mod_eq_of_lt inside)
  have entry (table : WasmTable) : table.evaluateMle xlen (bitPoint F (2 * xlen) k) =
      ((table.materializeEntry (BitVec.ofNat 128 k)).toNat : F) := by
    have short : (BitVec.ofNat 128 k).toNat < 2 ^ (2 * xlen) := index.trans_lt inside
    have value := tableMle_bitPoint (F := F) (.inl rfl) short table
    rw [index, materializeEntryAt_64] at value
    rw [← value]
    exact evaluateMle_eq_tableMle (length_bitPoint _ _) (.inl rfl) table
  have place : identityEvaluate (bitPoint F (2 * xlen) k) = (k : F) := by rw [identityEvaluate_eq, extension_bitPoint _ inside]
  have left := operandValue_corner (F := F) .left inside
  have right := operandValue_corner (F := F) .right inside
  have raf := extension_bitPoint columns.instructionRafFlag inside'
  have flag (t : ℕ) := extension_bitPoint (columns.lookupTableFlag t) inside'
  simp only [readFactors, cornerReads, entry, place, raf, flag, List.map_cons, List.map_nil, tableEntry]
  change _ = [_, _ * ((OperandSide.left.of k).toNat : F), _ * ((OperandSide.right.of k).toNat : F) + _]
  rw [← left, ← right]
  rfl

/-- The virtual columns at a place of the whole index. -/
def virtualGrid (columns : LookupColumns F) (d : InstructionReadRafDimensions) (size k j : ℕ) : F :=
  ∏ v ∈ range d.numVirtualRaPolys, columns.instructionRa v (chunkDigit d.numVirtualRaPolys size v k) j

include wide tiles in
theorem virtualProduct_corner {k j : ℕ} (inside : k < 2 ^ d.instructionAddressBits) (inside' : j < 2 ^ d.logT) :
    columns.virtualProduct d (bitPoint F d.instructionAddressBits k) (bitPoint F d.logT j) = columns.virtualGrid d size k j := by
  have product := prod_extension_chunks size (fun v x => columns.instructionRa v x j)
    ((length_bitPoint (F := F) d.instructionAddressBits k).trans (wide.trans tiles.symm))
  rw [extension_bitPoint _ inside] at product
  simp only [virtualProduct, extension_gridColumn_corner _ _ inside', virtualChunk_eq wide tiles]
  exact product

include wide tiles in
/-- The check at a challenge and a point: the claims are what the places read. -/
theorem readRaf_iff {place : ℕ → Option ℕ}
    (hot : ∀ j < 2 ^ d.logT, HotColumn (2 ^ d.instructionAddressBits) (fun k => columns.virtualGrid d size k j) (place j))
    (gamma : F) {reduction : List F} (arity : reduction.length = d.logT) :
    SumsTo (InstructionReadRaf.rounds ⟨d⟩) (InstructionReadRaf.summand ⟨d⟩ gamma reduction (columns.polys d))
        (InstructionReadRaf.inputExpression gamma ⟨extension columns.lookupOutput reduction,
          extension columns.leftLookupOperand reduction, extension columns.rightLookupOperand reduction⟩) ↔
      powerSum gamma ([columns.lookupOutput, columns.leftLookupOperand, columns.rightLookupOperand].map (extension · reduction)) =
        powerSum gamma ((columns.lookups place).map (extension · reduction)) := by
  have claims : InstructionReadRaf.inputExpression gamma ⟨extension columns.lookupOutput reduction,
      extension columns.leftLookupOperand reduction, extension columns.rightLookupOperand reduction⟩ =
      powerSum gamma ([columns.lookupOutput, columns.leftLookupOperand, columns.rightLookupOperand].map (extension · reduction)) := by
    simp only [InstructionReadRaf.inputExpression, List.map_cons, List.map_nil, powerSum]
    ring
  have corner {k j : ℕ} (inside : k < 2 ^ d.instructionAddressBits) (inside' : j < 2 ^ d.logT) :
      powerSum gamma (columns.readFactors (bitPoint F d.instructionAddressBits k) (bitPoint F d.logT j)) *
          eqMle reduction (bitPoint F d.logT j) *
          columns.virtualProduct d (bitPoint F d.instructionAddressBits k) (bitPoint F d.logT j) =
        powerSum gamma (columns.cornerReads.map fun read => read k j) *
          (eqWeight reduction j * columns.virtualGrid d size k j) := by
    have reads := columns.readFactors_corner (show k < 2 ^ (2 * xlen) by rwa [← wide]) inside'
    rw [virtualProduct_corner wide tiles inside inside', eqMle_comm, eqMle_corner arity inside', mul_assoc]
    rw [← wide] at reads
    rw [reads]
  have total : (cubeSum d.instructionAddressBits fun address => cubeSum d.logT fun cycle =>
      powerSum gamma (columns.readFactors address cycle) * eqMle reduction cycle * columns.virtualProduct d address cycle) =
      powerSum gamma ((columns.lookups place).map (extension · reduction)) := by
    have placed (value : ℕ → ℕ → F) : ∑ k ∈ range (2 ^ d.instructionAddressBits), ∑ j ∈ range (2 ^ d.logT),
        value k j * (eqWeight reduction j * columns.virtualGrid d size k j) =
          extension (fun j => (place j).elim 0 fun k => value k j) reduction := by
      simp only [← mul_assoc]
      exact sum_placed hot value arity
    rw [cubeSum_eq_sum, sum_congr rfl fun k member => (cubeSum_eq_sum _ _).trans (sum_congr rfl fun j member' =>
      corner (mem_range.mp member) (mem_range.mp member')), sum_powerSum]
    simp only [placed, cornerReads, lookups, List.map_cons, List.map_nil]
  rw [claims, ← total]
  exact (readRaf_sumsTo wide tiles gamma arity).iff _

end

/-! ## The virtualization of the accesses -/

section

variable {committed : OneHotColumns F} {d : InstructionReadRafDimensions} {per bits : ℕ} (wide : d.instructionAddressBits = 2 * xlen)
  (tiles : d.numVirtualRaPolys * (per * bits) = 2 * xlen) (positive : 0 < bits)

include tiles positive in
theorem chunkCount_eq : chunkCount (2 * xlen) bits = d.numVirtualRaPolys * per := by
  rw [chunkCount, ← tiles, ← Nat.mul_assoc, Nat.add_sub_assoc positive, Nat.mul_comm, Nat.mul_add_div positive,
    Nat.div_eq_of_lt (by omega), Nat.add_zero]

include wide tiles positive in
/-- The chunks that a virtual column is a product over. -/
theorem chunkPoint_virtual {address : List F} (width : address.length = d.instructionAddressBits) {v c : ℕ}
    (inside' : c < per) : chunkPoint address bits (v * per + c) = ((virtualChunk d v address).drop (c * bits)).take bits := by
  have whole : (address.length + bits - 1) / bits * bits = address.length := by
    have count := chunkCount_eq tiles positive
    rw [chunkCount] at count
    rw [width, wide, count, Nat.mul_assoc, tiles]
  have room : c * bits + bits ≤ per * bits := by
    rw [← Nat.succ_mul]
    exact Nat.mul_le_mul_right _ inside'
  rw [chunkPoint, paddedAddress, whole, Nat.sub_self, List.replicate_zero, List.nil_append, virtualChunk_eq wide tiles,
    List.drop_take, List.drop_drop, List.take_take, Nat.min_eq_left (by omega), Nat.add_mul, Nat.mul_assoc]

include wide tiles positive in
theorem virtualization_sumsTo (gamma : F) {address cycle : List F} (width : address.length = d.instructionAddressBits)
    (length : cycle.length = d.logT) :
    SumsTo d.logT
      (InstructionRaVirtualization.summand ⟨⟨d.logT, d.numVirtualRaPolys, per⟩, address, cycle, bits⟩ gamma
        fun i => committed.polys d.logT (.instruction i))
      (∑ v ∈ range d.numVirtualRaPolys,
        gamma ^ v * extension (gridColumn d.logT (committedColumn committed per bits v)) (virtualChunk d v address ++ cycle)) := by
  have products (v : ℕ) (inside : v < d.numVirtualRaPolys) : (cubeSum d.logT fun x => eqMle cycle x *
      ∏ c ∈ range per, committed.polys d.logT (.instruction (v * per + c)) (chunkPoint address bits (v * per + c) ++ x)) =
      extension (gridColumn d.logT (committedColumn committed per bits v)) (virtualChunk d v address ++ cycle) := by
    have weights : ∀ j < 2 ^ d.logT, eqMle cycle (bitPoint F d.logT j) = eqWeight cycle j := fun j inside => by
      rw [eqMle_comm, eqMle_corner length inside]
    have chunk := length_virtualChunk wide tiles width inside
    rw [cubeSum_weights length weights, extension_gridColumn_swap _ _ length]
    refine extension_congr fun j below => ?_
    rw [length] at below
    simp only [OneHotColumns.polys, extension_gridColumn_corner _ _ below]
    refine Eq.trans (prod_congr rfl fun c member => ?_)
      (prod_extension_chunks bits (fun c x => committed.ra (.instruction (v * per + c)) x j) chunk)
    rw [chunkPoint_virtual wide tiles positive width (mem_range.mp member)]
  have sum : (cubeSum d.logT fun x => ∑ v ∈ range d.numVirtualRaPolys, gamma ^ v * (eqMle cycle x *
      ∏ c ∈ range per, committed.polys d.logT (.instruction (v * per + c)) (chunkPoint address bits (v * per + c) ++ x))) =
      ∑ v ∈ range d.numVirtualRaPolys,
        gamma ^ v * extension (gridColumn d.logT (committedColumn committed per bits v)) (virtualChunk d v address ++ cycle) := by
    rw [cubeSum_sum]
    exact sum_congr rfl fun v member => by rw [cubeSum_mul, products v (mem_range.mp member)]
  rw [← sum]
  have some_ : 0 < address.length := by
    rw [width, wide]
    decide
  have first {x : List F} (drawn : x.length = d.logT) := OneHotColumns.firstOpeningEqCycle_chunks .instructionRaVirtualization
    "instruction RA virtualization produced no openings" "instruction RA opening point shorter than log_t" positive some_
    (show cycle.length = x.reverse.length by rw [List.length_reverse, length, drawn])
  simp only [length] at first
  refine sumsTo_reversed fun x drawn => except_bind_eq_ok.mpr ⟨_, first drawn, congrArg Except.ok ?_⟩
  change ∑ v ∈ range d.numVirtualRaPolys, _ = ∑ v ∈ range d.numVirtualRaPolys, _
  refine sum_congr rfl fun v member => ?_
  rw [mul_comm (eqMle _ _) (gamma ^ v), mul_assoc]
  refine congrArg (gamma ^ v * ·) (congrArg (eqMle cycle x.reverse * ·) ?_)
  have listed {c : ℕ} (inside' : c < per) : v * per + c < chunkCount address.length bits := by
    rw [width, wide, chunkCount_eq tiles positive]
    calc v * per + c < v * per + per := Nat.add_lt_add_left inside' _
      _ = (v + 1) * per := (Nat.succ_mul v per).symm
      _ ≤ d.numVirtualRaPolys * per := Nat.mul_le_mul_right _ (mem_range.mp member)
  simp only [InstructionRaVirtualization.committedProduct, List.range'_eq_map_range, List.map_map]
  exact prod_congr rfl fun c member' => congrArg (committed.polys d.logT (.instruction (v * per + c)))
    (OneHotColumns.chunkOpeningPoints_getD positive address x.reverse (listed (mem_range.mp member')))

include wide tiles positive in
theorem virtualization_iff (apart : Apart F d.numVirtualRaPolys) :
    (∀ (gamma : F) (address cycle : List F), address.length = d.instructionAddressBits → cycle.length = d.logT →
      SumsTo d.logT
        (InstructionRaVirtualization.summand ⟨⟨d.logT, d.numVirtualRaPolys, per⟩, address, cycle, bits⟩ gamma
          fun i => committed.polys d.logT (.instruction i))
        (InstructionRaVirtualization.inputExpression ⟨⟨d.logT, d.numVirtualRaPolys, per⟩, address, cycle, bits⟩ gamma
          fun v => extension (gridColumn d.logT (columns.instructionRa v)) (virtualChunk d v address ++ cycle))) ↔
      ∀ v < d.numVirtualRaPolys, ∀ x < 2 ^ (per * bits), ∀ j < 2 ^ d.logT,
        columns.instructionRa v x j = committedColumn committed per bits v x j := by
  -- The claims and what the committed columns say they are.
  have each (gamma : F) {address cycle : List F} (width : address.length = d.instructionAddressBits) (length : cycle.length = d.logT) :
      SumsTo d.logT
        (InstructionRaVirtualization.summand ⟨⟨d.logT, d.numVirtualRaPolys, per⟩, address, cycle, bits⟩ gamma
          fun i => committed.polys d.logT (.instruction i))
        (InstructionRaVirtualization.inputExpression ⟨⟨d.logT, d.numVirtualRaPolys, per⟩, address, cycle, bits⟩ gamma
          fun v => extension (gridColumn d.logT (columns.instructionRa v)) (virtualChunk d v address ++ cycle)) ↔
      ∑ v ∈ range d.numVirtualRaPolys, gamma ^ v *
        (extension (gridColumn d.logT (columns.instructionRa v)) (virtualChunk d v address ++ cycle) -
          extension (gridColumn d.logT (committedColumn committed per bits v)) (virtualChunk d v address ++ cycle)) = 0 := by
    simp only [mul_sub, sum_sub_distrib, sub_eq_zero]
    exact (virtualization_sumsTo wide tiles positive gamma width length).iff _
  have small (v : ℕ) : v * (per * bits) + (per * bits + (d.numVirtualRaPolys - 1 - v) * (per * bits)) =
      (v + 1 + (d.numVirtualRaPolys - 1 - v)) * (per * bits) := by ring
  constructor
  · intro holds v inside
    refine forall_grid_eq_iff.mp fun chunk cycle width length => ?_
    -- An address whose chunk `v` is the given one.
    let address : List F := List.replicate (v * (per * bits)) 0 ++
      (chunk ++ List.replicate ((d.numVirtualRaPolys - 1 - v) * (per * bits)) 0)
    have all : address.length = d.instructionAddressBits := by
      have rest : v + 1 + (d.numVirtualRaPolys - 1 - v) = d.numVirtualRaPolys := by omega
      rw [List.length_append, List.length_append, List.length_replicate, List.length_replicate, width, small, rest, tiles, wide]
    have here : virtualChunk d v address = chunk := by
      rw [virtualChunk_eq wide tiles, List.drop_left' List.length_replicate, ← width, List.take_left]
    have zero := (forall_powers_eq_zero_iff apart _).mp (fun gamma => (each gamma all length).mp (holds gamma address cycle all length))
      v inside
    rwa [here, sub_eq_zero] at zero
  · intro same gamma address cycle width length
    refine (each gamma width length).mpr (sum_eq_zero fun v member => ?_)
    have inside := mem_range.mp member
    have chunk := length_virtualChunk wide tiles width inside
    rw [forall_grid_eq_iff.mpr (same v inside) _ _ chunk length, sub_self, mul_zero]

theorem prod_range_mul {M : Type*} [CommMonoid M] (m n : ℕ) (f : ℕ → M) :
    ∏ i ∈ range (m * n), f i = ∏ v ∈ range m, ∏ c ∈ range n, f (v * n + c) := by
  induction m with
  | zero => rw [Nat.zero_mul, prod_range_zero, prod_range_zero]
  | succ m ih => rw [Nat.succ_mul, prod_range_add, ih, prod_range_succ]

include tiles positive in
/-- Virtual columns that are products make up the products of all chunks. -/
theorem virtualGrid_eq (virtual : ∀ v < d.numVirtualRaPolys, ∀ x < 2 ^ (per * bits), ∀ j < 2 ^ d.logT,
      columns.instructionRa v x j = committedColumn committed per bits v x j) (k : ℕ) {j : ℕ} (below : j < 2 ^ d.logT) :
    columns.virtualGrid d (per * bits) k j = committed.chunkProduct .instruction (2 * xlen) bits k j := by
  rw [OneHotColumns.chunkProduct, chunkCount_eq tiles positive, prod_range_mul, virtualGrid]
  refine prod_congr rfl fun v member => ?_
  rw [virtual v (mem_range.mp member) _ (chunkDigit_lt _ _ _ _) j below, committedColumn]
  refine prod_congr rfl fun c member' => ?_
  rw [chunkDigit_chunkDigit (mem_range.mp member) (mem_range.mp member')]

include wide tiles positive in
/-- The relations of the lookups hold for every challenge exactly when the columns are the lookups at the places
that the committed accesses join to. -/
theorem holds_iff_looked (apart : Apart F 3) (apart' : Apart F d.numVirtualRaPolys) {place : ℕ → Option ℕ}
    (hot : ∀ j < 2 ^ d.logT, HotColumn (2 ^ (2 * xlen)) (fun k => committed.chunkProduct .instruction (2 * xlen) bits k j) (place j)) :
    columns.Holds committed d per bits ↔ columns.Looked committed d per bits place := by
  have grid (virtual : ∀ v < d.numVirtualRaPolys, ∀ x < 2 ^ (per * bits), ∀ j < 2 ^ d.logT,
      columns.instructionRa v x j = committedColumn committed per bits v x j) : ∀ j < 2 ^ d.logT,
      HotColumn (2 ^ d.instructionAddressBits) (fun k => columns.virtualGrid d (per * bits) k j) (place j) := fun j below => by
    rw [wide]
    exact (hot j below).congr fun k _ => virtualGrid_eq tiles positive virtual k below
  have reads (virtual : ∀ v < d.numVirtualRaPolys, ∀ x < 2 ^ (per * bits), ∀ j < 2 ^ d.logT,
      columns.instructionRa v x j = committedColumn committed per bits v x j) :=
    columns.readRaf_iff wide tiles (grid virtual)
  have listed : (∀ (gamma : F) (reduction : List F), reduction.length = d.logT → _) ↔ _ :=
    @forall_listed_eq_iff F _ d.logT
      ([columns.lookupOutput, columns.leftLookupOperand, columns.rightLookupOperand].zip (columns.lookups place)) apart
  constructor
  · intro holds
    have virtual := (virtualization_iff wide tiles positive apart').mp holds.virtualization
    have same := listed.mp fun gamma reduction arity => (reads virtual gamma arity).mp (holds.readRaf gamma reduction arity)
    simp only [lookups, List.zip_cons_cons, List.zip_nil_left, List.forall_mem_cons, List.not_mem_nil, false_imp_iff, implies_true,
      and_true] at same
    exact ⟨virtual, same.1, same.2.1, same.2.2⟩
  · intro looked
    refine ⟨fun gamma reduction arity => (reads looked.virtual gamma arity).mpr ?_,
      (virtualization_iff wide tiles positive apart').mpr looked.virtual⟩
    refine listed.mpr ?_ gamma reduction arity
    simp only [lookups, List.zip_cons_cons, List.zip_nil_left, List.forall_mem_cons, List.not_mem_nil, false_imp_iff, implies_true,
      and_true]
    exact ⟨looked.output, looked.left, looked.right⟩

end

end LookupColumns

end Stages

end JoltWasm
