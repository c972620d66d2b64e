import JoltWasm.Ir.Layout

/-!
# Guest memory

The regions of the layout.  Every access is one aligned 64-bit word; a word of linear memory is a
cell holding four wasm bytes, and a write of the size word resizes the linear backing store.
-/

namespace JoltWasm

open Layout

/-- WebAssembly traps, and the machine's own faults. -/
inductive Trap where
  | unreachable
  | divideByZero
  | integerOverflow
  | outOfBoundsMemory (address : U64) (width : ℕ)
  | callStackExhausted
  | tableOutOfBounds
  | indirectCallTypeMismatch
  | unalignedWord (address : U64)
  | cellOverflow (address value : U64)
  | invalidJump (target : U64)
  deriving DecidableEq

/-- The regions below linear memory. -/
inductive Region where
  | shadow
  | system
  | inputs
  | outputs
  | globals
  | table
  deriving DecidableEq

/-- A located word: a linear-memory cell at a wasm byte offset, or word `index` of a region. -/
inductive Slot where
  | cell (start : ℕ)
  | word (region : Region) (index : ℕ)
  deriving DecidableEq

namespace Region

/-- First address of a region. -/
def base : Region → ℕ
  | shadow => shadowStackBase
  | system => systemBase
  | inputs => inputsBase
  | outputs => outputsBase
  | globals => globalsBase
  | table => tableBase

/-- Bytes of a region. -/
def size : Region → ℕ
  | shadow => shadowStackSize
  | system => systemSize
  | inputs => inputsSize
  | outputs => outputsSize
  | globals => globalsSize
  | table => tableSize

end Region

/-- Guest memory: 64-bit words of each region, and the bytes of linear memory. -/
structure Memory where
  words : Region → ℕ → U64
  linear : ℕ → BitVec 8
  /-- Bytes of the linear backing store, its slack word included. -/
  linearLen : ℕ
  maxPages : ℕ

/-- The four little-endian bytes at `start`. -/
def cellAt (linear : ℕ → BitVec 8) (start : ℕ) : BitVec 32 :=
  linear (start + 3) ++ linear (start + 2) ++ linear (start + 1) ++ linear start

/-- Store the four little-endian bytes of `v` at `start`. -/
def setCell (linear : ℕ → BitVec 8) (start : ℕ) (v : BitVec 32) (i : ℕ) : BitVec 8 :=
  if start ≤ i ∧ i < start + 4 then v.extractLsb' (8 * (i - start)) 8 else linear i

namespace Memory

/-- Memory before any data segment. -/
def new (limits : MemoryLimits) (globals : List U64) (table : List (Option TableSlot)) : Memory where
  words
    | .globals, i => globals.getD i 0
    | .table, i => (TableSlot.words (table.getD (i / 2) none)).getD (i % 2) 0
    | .system, 0 => BitVec.ofNat 64 (limits.initialPages * pageSize)
    | _, _ => 0
  linear _ := 0
  linearLen := limits.initialPages * pageSize + wasmWordBytes
  maxPages := limits.maxPages

/-- Current linear-memory size in bytes: the system size word. -/
def sizeBytes (m : Memory) : ℕ := (m.words .system 0).toNat

/-- Initialize linear memory bytes at a wasm offset. -/
def initLinear (m : Memory) (offset : ℕ) (bytes : List (BitVec 8)) : Except Trap Memory :=
  if 2 ^ 64 ≤ offset + bytes.length ∨ m.sizeBytes < offset + bytes.length then
    .error (.outOfBoundsMemory (BitVec.ofNat 64 (linearAddress offset)) (min bytes.length 255))
  else
    .ok { m with
      linear := fun i =>
        if offset ≤ i ∧ i < offset + bytes.length then bytes.getD (i - offset) 0 else m.linear i }

/-- Locate a word of a region below linear memory. -/
def locateWord (address : U64) (region : Region) : Except Trap Slot :=
  let start := address.toNat - region.base
  if region.size < start + 8 then
    .error (if region = .shadow then .callStackExhausted else .outOfBoundsMemory address 8)
  else .ok (.word region (start / 8))

def locate (m : Memory) (address : U64) : Except Trap Slot :=
  if address.toNat % wordBytes ≠ 0 then .error (.unalignedWord address)
  else if linearMemoryBase ≤ address.toNat then
    -- Cell `j` holds wasm bytes `4j .. 4j + 3`.
    let start := (address.toNat - linearMemoryBase) / linearCellBytes * wasmWordBytes
    if m.linearLen < start + 4 then .error (.outOfBoundsMemory address 8) else .ok (.cell start)
  else if tableBase ≤ address.toNat then locateWord address .table
  else if globalsBase ≤ address.toNat then locateWord address .globals
  else if shadowStackBase + shadowStackSize ≤ address.toNat then .error .callStackExhausted
  else if shadowStackBase ≤ address.toNat then locateWord address .shadow
  else if outputsBase ≤ address.toNat then locateWord address .outputs
  else if inputsBase ≤ address.toNat then locateWord address .inputs
  else if systemBase ≤ address.toNat then locateWord address .system
  else .error (.outOfBoundsMemory address 8)

def readWord (m : Memory) (address : U64) : Except Trap U64 := do
  match ← m.locate address with
  | .cell start => return (cellAt m.linear start).setWidth 64
  | .word region index => return m.words region index

/-- `Vec::resize` of the linear backing store. -/
def resize (m : Memory) (len : ℕ) : Memory :=
  { m with linear := fun i => if i < min m.linearLen len then m.linear i else 0, linearLen := len }

def setWord (m : Memory) (region : Region) (index : ℕ) (value : U64) : Memory :=
  { m with
    words := fun r i => if r = region ∧ i = index then value else m.words r i }

/-- Write one word; returns the previous value. -/
def writeWord (m : Memory) (address value : U64) : Except Trap (U64 × Memory) := do
  match ← m.locate address with
  | .cell start =>
      if 2 ^ 32 ≤ value.toNat then .error (.cellOverflow address value)
      else
        return ((cellAt m.linear start).setWidth 64,
          { m with linear := setCell m.linear start (value.setWidth 32) })
  | .word region index =>
      let written := m.setWord region index value
      if address = BitVec.ofNat 64 memorySizeAddr then
        -- The lowered `memory.grow`: the backing store follows the size word.
        let capped := min value.toNat (m.maxPages * pageSize)
        return (m.words region index, written.resize (capped + wasmWordBytes))
      else return (m.words region index, written)

end Memory

end JoltWasm
