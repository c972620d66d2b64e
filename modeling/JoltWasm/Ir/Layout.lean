import JoltWasm.Ir.Instruction

/-!
# Guest address-space layout

Disjoint contiguous regions of one 64-bit address space: system words, public inputs, public
outputs, the shadow call stack with its guard page, globals, the function table and linear memory
(one 8-byte cell for each 4-byte wasm word).
-/

namespace JoltWasm.Layout

def pageSize : ℕ := 65536
def wordBytes : ℕ := 8

/-- First guest address of the RAM argument's word index space. -/
def ramBase : ℕ := 0x90000000

def systemBase : ℕ := ramBase
def systemSize : ℕ := 0x1000
def memorySizeAddr : ℕ := systemBase
def terminationAddr : ℕ := systemBase + 8

def inputsBase : ℕ := systemBase + systemSize
def inputsSize : ℕ := 0x1000
def outputsBase : ℕ := inputsBase + inputsSize
def outputsSize : ℕ := 0x1000

def maxInputWords : ℕ := inputsSize / wordBytes
def maxOutputWords : ℕ := outputsSize / wordBytes

def shadowStackBase : ℕ := outputsBase + outputsSize
def shadowStackSize : ℕ := 2 ^ 20
/-- Unmapped page above the shadow stack. -/
def shadowGuardSize : ℕ := 0x1000

def globalsBase : ℕ := shadowStackBase + shadowStackSize + shadowGuardSize
def globalsSize : ℕ := 0x10000

def tableBase : ℕ := globalsBase + globalsSize
def tableSize : ℕ := 0x10000
def tableSlotBytes : ℕ := 2 * wordBytes
def maxTableSlots : ℕ := tableSize / tableSlotBytes

def linearMemoryBase : ℕ := tableBase + tableSize
def linearCellBytes : ℕ := wordBytes
def wasmWordBytes : ℕ := 4

def defaultMaxPages : ℕ := 256
def maxPages : ℕ := 65536

/-- Address of public input word `i`. -/
def inputAddress (i : ℕ) : ℕ := inputsBase + wordBytes * i

/-- Guest address of wasm linear-memory byte `a`. -/
def linearAddress (a : ℕ) : ℕ := linearMemoryBase + linearCellBytes / wasmWordBytes * a

/-- Address of the first word of function-table slot `i`. -/
def tableSlotAddress (i : ℕ) : ℕ := tableBase + tableSlotBytes * i

/-- Address of public output word `i`. -/
def outputAddress (i : ℕ) : ℕ := outputsBase + wordBytes * i

/-- The RAM argument's word index of an aligned guest address inside the RAM window. -/
def remapWordAddress (address : ℕ) : Option ℕ :=
  if address < ramBase ∨ address % wordBytes ≠ 0 then none
  else some ((address - ramBase) / wordBytes)

/-- The guest address of a RAM word index. -/
def unmapWordAddress (index : ℕ) : ℕ := ramBase + index * wordBytes

/-- One past the last guest address a program with `maxPages` pages can touch. -/
def ramEnd (maxPages : ℕ) : ℕ := linearAddress (maxPages * pageSize) + linearCellBytes

end JoltWasm.Layout
