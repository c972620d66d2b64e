import JoltWasm.Ir.Layout
import JoltWasm.Frontend.Source

/-!
# The row emitter

The instruction selector of the lowering: one definition for each emitter method, appending rows
to the program.  Operators without a table of their own expand into several rows, and an access
that crosses a wasm word is placed out of line, after the function body.
-/

namespace JoltWasm

open Layout

/-- `u32` subtraction. -/
def U32.sub (a b : ℕ) : ℕ := (a + 2 ^ 32 - b % 2 ^ 32) % 2 ^ 32

/-- `u32` addition. -/
def U32.add (a b : ℕ) : ℕ := (a + b) % 2 ^ 32

/-- Why the emitter stops: a lowering error, or a Rust panic (an index out of range, or a checked
overflow). -/
inductive EmitFailure where
  | error (e : LowerError)
  | panic
  deriving DecidableEq

/-- The signature of a function, or of a type index that only `call_indirect` uses. -/
structure Signature where
  id : ℕ
  params : ℕ
  results : ℕ
  /-- Parameters plus declared locals. -/
  locals : ℕ
  frameSlots : ℕ
  deriving DecidableEq

/-- An out-of-line block: the branch that enters it, its rows, and the pc it jumps back to. -/
structure ColdBlock where
  entryFixup : ℕ
  rows : List Ir
  rejoin : Pc
  deriving DecidableEq

/-- What the emitter reads of the module. -/
structure EmitterEnv where
  signatures : List Signature
  typeSignatures : List Signature
  tableSlots : ℕ
  maxMemoryBytes : ℕ

/-- The emitter's state: the rows so far, the calls to patch, and the pending cold blocks; and
whether the build checks arithmetic (the test profile does, the release profile wraps). -/
structure Emitter where
  code : List Ir := [.halt]
  callFixups : List (ℕ × ℕ) := []
  cold : List ColdBlock := []
  overflowChecks : Bool := false
  deriving DecidableEq

/-- An emitter method. -/
abbrev EmitM := StateT Emitter (Except EmitFailure)

/-- A call target: a function, or a table slot held in a register with the expected type. -/
inductive Callee where
  | direct (function : ℕ)
  | indirect (typeIndex : ℕ) (index : Reg)
  deriving DecidableEq

inductive LabelKind where
  | block
  | loop (entry : Pc)
  /-- An `if` whose entry branch is still to be patched. -/
  | if_ (skip : ℕ)
  | else_
  deriving DecidableEq

structure Label where
  kind : LabelKind
  /-- Operand-stack height below the label's parameters and results. -/
  base : ℕ
  sig : BlockSig
  /-- Forward jumps to patch to the label's end. -/
  fixups : List ℕ
  deriving DecidableEq

/-- Values a branch to the label carries. -/
def Label.arity (label : Label) : ℕ :=
  match label.kind with
  | .loop _ => label.sig.params
  | .block | .if_ _ | .else_ => label.sig.results

/-- A stack value not yet written to its slot's register. -/
inductive Pending where
  | local_ (i : ℕ)
  | const_ (v : U64)
  deriving DecidableEq

/-- Per-function lowering state.  The innermost label comes first. -/
structure FunctionCtx where
  index : ℕ
  sig : Signature
  labels : List Label
  pending : List (Option Pending)
  deriving DecidableEq

/-- Rewrite the target of a fixup site: a jump, a branch, or the immediate of a `const` row. -/
def setTarget (newTarget : Pc) : Ir → Ir
  | .jump _ => .jump newTarget
  | .branch op rs1 rs2 _ => .branch op rs1 rs2 newTarget
  | .alu op rd rs1 (.imm _) => .alu op rd rs1 (.imm (newTarget.setWidth 64))
  | ir => ir

/-! ## Row builders -/

def load (rd base : Reg) (offset : ℤ) : Ir := .load rd base (BitVec.ofInt 64 offset)

def store (base value : Reg) (offset : ℤ) : Ir := .store base value (BitVec.ofInt 64 offset)

def add64 (rd rs1 : Reg) (rs2 : Operand) : Ir := .alu (.add .w64) rd rs1 rs2

def mul64 (rd rs1 : Reg) (rs2 : Operand) : Ir := .alu (.mul .w64) rd rs1 rs2

/-- Guest bytes for each wasm byte of linear memory. -/
def cellsPerByte : ℕ := linearCellBytes / wasmWordBytes

/-- Selects the lane offset of a guest linear address. -/
def laneMask : U64 := BitVec.ofNat 64 (linearCellBytes - cellsPerByte)

/-- Bit shift for each unit of lane offset. -/
def shiftPerLane : U64 := BitVec.ofNat 64 (8 / cellsPerByte)

def wasmWordMask : U64 := 0xFFFFFFFF

/-- The bounds-limit register of an access. -/
def limit : MemWidth → Reg
  | .b1 => Reg.limitB
  | .b2 => Reg.limitH
  | .b4 => Reg.limitW
  | .b8 => Reg.limitD

/-- Sign-extend the low `bits` bits of `rs` to `width`. -/
def signExtendRows (width : Width) (rd rs : Reg) (bits : ℕ) : List Ir :=
  let up := 64 - bits
  let target := match width with
    | .w64 => rd
    | .w32 => Reg.t0
  [mul64 target rs (.imm ((1 : U64) <<< up)),
    .aluImm .sra target target (shiftRightBitmask (BitVec.ofNat 64 up))] ++
  match width with
  | .w64 => []
  | .w32 => [.aluImm .lowerHalfWord rd target 0]

/-- `rd` = the low `width` bytes of `rs`, extended to `result` bits. -/
def narrowRows (rd rs : Reg) (width : MemWidth) (signed : Bool) (result : Width) : List Ir :=
  match width, signed with
  | .b8, _ => [.mov rd rs]
  | _, false => [.aluImm .and rd rs width.mask]
  | .b1, true => signExtendRows result rd rs 8
  | .b2, true => signExtendRows result rd rs 16
  | .b4, true =>
      match result with
      | .w64 => [.aluImm .signExtendWord rd rs 0]
      | .w32 => [.aluImm .and rd rs width.mask]

/-- The signed-division overflow pair: the minimum and minus one. -/
def signedOverflowPair : Width → U64 × U64
  | .w32 => (0x80000000, 0xFFFFFFFF)
  | .w64 => ((1 : U64) <<< 63, BitVec.allOnes 64)

/-- The address of a global. -/
def globalAddress (index : ℕ) : ℤ := (globalsBase + 8 * index : ℕ)

/-- Whether the emitter takes the right operand as an immediate: the single-row operators. -/
def binaryTakesImmediate : BinaryOp → Bool
  | .add | .sub | .mul | .and | .or | .xor | .eq | .ne | .ltU | .leU | .geU => true
  | _ => false

/-! ## Binary and unary operators -/

def assertNonzeroRows (b : Reg) : List Ir := [.assert .ne .divideByZero b (.imm 0)]

/-- `a / b` into `T3` and `a % b` into `T4`, for `b` already asserted non-zero. -/
def unsignedDivmodRows (width : Width) (a b : Reg) : List Ir :=
  [.advice .quotientU Reg.t3 a b] ++
  (match width with
    | .w64 => [.assert .mulUNoOverflow .integerOverflow Reg.t3 (.reg b)]
    -- At 32 bits the emitter skips the overflow assert.
    | .w32 => []) ++
  [mul64 Reg.t2 Reg.t3 (.reg b),
    .assert .leU .integerOverflow Reg.t2 (.reg a),
    .alu (.sub .w64) Reg.t4 a (.reg Reg.t2),
    .assert .ltU .integerOverflow Reg.t4 (.reg b)]

/-- Signed division through magnitudes. -/
def signedDivmodRows (width : Width) (op : BinaryOp) (rd a b : Reg) : List Ir :=
  let magnitude := if op = .divS then Reg.t3 else Reg.t4
  let widen (rd rs : Reg) : Ir := match width with
    | .w64 => .mov rd rs
    | .w32 => .aluImm .signExtendWord rd rs 0
  assertNonzeroRows b ++
  (if op = .divS then
    [.aluImm .eq Reg.t2 a (signedOverflowPair width).1,
      .aluImm .eq Reg.t4 b (signedOverflowPair width).2,
      .alu .and Reg.t2 Reg.t2 (.reg Reg.t4),
      .assert .eq .integerOverflow Reg.t2 (.imm 0)]
  else []) ++
  [widen Reg.t0 a, .alu .negateIf Reg.t0 Reg.t0 (.reg Reg.t0),
    widen Reg.t1 b, .alu .negateIf Reg.t1 Reg.t1 (.reg Reg.t1)] ++
  unsignedDivmodRows .w64 Reg.t0 Reg.t1 ++
  (if op = .divS then [.alu .xor Reg.t2 a (.reg b), widen Reg.t2 Reg.t2] else [widen Reg.t2 a]) ++
  match width with
  | .w64 => [.alu .negateIf rd Reg.t2 (.reg magnitude)]
  | .w32 => [.alu .negateIf Reg.t2 Reg.t2 (.reg magnitude),
      .aluImm .lowerHalfWord rd Reg.t2 0]

/-- `T0` = the right-shift bitmask for count `b` masked to the width. -/
def shiftBitmaskRows (width : Width) (b : Reg) : List Ir :=
  match width with
  | .w64 => [.aluImm .shiftRightBitmask Reg.t0 b 0]
  | .w32 => [.aluImm .and Reg.t0 b 31, .aluImm .shiftRightBitmask Reg.t0 Reg.t0 0]

/-- `rd = rotr(a, b)`. -/
def rotrRows (width : Width) (rd a b : Reg) : List Ir :=
  match width with
  | .w64 => shiftBitmaskRows width b ++ [.alu .rotr rd a (.reg Reg.t0)]
  | .w32 =>
      [mul64 Reg.t2 a (.imm ((1 : U64) <<< 32)), .alu .or Reg.t2 Reg.t2 (.reg a)] ++
      shiftBitmaskRows width b ++
      [.alu .srl Reg.t2 Reg.t2 (.reg Reg.t0), .aluImm .lowerHalfWord rd Reg.t2 0]

/-- A signed comparison: 32-bit operands are sign-extended first. -/
def compareRows (width : Width) (table : AluOp) (swap : Bool) (rd a b : Reg) : List Ir :=
  let (x, y) := match width with
    | .w64 => (a, b)
    | .w32 => (Reg.t0, Reg.t1)
  (match width with
    | .w64 => []
    | .w32 => [.aluImm .signExtendWord Reg.t0 a 0, .aluImm .signExtendWord Reg.t1 b 0]) ++
  [if swap then .alu table rd y (.reg x) else .alu table rd x (.reg y)]

/-- The expansion of a binary operator whose right operand is in a register. -/
def expandBinaryRows (width : Width) (op : BinaryOp) (rd a b : Reg) : List Ir :=
  match op with
  | .gtU => [.alu .ltU rd b (.reg a)]
  | .ltS => compareRows width .ltS false rd a b
  | .gtS => compareRows width .ltS true rd a b
  | .geS => compareRows width .geS false rd a b
  | .leS => compareRows width .geS true rd a b
  | .shl =>
      match width with
      | .w64 => [.aluImm .pow2 Reg.t0 b 0, .alu (.mul .w64) rd a (.reg Reg.t0)]
      | .w32 =>
          [.aluImm .and Reg.t0 b 31, .aluImm .pow2 Reg.t0 Reg.t0 0,
            .alu (.mul .w32) rd a (.reg Reg.t0)]
  | .shrU => shiftBitmaskRows width b ++ [.alu .srl rd a (.reg Reg.t0)]
  | .shrS =>
      shiftBitmaskRows width b ++
      match width with
      | .w64 => [.alu .sra rd a (.reg Reg.t0)]
      | .w32 =>
          [.aluImm .signExtendWord Reg.t1 a 0, .alu .sra Reg.t1 Reg.t1 (.reg Reg.t0),
            .aluImm .lowerHalfWord rd Reg.t1 0]
  | .rotr => rotrRows width rd a b
  | .rotl => .alu (.sub .w64) Reg.t1 Reg.zero (.reg b) :: rotrRows width rd a Reg.t1
  | .divU => assertNonzeroRows b ++ unsignedDivmodRows width a b ++ [.mov rd Reg.t3]
  | .remU => assertNonzeroRows b ++ unsignedDivmodRows width a b ++ [.mov rd Reg.t4]
  | .divS | .remS => signedDivmodRows width op rd a b
  -- The single-row operators never reach the expansion.
  | .add | .sub | .mul | .and | .or | .xor | .eq | .ne | .ltU | .leU | .geU => []

/-- The table of a single-row operator. -/
def directTable (width : Width) : BinaryOp → Option AluOp
  | .add => some (.add width)
  | .sub => some (.sub width)
  | .mul => some (.mul width)
  | .and => some .and
  | .or => some .or
  | .xor => some .xor
  | .eq => some .eq
  | .ne => some .ne
  | .ltU => some .ltU
  | .leU => some .leU
  | .geU => some .geU
  | _ => none

/-- `rd = op(a, b)`: one catalog row or its expansion. -/
def binaryRows (width : Width) (op : BinaryOp) (rd a : Reg) (b : Operand) : List Ir :=
  match directTable width op, b with
  | some table, _ => [.alu table rd a b]
  | none, .reg b => expandBinaryRows width op rd a b
  | none, .imm v => .const_ Reg.t0 v :: expandBinaryRows width op rd a Reg.t0

def unaryRows (width : Width) (op : UnaryOp) (rd a : Reg) : List Ir :=
  match op, width with
  | .eqz, _ => [.aluImm .eq rd a 0]
  | .popcnt, _ => [.aluImm .popcnt rd a 0]
  | .clz, .w64 => [.aluImm .clz rd a 0]
  | .clz, .w32 => [.aluImm .clz Reg.t0 a 0, .aluImm (.sub .w64) rd Reg.t0 32]
  | .ctz, .w64 => [.aluImm .ctz rd a 0]
  | .ctz, .w32 => [.aluImm .or Reg.t0 a ((1 : U64) <<< 32), .aluImm .ctz rd Reg.t0 0]
  | .extend8S, _ => signExtendRows width rd a 8
  | .extend16S, _ => signExtendRows width rd a 16
  | .extend32S, _ => [.aluImm .signExtendWord rd a 0]

def convertRow (op : ConvertOp) (rd a : Reg) : Ir :=
  match op with
  | .wrapI64 => .aluImm .and rd a 0xFFFFFFFF
  | .extendI32S => .aluImm .signExtendWord rd a 0
  | .extendI32U => .mov rd a

/-! ## Linear-memory accesses -/

/-- `T0` = the effective guest address, the bounds assert, `T1` = the containing cell and
`T2` = the lane offset in it. -/
def addressRows (addr : Reg) (offset : ℕ) (width : MemWidth) : List Ir :=
  [add64 Reg.t0 addr (.reg addr),
    add64 Reg.t0 Reg.t0 (.imm (BitVec.ofNat 64 (linearAddress offset))),
    .assert .ltU (.outOfBounds width.bytes) Reg.t0 (.reg (limit width)),
    .aluImm .and Reg.t2 Reg.t0 laneMask,
    .aluImm .and Reg.t1 Reg.t0 (~~~(BitVec.ofNat 64 (linearCellBytes - 1)))]

/-- The rows before the branch to a crossing access, and the branch; a byte never crosses. -/
def crossingRows : MemWidth → List Ir × Option Ir
  | .b1 => ([], none)
  | .b4 | .b8 => ([], some (.branchIfNonzero Reg.t2 0))
  | .b2 => ([.const_ Reg.t4 5], some (.branch .ltU Reg.t4 Reg.t2 0))

/-- A load inside one wasm word, or an aligned `i64`. -/
def hotLoadRows (rd : Reg) (width : MemWidth) (signed : Bool) (result : Width) : List Ir :=
  match width with
  | .b8 =>
      [load Reg.t3 Reg.t1 0, load Reg.t4 Reg.t1 linearCellBytes,
        mul64 Reg.t4 Reg.t4 (.imm ((1 : U64) <<< 32)), .alu .or rd Reg.t3 (.reg Reg.t4)]
  | .b4 =>
      if signed then load Reg.t3 Reg.t1 0 :: narrowRows rd Reg.t3 width signed result
      else [load rd Reg.t1 0]
  | .b1 | .b2 =>
      [load Reg.t3 Reg.t1 0, mul64 Reg.t2 Reg.t2 (.imm shiftPerLane),
        .aluImm .shiftRightBitmask Reg.t4 Reg.t2 0, .alu .srl Reg.t3 Reg.t3 (.reg Reg.t4)] ++
      narrowRows rd Reg.t3 width signed result

/-- A load that crosses into the next wasm words. -/
def coldLoadRows (rd : Reg) (width : MemWidth) (signed : Bool) (result : Width) : List Ir :=
  [mul64 Reg.t2 Reg.t2 (.imm shiftPerLane),
    load Reg.t3 Reg.t1 0,
    .aluImm .shiftRightBitmask Reg.t4 Reg.t2 0,
    .alu .srl Reg.t3 Reg.t3 (.reg Reg.t4),
    load Reg.t4 Reg.t1 linearCellBytes,
    .const_ Reg.t0 32,
    .alu (.sub .w64) Reg.t0 Reg.t0 (.reg Reg.t2),
    .aluImm .pow2 Reg.t0 Reg.t0 0,
    mul64 Reg.t4 Reg.t4 (.reg Reg.t0),
    .alu .or Reg.t3 Reg.t3 (.reg Reg.t4)] ++
  (if width = .b8 then
    [load Reg.t4 Reg.t1 (2 * linearCellBytes),
      mul64 Reg.t4 Reg.t4 (.reg Reg.t0),
      mul64 Reg.t4 Reg.t4 (.imm ((1 : U64) <<< 32)),
      .alu .or Reg.t3 Reg.t3 (.reg Reg.t4)]
  else []) ++
  narrowRows rd Reg.t3 width signed result

/-- A store inside one wasm word, or an aligned `i64`. -/
def hotStoreRows (value : Reg) (wide : Bool) (width : MemWidth) : List Ir :=
  let mask := width.mask
  match width with
  | .b4 =>
      if wide then [.aluImm .and Reg.t3 value mask, store Reg.t1 Reg.t3 0]
      else [store Reg.t1 value 0]
  | .b8 =>
      [.aluImm .and Reg.t3 value wasmWordMask, store Reg.t1 Reg.t3 0,
        .aluImm .srl Reg.t3 value (shiftRightBitmask 32), store Reg.t1 Reg.t3 linearCellBytes]
  | .b1 | .b2 =>
      [mul64 Reg.t2 Reg.t2 (.imm shiftPerLane),
        load Reg.t3 Reg.t1 0,
        .aluImm .pow2 Reg.t4 Reg.t2 0,
        .const_ Reg.t0 mask,
        mul64 Reg.t0 Reg.t0 (.reg Reg.t4),
        .alu .andn Reg.t3 Reg.t3 (.reg Reg.t0),
        .aluImm .and Reg.t0 value mask,
        mul64 Reg.t0 Reg.t0 (.reg Reg.t4),
        .alu .or Reg.t3 Reg.t3 (.reg Reg.t0),
        store Reg.t1 Reg.t3 0]

/-- A store that crosses into the next wasm words. -/
def coldStoreRows (value : Reg) (width : MemWidth) : List Ir :=
  let mask := width.mask
  let bm32 := shiftRightBitmask 32
  [mul64 Reg.t2 Reg.t2 (.imm shiftPerLane),
    load Reg.t3 Reg.t1 0,
    .aluImm .pow2 Reg.t4 Reg.t2 0,
    .const_ Reg.t0 mask,
    mul64 Reg.t0 Reg.t0 (.reg Reg.t4),
    .aluImm .and Reg.t0 Reg.t0 wasmWordMask,
    .alu .andn Reg.t3 Reg.t3 (.reg Reg.t0),
    .aluImm .and Reg.t0 value mask,
    mul64 Reg.t0 Reg.t0 (.reg Reg.t4),
    .aluImm .and Reg.t0 Reg.t0 wasmWordMask,
    .alu .or Reg.t3 Reg.t3 (.reg Reg.t0),
    store Reg.t1 Reg.t3 0,
    .const_ Reg.t0 32,
    .alu (.sub .w64) Reg.t0 Reg.t0 (.reg Reg.t2),
    .aluImm .shiftRightBitmask Reg.t0 Reg.t0 0,
    load Reg.t3 Reg.t1 linearCellBytes,
    .const_ Reg.t4 mask,
    .alu .srl Reg.t4 Reg.t4 (.reg Reg.t0),
    .aluImm .and Reg.t4 Reg.t4 wasmWordMask,
    .alu .andn Reg.t3 Reg.t3 (.reg Reg.t4),
    .aluImm .and Reg.t4 value mask,
    .alu .srl Reg.t4 Reg.t4 (.reg Reg.t0),
    .aluImm .and Reg.t4 Reg.t4 wasmWordMask,
    .alu .or Reg.t3 Reg.t3 (.reg Reg.t4),
    store Reg.t1 Reg.t3 linearCellBytes] ++
  (if width = .b8 then
    [load Reg.t3 Reg.t1 (2 * linearCellBytes),
      .const_ Reg.t4 (BitVec.allOnes 64),
      .alu .srl Reg.t4 Reg.t4 (.reg Reg.t0),
      .aluImm .srl Reg.t4 Reg.t4 bm32,
      .alu .andn Reg.t3 Reg.t3 (.reg Reg.t4),
      .alu .srl Reg.t4 value (.reg Reg.t0),
      .aluImm .srl Reg.t4 Reg.t4 bm32,
      .alu .or Reg.t3 Reg.t3 (.reg Reg.t4),
      store Reg.t1 Reg.t3 (2 * linearCellBytes)]
  else [])

/-- Set the bounds-limit registers from the memory size in bytes held in `size`. -/
def limitRows (size : Reg) : List Ir :=
  mul64 Reg.t2 size (.imm (BitVec.ofNat 64 cellsPerByte)) ::
  [MemWidth.b1, .b2, .b4, .b8].map fun width =>
    add64 (limit width) Reg.t2
      (.imm (BitVec.ofNat 64 (linearAddress 0) - BitVec.ofNat 64 (cellsPerByte * width.bytes) + 1))

/-- `RA` = the entry pc of function-table slot `index`, trapping past the table and on a slot of
another signature. -/
def indirectTargetRows (tableSlots : ℕ) (index : Reg) (signature : ℕ) : List Ir :=
  [.assert .ltU .tableOutOfBounds index (.imm (BitVec.ofNat 64 tableSlots)),
    mul64 Reg.ra index (.imm (BitVec.ofNat 64 tableSlotBytes)),
    load Reg.t0 Reg.ra (tableSlotAddress 0 + wordBytes : ℕ),
    .assert .eq .indirectCallTypeMismatch Reg.t0 (.imm (BitVec.ofNat 64 (signature + 1))),
    load Reg.ra Reg.ra (tableSlotAddress 0)]

/-! ## Emitting rows -/

namespace Emitter

/-- Stop with a lowering error. -/
def fail {α : Type} (e : LowerError) : EmitM α := throw (.error e)

/-- A Rust panic. -/
def panicked {α : Type} : EmitM α := throw .panic

/-- `a - b` on heights and slots. -/
def u32Sub (a b : ℕ) : EmitM ℕ := do
  let e ← get
  if e.overflowChecks = true ∧ a < b then panicked else return U32.sub a b

/-- `a + b` on heights and slots. -/
def u32Add (a b : ℕ) : EmitM ℕ := do
  let e ← get
  if e.overflowChecks = true ∧ 2 ^ 32 ≤ a + b then panicked else return U32.add a b

/-- The pc of the next row. -/
def pc : EmitM Pc := do
  let e ← get
  if e.code.length < 2 ^ 32 then return BitVec.ofNat 32 e.code.length
  else fail (.programTooLarge 32)

/-- Append a row; returns its index. -/
def emit (ir : Ir) : EmitM ℕ := do
  let at_ ← pc
  modify fun e => { e with code := e.code ++ [ir] }
  return at_.toNat

def emitAll : List Ir → EmitM Unit
  | [] => pure ()
  | ir :: irs => do
      let _ ← emit ir
      emitAll irs

/-- `rd = op(a, b)` for a source binary operator. -/
def emitBinary (width : Width) (op : BinaryOp) (rd a : Reg) (b : Operand) : EmitM Unit :=
  emitAll (binaryRows width op rd a b)

/-- Patch the target of the row at index `at_`. -/
def patch (at_ : ℕ) (target : Pc) : EmitM Unit := do
  let e ← get
  if at_ < e.code.length then set { e with code := e.code.modify at_ (setTarget target) }
  else panicked

/-- Emitting appends the row at the next pc. -/
theorem emit_ok {ir : Ir} {e e' : Emitter} {at_ : ℕ} (emitted : emit ir e = .ok (at_, e')) :
    e.code.length < 2 ^ 32 ∧ at_ = e.code.length ∧ e' = { e with code := e.code ++ [ir] } := by
  by_cases small : e.code.length < 2 ^ 32
  · have computed : emit ir e =
        .ok ((BitVec.ofNat 32 e.code.length).toNat, { e with code := e.code ++ [ir] }) := by
      simp only [emit, pc, bind, StateT.bind, get, getThe, MonadStateOf.get, StateT.get, pure,
        Except.pure, Except.bind, small, if_true]
      rfl
    rw [computed, Except.ok.injEq, Prod.mk.injEq] at emitted
    rw [BitVec.toNat_ofNat, Nat.mod_eq_of_lt small] at emitted
    exact ⟨small, emitted.1.symm, emitted.2.symm⟩
  · have computed : emit ir e = .error (.error (.programTooLarge 32)) := by
      simp only [emit, pc, bind, StateT.bind, get, getThe, MonadStateOf.get, StateT.get, pure,
        Except.pure, Except.bind, small, if_false]
      rfl
    rw [computed] at emitted
    cases emitted

/-- Emitting rows appends them, below the pc limit. -/
theorem emitAll_ok {rows : List Ir} {e e' : Emitter} (emitted : emitAll rows e = .ok ((), e')) :
    (rows = [] ∨ e.code.length + rows.length ≤ 2 ^ 32) ∧
      e' = { e with code := e.code ++ rows } := by
  induction rows generalizing e with
  | nil =>
      cases emitted
      simp
  | cons row rows ih =>
      simp only [emitAll, bind, StateT.bind, Except.bind] at emitted
      cases first : emit row e with
      | error failure =>
          rw [first] at emitted
          cases emitted
      | ok result =>
          obtain ⟨at_, next⟩ := result
          rw [first] at emitted
          obtain ⟨small, -, rfl⟩ := emit_ok first
          obtain ⟨bound, rfl⟩ := ih emitted
          simp only [List.length_append, List.length_singleton] at bound
          refine ⟨.inr ?_, by simp⟩
          rcases bound with rfl | bound
          · exact small
          · rw [List.length_cons]
            omega

end Emitter

namespace FunctionCtx

open Emitter

def slot (ctx : FunctionCtx) (slot : ℕ) : EmitM Reg :=
  match Reg.frameSlot slot with
  | some r => pure r
  | none => fail (.frameTooLarge ctx.index (slot + 1) maxFrameSlots)

/-- Register of operand-stack depth `depth`. -/
def stack (ctx : FunctionCtx) (depth : ℕ) : EmitM Reg := do
  let slot ← u32Add ctx.sig.locals depth
  ctx.slot slot

def takePending (ctx : FunctionCtx) (depth : ℕ) : Option Pending × FunctionCtx :=
  ((ctx.pending[depth]?).join, { ctx with pending := ctx.pending.set depth none })

def setPending (ctx : FunctionCtx) (depth : ℕ) (value : Pending) : FunctionCtx :=
  { ctx with
    pending :=
      (ctx.pending ++ List.replicate (depth + 1 - ctx.pending.length) none).set depth (some value) }

def label (ctx : FunctionCtx) (depth : ℕ) : EmitM Label :=
  match ctx.labels[depth]? with
  | some l => pure l
  | none => fail (.labelDepth depth)

/-- Add a forward jump to the fixups of label `depth`. -/
def pushFixup (ctx : FunctionCtx) (depth at_ : ℕ) : FunctionCtx :=
  { ctx with
    labels := ctx.labels.modify depth fun l => { l with fixups := l.fixups ++ [at_] } }

end FunctionCtx

end JoltWasm
