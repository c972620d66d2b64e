import JoltWasm.Ir.Instruction

/-!
# The source universe

Decoded and validated WebAssembly modules of the integer core.  Every operator carries the
operand-stack height before it executes, as the validator computed it.
-/

namespace JoltWasm

inductive ValType where
  | i32
  | i64
  deriving DecidableEq

def ValType.width : ValType → Width
  | i32 => .w32
  | i64 => .w64

inductive UnaryOp where
  | clz
  | ctz
  | popcnt
  | eqz
  | extend8S
  | extend16S
  | extend32S
  deriving DecidableEq

inductive BinaryOp where
  | add
  | sub
  | mul
  | divS
  | divU
  | remS
  | remU
  | and
  | or
  | xor
  | shl
  | shrS
  | shrU
  | rotl
  | rotr
  | eq
  | ne
  | ltS
  | ltU
  | gtS
  | gtU
  | leS
  | leU
  | geS
  | geU
  deriving DecidableEq

inductive ConvertOp where
  | wrapI64
  | extendI32S
  | extendI32U
  deriving DecidableEq

/-- Number of bytes a load or store touches in linear memory. -/
inductive MemWidth where
  | b1
  | b2
  | b4
  | b8
  deriving DecidableEq

namespace MemWidth

def bytes : MemWidth → ℕ
  | b1 => 1
  | b2 => 2
  | b4 => 4
  | b8 => 8

/-- Mask of the low `bytes` bytes. -/
def mask : MemWidth → U64
  | b1 => 0xFF
  | b2 => 0xFFFF
  | b4 => 0xFFFFFFFF
  | b8 => BitVec.allOnes 64

end MemWidth

/-- Block signature: counts of parameters and results. -/
structure BlockSig where
  params : ℕ
  results : ℕ
  deriving DecidableEq

/-- One supported source operator. -/
inductive WasmOp where
  | unreachable
  | nop
  | block (sig : BlockSig)
  | loop (sig : BlockSig)
  | if_ (sig : BlockSig)
  | else_
  | end_
  | br (depth : ℕ)
  | brIf (depth : ℕ)
  | brTable (targets : List ℕ) (default : ℕ)
  | return_
  | call (function : ℕ)
  | callIndirect (typeIndex : ℕ)
  | drop
  | select
  | localGet (i : ℕ)
  | localSet (i : ℕ)
  | localTee (i : ℕ)
  | globalGet (g : ℕ)
  | globalSet (g : ℕ)
  | load (ty : ValType) (width : MemWidth) (signed : Bool) (offset : ℕ)
  | store (ty : ValType) (width : MemWidth) (offset : ℕ)
  | memorySize
  | memoryGrow
  | const_ (ty : ValType) (value : U64)
  | unary (width : Width) (op : UnaryOp)
  | binary (width : Width) (op : BinaryOp)
  | convert (op : ConvertOp)
  deriving DecidableEq

structure FuncType where
  params : List ValType
  results : List ValType
  deriving DecidableEq

/-- One source operator with the operand-stack height before it. -/
structure SourceOp where
  op : WasmOp
  height : ℕ
  deriving DecidableEq

structure Function where
  typeIndex : ℕ
  /-- Declared locals, excluding parameters. -/
  locals : List ValType
  body : List SourceOp
  maxHeight : ℕ
  deriving DecidableEq

structure Global where
  ty : ValType
  isMutable : Bool
  init : U64
  deriving DecidableEq

structure MemoryDecl where
  initialPages : ℕ
  maxPages : Option ℕ
  deriving DecidableEq

structure TableDecl where
  initial : ℕ
  maximum : Option ℕ
  deriving DecidableEq

/-- An active element segment: function indices, `none` for a null reference. -/
structure ElementSegment where
  offset : ℕ
  functions : List (Option ℕ)
  deriving DecidableEq

/-- A decoded module.  Maps from names are association lists in key order. -/
structure WasmModule where
  types : List FuncType := []
  functions : List Function := []
  globals : List Global := []
  memory : Option MemoryDecl := none
  data : List DataSegment := []
  table : Option TableDecl := none
  elements : List ElementSegment := []
  /-- Words an export returns through memory, for exports that declare it. -/
  memoryOutputs : List (String × ℕ) := []
  exports : List (String × ℕ) := []
  start : Option ℕ := none
  deriving DecidableEq

/-- The type of function `function`. -/
def WasmModule.funcType (m : WasmModule) (function : ℕ) : Option FuncType := do
  let f ← m.functions[function]?
  m.types[f.typeIndex]?

/-- Errors raised while lowering a decoded module. -/
inductive LowerError where
  | frameTooLarge (function slots max : ℕ)
  | tooManyResults (function results max : ℕ)
  | programTooLarge (bits : ℕ)
  | functionIndex (index : ℕ)
  | labelDepth (depth : ℕ)
  | malformedControl (function : ℕ)
  | memoryTooLarge (pages max : ℕ)
  | tableTooLarge (slots max : ℕ)
  | tooManyOutputs («export» : String) (words max : ℕ)
  | outputsNeedPointer («export» : String)
  deriving DecidableEq

end JoltWasm
