import JoltWasm.Frontend.Emitter

/-!
# Lowering

The passes of the emitter over control flow, calls and memory, one operator at a time, and the
lowering of a whole module.  Operators carry the operand-stack height before them.
-/

namespace JoltWasm

open Layout

namespace Emitter

/-! ## Pending values -/

/-- Write a pending value into its slot's register. -/
def materialize (ctx : FunctionCtx) (depth : ℕ) (value : Pending) : EmitM Unit := do
  let rd ← ctx.stack depth
  match value with
  | .local_ i => do
      let rs ← ctx.slot i
      let _ ← emit (.mov rd rs)
  | .const_ v => do
      let _ ← emit (.const_ rd v)

/-- Materialize the selected pending values at the given depths. -/
def materializeWhere (select : Pending → Bool) (ctx : FunctionCtx) : List ℕ → EmitM FunctionCtx
  | [] => pure ctx
  | depth :: depths => do
      match (ctx.pending[depth]?).join with
      | some value =>
          if select value then do
            materialize ctx depth value
            materializeWhere select (ctx.takePending depth).2 depths
          else materializeWhere select ctx depths
      | none => materializeWhere select ctx depths

/-- Materialize every pending slot. -/
def materializeAll (ctx : FunctionCtx) : EmitM FunctionCtx :=
  materializeWhere (fun _ => true) ctx (List.range ctx.pending.length)

/-- Materialize the pending slots aliasing a local about to be written. -/
def materializeLocal (ctx : FunctionCtx) (i : ℕ) : EmitM FunctionCtx :=
  materializeWhere (fun value => value == .local_ i) ctx (List.range ctx.pending.length)

/-- The register holding the value at a stack depth; a pending constant is written first. -/
def src (ctx : FunctionCtx) (depth : ℕ) : EmitM (Reg × FunctionCtx) := do
  let (pending, ctx) := ctx.takePending depth
  match pending with
  | some (.local_ i) => do
      let r ← ctx.slot i
      return (r, ctx)
  | some (.const_ v) => do
      materialize ctx depth (.const_ v)
      let r ← ctx.stack depth
      return (r, ctx)
  | none => do
      let r ← ctx.stack depth
      return (r, ctx)

/-- Like `src`, but a pending constant becomes an immediate. -/
def srcOperand (ctx : FunctionCtx) (depth : ℕ) : EmitM (Operand × FunctionCtx) := do
  let (pending, ctx) := ctx.takePending depth
  match pending with
  | some (.const_ v) => return (.imm v, ctx)
  | some (.local_ i) => do
      let r ← ctx.slot i
      return (.reg r, ctx)
  | none => do
      let r ← ctx.stack depth
      return (.reg r, ctx)

/-- The destination register of an operator: the local itself when the next operator sets it (which
is then skipped), else the slot. -/
def dest (ctx : FunctionCtx) (depth : ℕ) (next : Option WasmOp) :
    EmitM (Reg × Bool × FunctionCtx) := do
  match next with
  | some (.localSet i) => do
      let ctx ← materializeLocal ctx i
      let r ← ctx.slot i
      return (r, true, ctx)
  | some (.localTee i) => do
      let ctx ← materializeLocal ctx i
      let ctx := ctx.setPending depth (.local_ i)
      let r ← ctx.slot i
      return (r, true, ctx)
  | _ => do
      let r ← ctx.stack depth
      return (r, false, ctx)

/-! ## Cold blocks -/

/-- Place the pending cold blocks here, patching their entry branches. -/
def flushBlocks : List ColdBlock → EmitM Unit
  | [] => pure ()
  | block :: blocks => do
      let start ← pc
      patch block.entryFixup start
      emitAll block.rows
      let _ ← emit (.jump block.rejoin)
      flushBlocks blocks

def flushCold : EmitM Unit := do
  let e ← get
  set { e with cold := [] }
  flushBlocks e.cold

/-- Register a cold block that rejoins at the current pc. -/
def addCold (entryFixup : ℕ) (rows : List Ir) : EmitM Unit := do
  let rejoin ← pc
  modify fun e => { e with cold := e.cold ++ [⟨entryFixup, rows, rejoin⟩] }

/-! ## Branches and calls -/

/-- Move the top `n` stack values down so they start at depth `base`. -/
def moveDown (ctx : FunctionCtx) (height base n : ℕ) : EmitM Unit := do
  let source ← u32Sub height n
  if source = base then pure ()
  else (List.range n).forM fun k => do
    let toDepth ← u32Add base k
    let rd ← ctx.stack toDepth
    let fromDepth ← u32Add source k
    let rs ← ctx.stack fromDepth
    let _ ← emit (.mov rd rs)

def needsMoves (ctx : FunctionCtx) (height depth : ℕ) : EmitM Bool := do
  let label ← ctx.label depth
  if 0 < label.arity then do
    let source ← u32Sub height label.arity
    return decide (source ≠ label.base)
  else return false

/-- The temporary that carries result `k`. -/
def resultTemp (function results k : ℕ) : EmitM Reg :=
  match Reg.temp k with
  | some r => pure r
  | none => fail (.tooManyResults function results maxResults)

def emitReturn (ctx : FunctionCtx) (height : ℕ) : EmitM Unit := do
  let results := ctx.sig.results
  (List.range results).forM fun k => do
    let first ← u32Sub height results
    let depth ← u32Add first k
    let rs ← ctx.stack depth
    let rd ← resultTemp ctx.index results k
    let _ ← emit (.mov rd rs)
  emitAll [load Reg.ra Reg.sp (-8), .jumpReg Reg.ra]

/-- Unconditional branch to label `depth` with the stack at `height`. -/
def branch (ctx : FunctionCtx) (height depth : ℕ) : EmitM FunctionCtx := do
  let label ← ctx.label depth
  if depth + 1 = ctx.labels.length then do
    emitReturn ctx height
    return ctx
  else do
    moveDown ctx height label.base label.arity
    match label.kind with
    | .loop entry => do
        let _ ← emit (.jump entry)
        return ctx
    | .block | .if_ _ | .else_ => do
        let at_ ← emit (.jump 0)
        return ctx.pushFixup depth at_

/-- The signature a call to the callee expects. -/
def calleeSignature (env : EmitterEnv) : Callee → EmitM Signature
  | .direct function =>
      match env.signatures[function]? with
      | some sig => pure sig
      | none => fail (.functionIndex function)
  | .indirect typeIndex _ =>
      match env.typeSignatures[typeIndex]? with
      | some sig => pure sig
      | none => fail (.functionIndex typeIndex)

def emitIndirectTarget (env : EmitterEnv) (index : Reg) (signature : ℕ) : EmitM Unit :=
  emitAll (indirectTargetRows env.tableSlots index signature)

/-- The jump into the callee. -/
def emitJumpTo (env : EmitterEnv) (callee : Callee) (signature : ℕ) : EmitM Unit :=
  match callee with
  | .direct function => do
      let at_ ← emit (.jump 0)
      modify fun e => { e with callFixups := e.callFixups ++ [(at_, function)] }
  | .indirect _ index => do
      emitIndirectTarget env index signature
      let _ ← emit (.jumpReg Reg.ra)

def emitCall (env : EmitterEnv) (ctx : FunctionCtx) (height : ℕ) (callee : Callee) :
    EmitM Unit := do
  let calleeSig ← calleeSignature env callee
  let live ← u32Add ctx.sig.locals height
  let frameSlots ← u32Add live 1
  let frameBytes : U64 := BitVec.ofNat 64 (frameSlots * 8)
  (List.range live).forM fun slot => do
    let value ← ctx.slot slot
    let _ ← emit (store Reg.sp value (slot * 8 : ℕ))
  let raPc ← emit (.const_ Reg.ra 0)
  let _ ← emit (store Reg.sp Reg.ra (live * 8 : ℕ))
  let argsBase ← u32Sub live calleeSig.params
  (List.range calleeSig.params).forM fun j => do
    let rd ← ctx.slot j
    let arg ← u32Add argsBase j
    let _ ← emit (load rd Reg.sp (arg * 8 : ℕ))
  let _ ← emit (add64 Reg.sp Reg.sp (.imm frameBytes))
  emitJumpTo env callee calleeSig.id
  let returnPc ← pc
  patch raPc returnPc
  let _ ← emit (add64 Reg.sp Reg.sp (.imm (-frameBytes)))
  (List.range argsBase).forM fun slot => do
    let rd ← ctx.slot slot
    let _ ← emit (load rd Reg.sp (slot * 8 : ℕ))
  (List.range calleeSig.results).forM fun k => do
    let result ← u32Add argsBase k
    let rd ← ctx.slot result
    let rs ← resultTemp ctx.index calleeSig.results k
    let _ ← emit (.mov rd rs)

/-! ## Memory -/

def emitLimits (size : Reg) : EmitM Unit := emitAll (limitRows size)

/-- `memory.grow` by `rs` pages into `rd`. -/
def emitMemoryGrow (env : EmitterEnv) (rd rs : Reg) : EmitM Unit := do
  emitAll [load Reg.t0 Reg.zero (memorySizeAddr : ℕ),
    mul64 Reg.t1 rs (.imm (BitVec.ofNat 64 pageSize)),
    add64 Reg.t1 Reg.t0 (.reg Reg.t1),
    .aluImm .leU Reg.t2 Reg.t1 (BitVec.ofNat 64 env.maxMemoryBytes)]
  let failed ← emit (.branchIfZero Reg.t2 0)
  let _ ← emit (store Reg.zero Reg.t1 (memorySizeAddr : ℕ))
  emitLimits Reg.t1
  let _ ← emit (.aluImm .srl rd Reg.t0 (shiftRightBitmask 16))
  let done ← emit (.jump 0)
  let failPc ← pc
  patch failed failPc
  let _ ← emit (.const_ rd 0xFFFFFFFF)
  let endPc ← pc
  patch done endPc

/-- The rows of an access: its address, the branch to the crossing rows, and the rows inside one
wasm word. -/
def emitAccess (addr : Reg) (offset : ℕ) (width : MemWidth) (hot crossing : List Ir) :
    EmitM Unit := do
  emitAll (addressRows addr offset width)
  emitAll (crossingRows width).1
  match (crossingRows width).2 with
  | some branchRow => do
      let at_ ← emit branchRow
      emitAll hot
      addCold at_ crossing
  | none => emitAll hot

def emitLoad (rd addr : Reg) (offset : ℕ) (width : MemWidth) (signed : Bool) (result : Width) :
    EmitM Unit :=
  emitAccess addr offset width (hotLoadRows rd width signed result)
    (coldLoadRows rd width signed result)

def emitStore (base value : Reg) (wide : Bool) (offset : ℕ) (width : MemWidth) : EmitM Unit :=
  emitAccess base offset width (hotStoreRows value wide width) (coldStoreRows value width)

def emitUnary (width : Width) (op : UnaryOp) (rd a : Reg) : EmitM Unit :=
  emitAll (unaryRows width op rd a)

/-! ## Operators -/

/-- The fixups of a label, patched to its end. -/
def patchAll (target : Pc) : List ℕ → EmitM Unit
  | [] => pure ()
  | at_ :: fixups => do
      patch at_ target
      patchAll target fixups

/-- `br_table`: one test for each target, then the default. -/
def emitBrTable (index : Reg) (height default : ℕ) (ctx : FunctionCtx) :
    ℕ → List ℕ → EmitM FunctionCtx
  | _, [] => branch ctx height default
  | i, depth :: targets => do
      let _ ← emit (.const_ Reg.t0 (BitVec.ofNat 64 i))
      let skip ← emit (.branch .ne index Reg.t0 0)
      let ctx ← branch ctx height depth
      let next ← pc
      patch skip next
      emitBrTable index height default ctx (i + 1) targets

/-- `br_if`: the branch itself when it carries no values to move, else a branch around it. -/
def emitBrIf (ctx : FunctionCtx) (cond : Reg) (height depth : ℕ) : EmitM FunctionCtx := do
  let direct ←
    if depth + 1 = ctx.labels.length then pure false
    else do
      let moves ← needsMoves ctx height depth
      pure (!moves)
  if direct then do
    let label ← ctx.label depth
    match label.kind with
    | .loop entry => do
        let _ ← emit (.branchIfNonzero cond entry)
        return ctx
    | .block | .if_ _ | .else_ => do
        let at_ ← emit (.branchIfNonzero cond 0)
        return ctx.pushFixup depth at_
  else do
    let skip ← emit (.branchIfZero cond 0)
    let ctx ← branch ctx height depth
    let endPc ← pc
    patch skip endPc
    return ctx

/-- `local.set` and `local.tee` of a value no operator wrote to the local directly. -/
def emitLocalSet (ctx : FunctionCtx) (h i : ℕ) : EmitM FunctionCtx := do
  let top ← u32Sub h 1
  let (value, ctx) := ctx.takePending top
  let ctx ← materializeLocal ctx i
  let rd ← ctx.slot i
  match value with
  | some (.local_ j) =>
      if j = i then return ctx
      else do
        let rs ← ctx.slot j
        let _ ← emit (.mov rd rs)
        return ctx
  | some (.const_ v) => do
      let _ ← emit (.const_ rd v)
      return ctx
  | none => do
      let rs ← ctx.stack top
      let _ ← emit (.mov rd rs)
      return ctx

/-- `select`. -/
def emitSelect (ctx : FunctionCtx) (h : ℕ) : EmitM FunctionCtx := do
  let first ← u32Sub h 3
  let (v1, ctx) ← src ctx first
  let second ← u32Sub h 2
  let (v2, ctx) ← src ctx second
  let top ← u32Sub h 1
  let (cond, ctx) ← src ctx top
  let rd ← ctx.stack first
  if v1 ≠ rd then do
    let _ ← emit (.mov rd v1)
  let skip ← emit (.branchIfNonzero cond 0)
  let _ ← emit (.mov rd v2)
  let endPc ← pc
  patch skip endPc
  return ctx

/-- `else`: the innermost label must be an `if`. -/
def emitElse (ctx : FunctionCtx) : EmitM FunctionCtx := do
  let ctx ← materializeAll ctx
  match ctx.labels with
  | ⟨.if_ skip, base, sig, fixups⟩ :: labels => do
      let toEnd ← emit (.jump 0)
      let elsePc ← pc
      patch skip elsePc
      return { ctx with labels := ⟨.else_, base, sig, fixups ++ [toEnd]⟩ :: labels }
  | _ => fail (.malformedControl ctx.index)

/-- `end`: the outermost label's is the function's return. -/
def emitEnd (ctx : FunctionCtx) (h : ℕ) : EmitM FunctionCtx := do
  let ctx ← materializeAll ctx
  match ctx.labels with
  | [] => fail (.malformedControl ctx.index)
  | label :: labels => do
      let ctx := { ctx with labels := labels }
      if labels = [] then emitReturn ctx h
      let endPc ← pc
      match label.kind with
      | .if_ skip => patch skip endPc
      | .block | .loop _ | .else_ => pure ()
      patchAll endPc label.fixups
      return ctx

/-- Lower one operator at stack height `h`.  Returns whether the next operator was absorbed as the
destination of this one. -/
def lowerOp (env : EmitterEnv) (ctx : FunctionCtx) (op : WasmOp) (h : ℕ) (next : Option WasmOp) :
    EmitM (Bool × FunctionCtx) := do
  match op with
  | .nop => return (false, ctx)
  | .drop => do
      let top ← u32Sub h 1
      return (false, (ctx.takePending top).2)
  | .unreachable => do
      let _ ← emit .trap
      return (false, ctx)
  | .const_ _ value => return (false, ctx.setPending h (.const_ value))
  | .localGet i => return (false, ctx.setPending h (.local_ i))
  | .localSet i => do
      let ctx ← emitLocalSet ctx h i
      return (false, ctx)
  | .localTee i => do
      let ctx ← emitLocalSet ctx h i
      let top ← u32Sub h 1
      return (false, ctx.setPending top (.local_ i))
  | .globalGet g => do
      let (rd, absorbed, ctx) ← dest ctx h next
      let _ ← emit (load rd Reg.zero (globalAddress g))
      return (absorbed, ctx)
  | .globalSet g => do
      let top ← u32Sub h 1
      let (value, ctx) ← src ctx top
      let _ ← emit (store Reg.zero value (globalAddress g))
      return (false, ctx)
  | .load ty width signed offset => do
      let top ← u32Sub h 1
      let (addr, ctx) ← src ctx top
      let (rd, absorbed, ctx) ← dest ctx top next
      emitLoad rd addr offset width signed ty.width
      return (absorbed, ctx)
  | .store ty width offset => do
      let second ← u32Sub h 2
      let (base, ctx) ← src ctx second
      let top ← u32Sub h 1
      let (value, ctx) ← src ctx top
      emitStore base value (ty = .i64) offset width
      return (false, ctx)
  | .memorySize => do
      let (rd, absorbed, ctx) ← dest ctx h next
      emitAll [load Reg.t0 Reg.zero (memorySizeAddr : ℕ),
        .aluImm .srl rd Reg.t0 (shiftRightBitmask 16)]
      return (absorbed, ctx)
  | .memoryGrow => do
      let top ← u32Sub h 1
      let (rs, ctx) ← src ctx top
      let (rd, absorbed, ctx) ← dest ctx top next
      emitMemoryGrow env rd rs
      return (absorbed, ctx)
  | .unary width op => do
      let top ← u32Sub h 1
      let (a, ctx) ← src ctx top
      let (rd, absorbed, ctx) ← dest ctx top next
      emitUnary width op rd a
      return (absorbed, ctx)
  | .binary width op => do
      let second ← u32Sub h 2
      let (rs1, ctx) ← src ctx second
      let top ← u32Sub h 1
      let (rs2, ctx) ←
        if binaryTakesImmediate op then srcOperand ctx top
        else do
          let (r, ctx) ← src ctx top
          pure (Operand.reg r, ctx)
      let (rd, absorbed, ctx) ← dest ctx second next
      emitBinary width op rd rs1 rs2
      return (absorbed, ctx)
  | .convert op => do
      let top ← u32Sub h 1
      let (a, ctx) ← src ctx top
      let (rd, absorbed, ctx) ← dest ctx top next
      let _ ← emit (convertRow op rd a)
      return (absorbed, ctx)
  | .select => do
      let ctx ← emitSelect ctx h
      return (false, ctx)
  | .block sig => do
      let ctx ← materializeAll ctx
      let base ← u32Sub h sig.params
      return (false, { ctx with labels := ⟨.block, base, sig, []⟩ :: ctx.labels })
  | .loop sig => do
      let ctx ← materializeAll ctx
      let entry ← pc
      let base ← u32Sub h sig.params
      return (false, { ctx with labels := ⟨.loop entry, base, sig, []⟩ :: ctx.labels })
  | .if_ sig => do
      let top ← u32Sub h 1
      let (cond, ctx) ← src ctx top
      let ctx ← materializeAll ctx
      let skip ← emit (.branchIfZero cond 0)
      let base ← u32Sub top sig.params
      return (false, { ctx with labels := ⟨.if_ skip, base, sig, []⟩ :: ctx.labels })
  | .else_ => do
      let ctx ← emitElse ctx
      return (false, ctx)
  | .end_ => do
      let ctx ← emitEnd ctx h
      return (false, ctx)
  | .br depth => do
      let ctx ← materializeAll ctx
      let ctx ← branch ctx h depth
      return (false, ctx)
  | .brIf depth => do
      let top ← u32Sub h 1
      let (cond, ctx) ← src ctx top
      let ctx ← materializeAll ctx
      let ctx ← emitBrIf ctx cond top depth
      return (false, ctx)
  | .brTable targets default => do
      let top ← u32Sub h 1
      let (index, ctx) ← src ctx top
      let ctx ← materializeAll ctx
      let ctx ← emitBrTable index top default ctx 0 targets
      return (false, ctx)
  | .return_ => do
      let ctx ← materializeAll ctx
      emitReturn ctx h
      return (false, ctx)
  | .call callee => do
      let ctx ← materializeAll ctx
      emitCall env ctx h (.direct callee)
      return (false, ctx)
  | .callIndirect typeIndex => do
      let ctx ← materializeAll ctx
      let top ← u32Sub h 1
      let index ← ctx.stack top
      emitCall env ctx top (.indirect typeIndex index)
      return (false, ctx)

/-- Lower a function body; an absorbed operator is skipped. -/
def lowerBody (env : EmitterEnv) (ctx : FunctionCtx) (skip : Bool) :
    List SourceOp → EmitM FunctionCtx
  | [] => pure ctx
  | source :: body =>
      if skip then lowerBody env ctx false body
      else do
        let (absorbed, ctx) ←
          lowerOp env ctx source.op source.height (body.head?.map SourceOp.op)
        lowerBody env ctx absorbed body

def lowerFunction (env : EmitterEnv) (index : ℕ) (function : Function) : EmitM Unit := do
  let some sig := env.signatures[index]? | panicked
  let ctx : FunctionCtx := ⟨index, sig, [⟨.block, 0, ⟨0, sig.results⟩, []⟩], []⟩
  (List.range (sig.locals - sig.params)).forM fun k => do
    let rd ← ctx.slot (sig.params + k)
    let _ ← emit (.mov rd Reg.zero)
  let ctx ← lowerBody env ctx false function.body
  if ctx.labels ≠ [] then fail (.malformedControl index)
  flushCold

/-! ## Entry stubs -/

/-- How an entry stub publishes an export's results. -/
inductive Outputs where
  | results
  /-- Words read from linear memory at the returned pointer. -/
  | memory (words : ℕ)
  deriving DecidableEq

/-- Store the results of an export to the public output words. -/
def emitOutputs (ctx : FunctionCtx) (sig : Signature) : Outputs → EmitM Unit
  | .results => (List.range sig.results).forM fun k => do
      let value ← ctx.slot k
      let _ ← emit (store Reg.zero value (outputAddress k : ℕ))
  | .memory words => do
      let pointer ← ctx.slot 0
      let word ← ctx.slot 1
      (List.range words).forM fun k => do
        emitLoad word pointer (k * wordBytes) .b8 false .w64
        let _ ← emit (store Reg.zero word (outputAddress k : ℕ))

/-- The entry stub of an exported function: set `SP` and the limits, run `start`, load the
parameters from the public input words, call, publish the results, and halt. -/
def emitEntryStub (env : EmitterEnv) (function : ℕ) (start : Option ℕ) (outputs : Outputs) :
    EmitM Unit := do
  let some sig := env.signatures[function]? | fail (.functionIndex function)
  let ctx : FunctionCtx :=
    ⟨function, ⟨sig.id, 0, 0, 0, max (max sig.params sig.results) 2⟩, [], []⟩
  let _ ← emit (.const_ Reg.sp (BitVec.ofNat 64 (shadowStackBase + 8)))
  let _ ← emit (load Reg.t0 Reg.zero (memorySizeAddr : ℕ))
  emitLimits Reg.t0
  match start with
  | some start => emitCall env ctx 0 (.direct start)
  | none => pure ()
  (List.range sig.params).forM fun i => do
    let rd ← ctx.slot i
    let _ ← emit (load rd Reg.zero (inputAddress i : ℕ))
  emitCall env ctx sig.params (.direct function)
  emitOutputs ctx sig outputs
  emitAll [.const_ Reg.t0 1, store Reg.zero Reg.t0 (terminationAddr : ℕ),
    .jump IrProgram.haltPc]
  flushCold

end Emitter

/-! ## The module -/

open Emitter

def lowerMemory (m : WasmModule) : Except EmitFailure MemoryLimits :=
  match m.memory with
  | some decl =>
      let cap := min (decl.maxPages.getD defaultMaxPages) maxPages
      if cap < decl.initialPages then .error (.error (.memoryTooLarge decl.initialPages cap))
      else .ok ⟨decl.initialPages, cap⟩
  | none => .ok ⟨0, 0⟩

/-- One id for each structurally distinct function type: the position of its first occurrence among
the distinct types so far. -/
def canonicalTypeIds (canonical : List FuncType) : List FuncType → List ℕ
  | [] => []
  | ty :: types =>
      match canonical.findIdx? (· == ty) with
      | some id => id :: canonicalTypeIds canonical types
      | none => canonical.length :: canonicalTypeIds (canonical ++ [ty]) types

/-- The signature of function `index`. -/
def functionSignature (m : WasmModule) (typeIds : List ℕ) (index : ℕ) (function : Function) :
    Except EmitFailure Signature := do
  let some ty := m.funcType index | .error (.error (.functionIndex index))
  let some id := typeIds[function.typeIndex]? | .error (.error (.functionIndex index))
  let locals := ty.params.length + function.locals.length
  let slots := locals + function.maxHeight
  if maxFrameSlots < slots then .error (.error (.frameTooLarge index slots maxFrameSlots))
  if maxResults < ty.results.length then
    .error (.error (.tooManyResults index ty.results.length maxResults))
  return ⟨id, ty.params.length, ty.results.length, locals, slots⟩

def functionSignatures (m : WasmModule) (typeIds : List ℕ) :
    ℕ → List Function → Except EmitFailure (List Signature)
  | _, [] => .ok []
  | index, function :: functions => do
      let sig ← functionSignature m typeIds index function
      let sigs ← functionSignatures m typeIds (index + 1) functions
      return sig :: sigs

/-- The signature of a type index that only `call_indirect` uses. -/
def typeSignatures (m : WasmModule) (typeIds : List ℕ) : List Signature :=
  (m.types.zip typeIds).map fun (ty, id) => ⟨id, ty.params.length, ty.results.length, 0, 0⟩

/-- Lower the functions from `index` on. -/
def lowerFunctions (env : EmitterEnv) : ℕ → List Function → EmitM (List IrFunction)
  | _, [] => pure []
  | index, function :: functions => do
      let entry ← pc
      lowerFunction env index function
      let some sig := env.signatures[index]? | panicked
      let rest ← lowerFunctions env (index + 1) functions
      return ⟨entry, sig.params, sig.results, sig.frameSlots⟩ :: rest

/-- How the module asks for the outputs of an export. -/
def exportOutputs (m : WasmModule) (name : String) (function : ℕ) : EmitM Outputs :=
  match m.memoryOutputs.lookup name with
  | none => pure .results
  | some words => do
      let some ty := m.funcType function | fail (.functionIndex function)
      if ty.results ≠ [.i32] then fail (.outputsNeedPointer name)
      if maxOutputWords < words then fail (.tooManyOutputs name words maxOutputWords)
      return .memory words

/-- Emit the entry stubs; returns each export's entry pc and its number of output words. -/
def lowerExports (m : WasmModule) (env : EmitterEnv) :
    List (String × ℕ) → EmitM (List (String × Pc) × List (String × ℕ))
  | [] => pure ([], [])
  | (name, function) :: exports => do
      let entry ← pc
      let outputs ← exportOutputs m name function
      emitEntryStub env function m.start outputs
      let words ← match outputs with
        | .memory words => pure words
        | .results =>
            match env.signatures[function]? with
            | some sig => pure sig.results
            | none => panicked
      let (entries, outputWords) ← lowerExports m env exports
      return ((name, entry) :: entries, (name, words) :: outputWords)

/-- Patch every call to its callee's entry. -/
def patchCalls (functions : List IrFunction) : List (ℕ × ℕ) → EmitM Unit
  | [] => pure ()
  | (at_, callee) :: fixups => do
      match functions[callee]? with
      | some f => patch at_ f.entry
      | none => fail (.functionIndex callee)
      patchCalls functions fixups

/-- The table slot of an element. -/
def elementSlot (functions : List IrFunction) (signatures : List Signature) :
    Option ℕ → Except EmitFailure (Option TableSlot)
  | none => .ok none
  | some function =>
      match functions[function]?, signatures[function]? with
      | some f, some sig => .ok (some ⟨f.entry, sig.id⟩)
      | some _, none => .error .panic
      | none, _ => .error (.error (.functionIndex function))

/-- Write the elements of a segment from slot `at_` on; `needed` is one past the segment's end. -/
def writeElements (functions : List IrFunction) (signatures : List Signature) (needed : ℕ) :
    ℕ → List (Option ℕ) → List (Option TableSlot) → Except EmitFailure (List (Option TableSlot))
  | _, [], table => .ok table
  | at_, element :: elements, table => do
      if table.length ≤ at_ then .error (.error (.tableTooLarge needed table.length))
      let slot ← elementSlot functions signatures element
      writeElements functions signatures needed (at_ + 1) elements (table.set at_ slot)

/-- Write the element segments in order. -/
def writeSegments (functions : List IrFunction) (signatures : List Signature) :
    List ElementSegment → List (Option TableSlot) → Except EmitFailure (List (Option TableSlot))
  | [], table => .ok table
  | segment :: segments, table => do
      let table ← writeElements functions signatures (segment.offset + segment.functions.length)
        segment.offset segment.functions table
      writeSegments functions signatures segments table

/-- Emit the functions and the entry stubs, and patch the calls. -/
def emitModule (m : WasmModule) (env : EmitterEnv) :
    EmitM (List IrFunction × List (String × Pc) × List (String × ℕ)) := do
  let functions ← lowerFunctions env 0 m.functions
  let (entries, outputWords) ← lowerExports m env m.exports
  let e ← get
  patchCalls functions e.callFixups
  return (functions, entries, outputWords)

/-- Lower the validated module to the register machine, in a release build or in one that checks
arithmetic. -/
def lower (m : WasmModule) (overflowChecks : Bool := false) : Except EmitFailure IrProgram := do
  let memory ← lowerMemory m
  let tableSlots := (m.table.map TableDecl.initial).getD 0
  if maxTableSlots < tableSlots then
    .error (.error (.tableTooLarge tableSlots maxTableSlots))
  let typeIds := canonicalTypeIds [] m.types
  let signatures ← functionSignatures m typeIds 0 m.functions
  let env : EmitterEnv :=
    ⟨signatures, typeSignatures m typeIds, tableSlots, memory.maxPages * pageSize⟩
  let ((functions, entries, outputWords), e) ← emitModule m env { overflowChecks := overflowChecks }
  let table ← writeSegments functions signatures m.elements (List.replicate tableSlots none)
  return {
    code := e.code
    functions := functions
    exports := m.exports
    entries := entries
    outputWords := outputWords
    memory := memory
    globals := m.globals.map Global.init
    data := m.data
    table := table }

end JoltWasm
