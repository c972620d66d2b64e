import JoltWasm.Lib.Agrees
import JoltWasm.Frontend.Lower

/-!
# The two builds

A build that checks arithmetic and one that wraps lower a module alike, unless the first panics.
-/

namespace JoltWasm

open Lib Emitter

namespace Emitter

/-- The state of a build that wraps. -/
def unchecked (e : Emitter) : Emitter := { e with overflowChecks := false }

/-- The builds agree until the checked one panics. -/
abbrev BuildsAgree {α : Type} (x : EmitM α) : Prop := Agrees unchecked .panic x

@[simp]
theorem fail_agrees {α : Type} (e : LowerError) : BuildsAgree (fail e : EmitM α) :=
  Agrees.throw _

@[simp]
theorem panicked_agrees {α : Type} : BuildsAgree (panicked : EmitM α) :=
  Agrees.throw _

@[simp]
theorem pc_agrees : BuildsAgree pc :=
  Agrees.get_bind fun e => Agrees.ite (Agrees.pure _) (fail_agrees _) e

@[simp]
theorem emit_agrees (ir : Ir) : BuildsAgree (emit ir) := by
  refine pc_agrees.bind fun _ => Agrees.bind ?_ fun _ => Agrees.pure _
  exact Agrees.modify fun _ => rfl

@[simp]
theorem emitAll_agrees (rows : List Ir) : BuildsAgree (emitAll rows) := by
  induction rows with
  | nil => exact Agrees.pure _
  | cons row rows ih => exact (emit_agrees row).bind fun _ => ih

@[simp]
theorem patch_agrees (at_ : ℕ) (target : Pc) : BuildsAgree (patch at_ target) := by
  refine Agrees.get_bind fun e => .inr ?_
  by_cases inside : at_ < e.code.length
  · rw [if_pos inside, if_pos (show at_ < (unchecked e).code.length from inside)]
    rfl
  · rw [if_neg inside, if_neg (show ¬ at_ < (unchecked e).code.length from inside)]
    rfl

/-- The build that wraps returns the difference that a checked build returns. -/
@[simp]
theorem u32Sub_agrees (a b : ℕ) : BuildsAgree (u32Sub a b) := by
  refine Agrees.get_bind fun e => ?_
  by_cases under : e.overflowChecks = true ∧ a < b
  · left
    rw [if_pos under]
    rfl
  · right
    rw [if_neg under]
    rfl

@[simp]
theorem u32Add_agrees (a b : ℕ) : BuildsAgree (u32Add a b) := by
  refine Agrees.get_bind fun e => ?_
  by_cases above : e.overflowChecks = true ∧ 2 ^ 32 ≤ a + b
  · left
    rw [if_pos above]
    rfl
  · right
    rw [if_neg above]
    rfl

@[simp]
theorem slot_agrees (ctx : FunctionCtx) (slot : ℕ) : BuildsAgree (ctx.slot slot) := by
  unfold FunctionCtx.slot
  cases Reg.frameSlot slot <;> simp

@[simp]
theorem stack_agrees (ctx : FunctionCtx) (depth : ℕ) : BuildsAgree (ctx.stack depth) := by
  simp [FunctionCtx.stack]

@[simp]
theorem label_agrees (ctx : FunctionCtx) (depth : ℕ) : BuildsAgree (ctx.label depth) := by
  unfold FunctionCtx.label
  cases ctx.labels[depth]? <;> simp

@[simp]
theorem materialize_agrees (ctx : FunctionCtx) (depth : ℕ) (value : Pending) :
    BuildsAgree (materialize ctx depth value) := by
  refine (stack_agrees ctx depth).bind fun rd => ?_
  cases value <;> simp

@[simp]
theorem materializeWhere_agrees (select : Pending → Bool) (ctx : FunctionCtx) (depths : List ℕ) :
    BuildsAgree (materializeWhere select ctx depths) := by
  induction depths generalizing ctx with
  | nil => exact Agrees.pure _
  | cons depth depths ih =>
      unfold materializeWhere
      cases (ctx.pending[depth]?).join <;> simp [ih]

@[simp]
theorem materializeAll_agrees (ctx : FunctionCtx) : BuildsAgree (materializeAll ctx) := by
  simp [materializeAll]

@[simp]
theorem materializeLocal_agrees (ctx : FunctionCtx) (i : ℕ) :
    BuildsAgree (materializeLocal ctx i) := by
  simp [materializeLocal]

@[simp]
theorem src_agrees (ctx : FunctionCtx) (depth : ℕ) : BuildsAgree (src ctx depth) := by
  rw [src, FunctionCtx.takePending]
  rcases (ctx.pending[depth]?).join with _ | ⟨i | v⟩ <;> simp

@[simp]
theorem srcOperand_agrees (ctx : FunctionCtx) (depth : ℕ) : BuildsAgree (srcOperand ctx depth) := by
  rw [srcOperand, FunctionCtx.takePending]
  rcases (ctx.pending[depth]?).join with _ | ⟨i | v⟩ <;> simp

@[simp]
theorem dest_agrees (ctx : FunctionCtx) (depth : ℕ) (next : Option WasmOp) :
    BuildsAgree (dest ctx depth next) := by
  unfold dest
  split <;> simp

@[simp]
theorem flushBlocks_agrees (blocks : List ColdBlock) : BuildsAgree (flushBlocks blocks) := by
  induction blocks with
  | nil => exact Agrees.pure _
  | cons block blocks ih =>
      exact pc_agrees.bind fun start => (patch_agrees _ start).bind fun _ =>
        (emitAll_agrees _).bind fun _ => (emit_agrees _).bind fun _ => ih

@[simp]
theorem flushCold_agrees : BuildsAgree flushCold :=
  Agrees.get_bind fun e => flushBlocks_agrees e.cold { e with cold := [] }

@[simp]
theorem addCold_agrees (entryFixup : ℕ) (rows : List Ir) : BuildsAgree (addCold entryFixup rows) :=
  pc_agrees.bind fun _ => Agrees.modify fun _ => rfl

@[simp]
theorem moveDown_agrees (ctx : FunctionCtx) (height base n : ℕ) :
    BuildsAgree (moveDown ctx height base n) := by
  refine (u32Sub_agrees height n).bind fun source => Agrees.ite (Agrees.pure _) ?_
  exact Agrees.forM _ fun k => (u32Add_agrees base k).bind fun toDepth =>
    (stack_agrees ctx toDepth).bind fun rd => (u32Add_agrees source k).bind fun fromDepth => by simp

@[simp]
theorem needsMoves_agrees (ctx : FunctionCtx) (height depth : ℕ) :
    BuildsAgree (needsMoves ctx height depth) := by
  refine (label_agrees ctx depth).bind fun label => Agrees.ite ?_ (Agrees.pure _)
  exact (u32Sub_agrees _ _).bind fun _ => Agrees.pure _

@[simp]
theorem resultTemp_agrees (function results k : ℕ) : BuildsAgree (resultTemp function results k) := by
  unfold resultTemp
  cases Reg.temp k <;> simp

@[simp]
theorem emitReturn_agrees (ctx : FunctionCtx) (height : ℕ) : BuildsAgree (emitReturn ctx height) := by
  refine Agrees.bind (Agrees.forM _ fun k => ?_) fun _ => emitAll_agrees _
  refine (u32Sub_agrees _ _).bind fun first => (u32Add_agrees first k).bind fun depth => ?_
  exact (stack_agrees ctx depth).bind fun rs => by simp

@[simp]
theorem branch_agrees (ctx : FunctionCtx) (height depth : ℕ) :
    BuildsAgree (branch ctx height depth) := by
  refine (label_agrees ctx depth).bind fun label => Agrees.ite (by simp) ?_
  refine (moveDown_agrees ctx _ _ _).bind fun _ => ?_
  cases label.kind <;> simp

@[simp]
theorem calleeSignature_agrees (env : EmitterEnv) (callee : Callee) :
    BuildsAgree (calleeSignature env callee) := by
  unfold calleeSignature
  cases callee <;> simp only <;> split <;> simp

@[simp]
theorem emitJumpTo_agrees (env : EmitterEnv) (callee : Callee) (signature : ℕ) :
    BuildsAgree (emitJumpTo env callee signature) := by
  cases callee with
  | direct function => exact (emit_agrees _).bind fun _ => Agrees.modify fun _ => rfl
  | indirect typeIndex index => simp [emitJumpTo, emitIndirectTarget]

@[simp]
theorem emitCall_agrees (env : EmitterEnv) (ctx : FunctionCtx) (height : ℕ) (callee : Callee) :
    BuildsAgree (emitCall env ctx height callee) := by
  refine (calleeSignature_agrees env callee).bind fun sig => (u32Add_agrees _ _).bind fun live => ?_
  refine (u32Add_agrees live 1).bind fun _ => Agrees.bind (Agrees.forM _ fun slot => by simp) ?_
  refine fun _ => (emit_agrees _).bind fun raPc => (emit_agrees _).bind fun _ => ?_
  refine (u32Sub_agrees live _).bind fun argsBase => Agrees.bind (Agrees.forM _ fun j => ?_) ?_
  · exact (slot_agrees ctx j).bind fun rd => by simp
  refine fun _ => (emit_agrees _).bind fun _ => (emitJumpTo_agrees env callee _).bind fun _ => ?_
  refine pc_agrees.bind fun returnPc => (patch_agrees raPc returnPc).bind fun _ => ?_
  refine (emit_agrees _).bind fun _ => Agrees.bind (Agrees.forM _ fun slot => by simp) fun _ => ?_
  refine Agrees.forM _ fun k => (u32Add_agrees argsBase k).bind fun result => ?_
  exact (slot_agrees ctx result).bind fun rd => by simp

@[simp]
theorem emitMemoryGrow_agrees (env : EmitterEnv) (rd rs : Reg) :
    BuildsAgree (emitMemoryGrow env rd rs) := by
  refine (emitAll_agrees _).bind fun _ => (emit_agrees _).bind fun failed => ?_
  refine (emit_agrees _).bind fun _ => Agrees.bind (emitAll_agrees _) fun _ => ?_
  refine (emit_agrees _).bind fun _ => (emit_agrees _).bind fun done => ?_
  refine pc_agrees.bind fun failPc => (patch_agrees failed failPc).bind fun _ => ?_
  exact (emit_agrees _).bind fun _ => pc_agrees.bind fun endPc => patch_agrees done endPc

@[simp]
theorem emitAccess_agrees (addr : Reg) (offset : ℕ) (width : MemWidth) (hot crossing : List Ir) :
    BuildsAgree (emitAccess addr offset width hot crossing) := by
  refine (emitAll_agrees _).bind fun _ => (emitAll_agrees _).bind fun _ => ?_
  cases (crossingRows width).2 <;> simp

@[simp]
theorem patchAll_agrees (target : Pc) (fixups : List ℕ) : BuildsAgree (patchAll target fixups) := by
  induction fixups with
  | nil => exact Agrees.pure _
  | cons at_ fixups ih => simp [patchAll, ih]

@[simp]
theorem emitBrTable_agrees (index : Reg) (height default : ℕ) (ctx : FunctionCtx) (i : ℕ)
    (targets : List ℕ) : BuildsAgree (emitBrTable index height default ctx i targets) := by
  induction targets generalizing ctx i with
  | nil => exact branch_agrees ctx height default
  | cons depth targets ih =>
      refine (emit_agrees _).bind fun _ => (emit_agrees _).bind fun skip => ?_
      refine (branch_agrees ctx height depth).bind fun ctx => pc_agrees.bind fun next => ?_
      exact (patch_agrees skip next).bind fun _ => ih ctx (i + 1)

/-! ## Operators -/

@[simp]
theorem emitBrIf_agrees (ctx : FunctionCtx) (cond : Reg) (height depth : ℕ) :
    BuildsAgree (emitBrIf ctx cond height depth) := by
  refine Agrees.ite ((Agrees.pure _).bind fun direct => ?_)
    ((needsMoves_agrees ctx height depth).bind fun moves => (Agrees.pure _).bind fun direct => ?_)
  -- Both ways, what follows depends on whether the branch is direct.
  all_goals
    refine Agrees.ite ((label_agrees ctx depth).bind fun label => ?_) ?_
    · cases label.kind <;> simp
    · refine (emit_agrees _).bind fun skip => (branch_agrees ctx height depth).bind fun ctx => ?_
      exact pc_agrees.bind fun endPc => by simp

@[simp]
theorem emitLocalSet_agrees (ctx : FunctionCtx) (h i : ℕ) :
    BuildsAgree (emitLocalSet ctx h i) := by
  refine (u32Sub_agrees h 1).bind fun top => ?_
  rw [FunctionCtx.takePending]
  refine (materializeLocal_agrees _ i).bind fun ctx' => (slot_agrees ctx' i).bind fun rd => ?_
  rcases (ctx.pending[top]?).join with _ | ⟨j | v⟩
  · exact (stack_agrees ctx' top).bind fun rs => by simp
  · exact Agrees.ite (Agrees.pure _) ((slot_agrees ctx' j).bind fun rs => by simp)
  · exact (emit_agrees _).bind fun _ => Agrees.pure _

@[simp]
theorem emitSelect_agrees (ctx : FunctionCtx) (h : ℕ) : BuildsAgree (emitSelect ctx h) := by
  refine (u32Sub_agrees h 3).bind fun first => (src_agrees ctx first).bind fun v1 => ?_
  refine (u32Sub_agrees h 2).bind fun second => (src_agrees v1.2 second).bind fun v2 => ?_
  refine (u32Sub_agrees h 1).bind fun top => (src_agrees v2.2 top).bind fun cond => ?_
  refine (stack_agrees cond.2 first).bind fun rd => ?_
  have rest : BuildsAgree (do
      let skip ← emit (.branchIfNonzero cond.1 0)
      let _ ← emit (.mov rd v2.1)
      let endPc ← pc
      patch skip endPc
      return cond.2) :=
    (emit_agrees _).bind fun skip => (emit_agrees _).bind fun _ => pc_agrees.bind fun _ => by simp
  exact Agrees.ite ((emit_agrees _).bind fun _ => rest) rest

@[simp]
theorem emitElse_agrees (ctx : FunctionCtx) : BuildsAgree (emitElse ctx) := by
  refine (materializeAll_agrees ctx).bind fun ctx => ?_
  split
  · exact (emit_agrees _).bind fun toEnd => pc_agrees.bind fun elsePc => by simp
  · exact fail_agrees _

@[simp]
theorem emitEnd_agrees (ctx : FunctionCtx) (h : ℕ) : BuildsAgree (emitEnd ctx h) := by
  refine (materializeAll_agrees ctx).bind fun ctx => ?_
  split
  · exact fail_agrees _
  · rename_i label labels _
    refine Agrees.ite ((emitReturn_agrees _ h).bind fun _ => ?_) ?_
    all_goals
      refine pc_agrees.bind fun endPc => ?_
      cases label.kind <;> simp

/-- The rows of an operator with one operand and one result. -/
theorem oneOperand_agrees {β : Type} (rows : Reg → Reg → EmitM β)
    (each : ∀ rd rs, BuildsAgree (rows rd rs)) (ctx : FunctionCtx) (h : ℕ) (next : Option WasmOp) :
    BuildsAgree (do
      let top ← u32Sub h 1
      let (rs, ctx) ← src ctx top
      let (rd, absorbed, ctx) ← dest ctx top next
      let _ ← rows rd rs
      return (absorbed, ctx)) :=
  (u32Sub_agrees h 1).bind fun top => (src_agrees ctx top).bind fun rs =>
    (dest_agrees rs.2 top next).bind fun rd => (each rd.1 rs.1).bind fun _ => Agrees.pure _

@[simp]
theorem lowerOp_agrees (env : EmitterEnv) (ctx : FunctionCtx) (op : WasmOp) (h : ℕ)
    (next : Option WasmOp) : BuildsAgree (lowerOp env ctx op h next) := by
  have all := materializeAll_agrees ctx
  cases op with
  | unreachable | nop | drop | const_ | localGet | localSet | select | else_ | end_ =>
      simp [lowerOp]
  | localTee i => exact (emitLocalSet_agrees ctx h i).bind fun ctx => by simp
  | globalGet g => exact (dest_agrees ctx h next).bind fun rd => by simp
  | globalSet g =>
      exact (u32Sub_agrees h 1).bind fun top => (src_agrees ctx top).bind fun value => by simp
  | load ty width signed offset =>
      exact oneOperand_agrees (fun rd rs => emitLoad rd rs offset width signed ty.width)
        (fun rd rs => emitAccess_agrees rs offset width _ _) ctx h next
  | store ty width offset =>
      refine (u32Sub_agrees h 2).bind fun second => (src_agrees ctx second).bind fun base => ?_
      refine (u32Sub_agrees h 1).bind fun top => (src_agrees base.2 top).bind fun value => ?_
      exact (emitAccess_agrees base.1 offset width _ _).bind fun _ => Agrees.pure _
  | memorySize => exact (dest_agrees ctx h next).bind fun rd => by simp
  | memoryGrow => exact oneOperand_agrees _ (emitMemoryGrow_agrees env) ctx h next
  | unary width op =>
      exact oneOperand_agrees (emitUnary width op) (fun rd rs => emitAll_agrees _) ctx h next
  | convert op =>
      exact oneOperand_agrees (fun rd rs => emit (convertRow op rd rs)) (fun rd rs => emit_agrees _)
        ctx h next
  | binary width op =>
      refine (u32Sub_agrees h 2).bind fun second => (src_agrees ctx second).bind fun lhs => ?_
      refine (u32Sub_agrees h 1).bind fun top => ?_
      have rest (operand : Operand × FunctionCtx) : BuildsAgree (do
          let (rd, absorbed, ctx) ← dest operand.2 second next
          emitBinary width op rd lhs.1 operand.1
          return (absorbed, ctx)) :=
        (dest_agrees operand.2 second next).bind fun rd => by simp [emitBinary]
      refine Agrees.ite ((srcOperand_agrees lhs.2 top).bind rest) ?_
      exact (src_agrees lhs.2 top).bind fun r => rest (.reg r.1, r.2)
  | block sig => exact all.bind fun ctx => by simp
  | loop sig => exact all.bind fun ctx => pc_agrees.bind fun entry => by simp
  | if_ sig =>
      refine (u32Sub_agrees h 1).bind fun top => (src_agrees ctx top).bind fun cond => ?_
      exact (materializeAll_agrees cond.2).bind fun ctx => (emit_agrees _).bind fun skip => by simp
  | br depth => exact all.bind fun ctx => by simp
  | brIf depth =>
      refine (u32Sub_agrees h 1).bind fun top => (src_agrees ctx top).bind fun cond => ?_
      exact (materializeAll_agrees cond.2).bind fun ctx => by simp
  | brTable targets default =>
      refine (u32Sub_agrees h 1).bind fun top => (src_agrees ctx top).bind fun index => ?_
      exact (materializeAll_agrees index.2).bind fun ctx => by simp
  | return_ => exact all.bind fun ctx => by simp
  | call function => exact all.bind fun ctx => by simp
  | callIndirect typeIndex =>
      refine all.bind fun ctx => (u32Sub_agrees h 1).bind fun top => ?_
      exact (stack_agrees ctx top).bind fun index => by simp

@[simp]
theorem lowerBody_agrees (env : EmitterEnv) (ctx : FunctionCtx) (skip : Bool)
    (body : List SourceOp) : BuildsAgree (lowerBody env ctx skip body) := by
  induction body generalizing ctx skip with
  | nil => exact Agrees.pure _
  | cons source body ih =>
      exact Agrees.ite (ih ctx false) ((lowerOp_agrees env ctx _ _ _).bind fun result =>
        ih result.2 result.1)

/-! ## The module -/

@[simp]
theorem lowerFunction_agrees (env : EmitterEnv) (index : ℕ) (function : Function) :
    BuildsAgree (lowerFunction env index function) := by
  unfold lowerFunction
  cases env.signatures[index]? with
  | none => exact panicked_agrees
  | some sig =>
      refine Agrees.bind (Agrees.forM _ fun k => by simp) fun _ => ?_
      refine (lowerBody_agrees env _ false _).bind fun ctx => ?_
      exact Agrees.ite ((fail_agrees _).bind fun _ => flushCold_agrees) flushCold_agrees

@[simp]
theorem lowerFunctions_agrees (env : EmitterEnv) (index : ℕ) (functions : List Function) :
    BuildsAgree (lowerFunctions env index functions) := by
  induction functions generalizing index with
  | nil => exact Agrees.pure _
  | cons function functions ih =>
      refine pc_agrees.bind fun entry => (lowerFunction_agrees env index function).bind fun _ => ?_
      cases env.signatures[index]? with
      | none => exact panicked_agrees
      | some sig => exact (ih (index + 1)).bind fun _ => Agrees.pure _

@[simp]
theorem emitOutputs_agrees (ctx : FunctionCtx) (sig : Signature) (outputs : Outputs) :
    BuildsAgree (emitOutputs ctx sig outputs) := by
  cases outputs with
  | results => exact Agrees.forM _ fun k => by simp
  | memory words =>
      refine (slot_agrees ctx 0).bind fun pointer => (slot_agrees ctx 1).bind fun word => ?_
      exact Agrees.forM _ fun k => (emitAccess_agrees pointer _ .b8 _ _).bind fun _ => by simp

@[simp]
theorem emitEntryStub_agrees (env : EmitterEnv) (function : ℕ) (start : Option ℕ)
    (outputs : Outputs) : BuildsAgree (emitEntryStub env function start outputs) := by
  unfold emitEntryStub
  cases env.signatures[function]? with
  | none => exact fail_agrees _
  | some sig =>
      have rest (ctx : FunctionCtx) : BuildsAgree (do
          (List.range sig.params).forM fun i => do
            let rd ← ctx.slot i
            let _ ← emit (JoltWasm.load rd Reg.zero (Layout.inputAddress i : ℕ))
          emitCall env ctx sig.params (.direct function)
          emitOutputs ctx sig outputs
          emitAll [.const_ Reg.t0 1, JoltWasm.store Reg.zero Reg.t0 (Layout.terminationAddr : ℕ),
            .jump IrProgram.haltPc]
          flushCold) :=
        Agrees.bind (Agrees.forM _ fun i => by simp) fun _ => (emitCall_agrees env ctx _ _).bind
          fun _ => (emitOutputs_agrees ctx sig outputs).bind fun _ => by simp
      refine (emit_agrees _).bind fun _ => (emit_agrees _).bind fun _ => ?_
      refine Agrees.bind (emitAll_agrees _) fun _ => ?_
      cases start with
      | none => exact rest _
      | some start => exact (emitCall_agrees env _ _ _).bind fun _ => rest _

@[simp]
theorem exportOutputs_agrees (m : WasmModule) (name : String) (function : ℕ) :
    BuildsAgree (exportOutputs m name function) := by
  unfold exportOutputs
  cases m.memoryOutputs.lookup name with
  | none => exact Agrees.pure _
  | some words =>
      cases m.funcType function with
      | none => exact fail_agrees _
      | some ty =>
          have rest : BuildsAgree (if Layout.maxOutputWords < words then do
              let _ ← (fail (.tooManyOutputs name words Layout.maxOutputWords) : EmitM PUnit)
              return Outputs.memory words
              else return Outputs.memory words) :=
            Agrees.ite ((fail_agrees _).bind fun _ => Agrees.pure _) (Agrees.pure _)
          exact Agrees.ite ((fail_agrees _).bind fun _ => rest) rest

@[simp]
theorem lowerExports_agrees (m : WasmModule) (env : EmitterEnv) (exports : List (String × ℕ)) :
    BuildsAgree (lowerExports m env exports) := by
  induction exports with
  | nil => exact Agrees.pure _
  | cons head exports ih =>
      obtain ⟨name, function⟩ := head
      refine pc_agrees.bind fun entry => (exportOutputs_agrees m name function).bind fun outputs => ?_
      refine (emitEntryStub_agrees env function m.start outputs).bind fun _ => ?_
      have rest (words : ℕ) : BuildsAgree (do
          let rest ← lowerExports m env exports
          return ((name, entry) :: rest.1, (name, words) :: rest.2)) :=
        ih.bind fun _ => Agrees.pure _
      cases outputs with
      | memory words => exact rest words
      | results =>
          cases env.signatures[function]? with
          | none => exact panicked_agrees
          | some sig => exact rest sig.results

@[simp]
theorem patchCalls_agrees (functions : List IrFunction) (fixups : List (ℕ × ℕ)) :
    BuildsAgree (patchCalls functions fixups) := by
  induction fixups with
  | nil => exact Agrees.pure _
  | cons fixup fixups ih =>
      obtain ⟨at_, callee⟩ := fixup
      unfold patchCalls
      cases functions[callee]? with
      | none => exact (fail_agrees _).bind fun _ => ih
      | some f => exact (patch_agrees at_ _).bind fun _ => ih

theorem emitModule_agrees (m : WasmModule) (env : EmitterEnv) : BuildsAgree (emitModule m env) := by
  refine (lowerFunctions_agrees env 0 _).bind fun functions => ?_
  refine (lowerExports_agrees m env _).bind fun exports => Agrees.get_bind fun e => ?_
  exact (patchCalls_agrees functions e.callFixups).bind (fun _ => Agrees.pure _) e

end Emitter

/-- What the lowering reads of the module before it emits rows: the memory and the signatures. -/
def readModule (m : WasmModule) : Except EmitFailure (MemoryLimits × List Signature) := do
  let memory ← lowerMemory m
  let tableSlots := (m.table.map TableDecl.initial).getD 0
  if Layout.maxTableSlots < tableSlots then
    .error (.error (.tableTooLarge tableSlots Layout.maxTableSlots))
  let signatures ← functionSignatures m (canonicalTypeIds [] m.types) 0 m.functions
  return (memory, signatures)

/-- The environment of the emitter. -/
def moduleEnv (m : WasmModule) (read : MemoryLimits × List Signature) : EmitterEnv :=
  ⟨read.2, typeSignatures m (canonicalTypeIds [] m.types),
    (m.table.map TableDecl.initial).getD 0, read.1.maxPages * Layout.pageSize⟩

/-- The program of the rows emitted. -/
def finishModule (m : WasmModule) (read : MemoryLimits × List Signature)
    (emitted : (List IrFunction × List (String × Pc) × List (String × ℕ)) × Emitter) :
    Except EmitFailure IrProgram := do
  let table ← writeSegments emitted.1.1 read.2 m.elements
    (List.replicate ((m.table.map TableDecl.initial).getD 0) none)
  return {
    code := emitted.2.code
    functions := emitted.1.1
    exports := m.exports
    entries := emitted.1.2.1
    outputWords := emitted.1.2.2
    memory := read.1
    globals := m.globals.map Global.init
    data := m.data
    table := table }

/-- The lowering reads the module, emits its rows, and fills the table. -/
theorem lower_eq (m : WasmModule) (checks : Bool) :
    lower m checks = readModule m >>= fun read =>
      emitModule m (moduleEnv m read) { overflowChecks := checks } >>= finishModule m read := by
  unfold lower readModule
  cases lowerMemory m with
  | error e => rfl
  | ok memory =>
      simp only [bind, Except.bind]
      split
      · rfl
      · cases functionSignatures m (canonicalTypeIds [] m.types) 0 m.functions <;> rfl

/-- The two builds lower a module alike, unless the one that checks arithmetic panics. -/
theorem lower_agrees {m : WasmModule} (safe : lower m true ≠ .error .panic) :
    lower m false = lower m true := by
  rw [lower_eq] at safe
  rw [lower_eq, lower_eq]
  cases found : readModule m with
  | error e => rfl
  | ok read =>
      rw [found] at safe
      have same := emitModule_agrees m (moduleEnv m read) { overflowChecks := true }
      change emitModule m (moduleEnv m read) (unchecked { overflowChecks := true }) >>= _ =
        emitModule m (moduleEnv m read) { overflowChecks := true } >>= _
      change emitModule m (moduleEnv m read) { overflowChecks := true } >>= _ ≠ _ at safe
      rcases same with panics | same
      · rw [panics] at safe
        exact absurd rfl safe
      · rw [same]
        cases emitModule m (moduleEnv m read) { overflowChecks := true } <;> rfl

end JoltWasm
