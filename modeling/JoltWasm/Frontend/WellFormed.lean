import JoltWasm.Lib.Keeps
import JoltWasm.Frontend.Lower
import JoltWasm.Ir.Row

/-!
# Well-formed rows

Every row the lowering emits after the halt row writes no register zero, tests a boolean table and
does not halt; there are at most `2 ^ 32` of them, and the last row of a program with an export is a
jump.
-/

namespace JoltWasm

open Lib

/-- What the emitter maintains. -/
structure Emitter.WellFormed (e : Emitter) : Prop where
  head : e.code.head? = some .halt
  code : e.code.tail.all Ir.isWellFormed = true
  cold : ∀ block ∈ e.cold, block.rows.all Ir.isWellFormed = true
  length : e.code.length ≤ 2 ^ 32

@[simp] theorem isWellFormed_setTarget (target : Pc) (ir : Ir) :
    (setTarget target ir).isWellFormed = ir.isWellFormed := by
  unfold setTarget
  split <;> rfl

theorem all_modify {α : Type} {p : α → Bool} {f : α → α} (same : ∀ a, p (f a) = p a) (xs : List α)
    (i : ℕ) : (xs.modify i f).all p = xs.all p := by
  induction xs generalizing i with
  | nil => cases i <;> rfl
  | cons x xs ih =>
      cases i with
      | zero => simp [same]
      | succ i => simp [ih]

/-- Patching keeps a leading halt row and the rows after it. -/
theorem modify_setTarget {code : List Ir} (head : code.head? = some .halt) (at_ : ℕ) (target : Pc) :
    (code.modify at_ (setTarget target)).head? = some .halt ∧
      (code.modify at_ (setTarget target)).tail.all Ir.isWellFormed =
        code.tail.all Ir.isWellFormed := by
  cases code with
  | nil => cases head
  | cons row rows =>
      cases head
      cases at_ with
      | zero => exact ⟨rfl, rfl⟩
      | succ at_ => exact ⟨rfl, all_modify (isWellFormed_setTarget target) rows at_⟩

/-! ## The rows of the expansions -/

section Rows

variable {rd : Reg} (nonzero : rd ≠ Reg.zero)

include nonzero

theorem narrowRows_wellFormed (rs : Reg) (width : MemWidth) (signed : Bool) (result : Width) :
    (narrowRows rd rs width signed result).all Ir.isWellFormed = true := by
  cases width <;> cases signed <;> cases result <;>
    simp [narrowRows, signExtendRows, Ir.isWellFormed, Ir.mov, Ir.aluImm, mul64, nonzero] <;> decide

theorem binaryRows_wellFormed (width : Width) (op : BinaryOp) (a : Reg) (b : Operand) :
    (binaryRows width op rd a b).all Ir.isWellFormed = true := by
  cases op <;> cases width <;> cases b <;>
    simp [binaryRows, directTable, expandBinaryRows, compareRows, shiftBitmaskRows, rotrRows,
      assertNonzeroRows, unsignedDivmodRows, signedDivmodRows, Ir.isWellFormed, Ir.mov, Ir.aluImm,
      Ir.const_, mul64, AluOp.isBoolean, nonzero] <;> decide

theorem unaryRows_wellFormed (width : Width) (op : UnaryOp) (a : Reg) :
    (unaryRows width op rd a).all Ir.isWellFormed = true := by
  cases op <;> cases width <;>
    simp [unaryRows, signExtendRows, Ir.isWellFormed, Ir.aluImm, mul64, nonzero] <;> decide

theorem convertRow_wellFormed (op : ConvertOp) (a : Reg) :
    (convertRow op rd a).isWellFormed = true := by
  cases op <;> simp [convertRow, Ir.isWellFormed, Ir.aluImm, Ir.mov, nonzero]

theorem hotLoadRows_wellFormed (width : MemWidth) (signed : Bool) (result : Width) :
    (hotLoadRows rd width signed result).all Ir.isWellFormed = true := by
  have narrow := narrowRows_wellFormed nonzero Reg.t3
  cases width <;> cases signed <;>
    simp [hotLoadRows, narrow, Ir.isWellFormed, Ir.aluImm, mul64, load, nonzero, -List.all_eq_true] <;> decide

theorem coldLoadRows_wellFormed (width : MemWidth) (signed : Bool) (result : Width) :
    (coldLoadRows rd width signed result).all Ir.isWellFormed = true := by
  have narrow := narrowRows_wellFormed nonzero Reg.t3 width signed result
  simp only [coldLoadRows, List.all_append, narrow, Bool.and_true]
  split <;> rfl

end Rows

theorem hotStoreRows_wellFormed (value : Reg) (wide : Bool) (width : MemWidth) :
    (hotStoreRows value wide width).all Ir.isWellFormed = true := by
  cases width <;> cases wide <;> rfl

theorem coldStoreRows_wellFormed (value : Reg) (width : MemWidth) :
    (coldStoreRows value width).all Ir.isWellFormed = true := by
  cases width <;> rfl

theorem crossingRows_wellFormed (width : MemWidth) :
    (crossingRows width).1.all Ir.isWellFormed = true ∧
      ∀ row, (crossingRows width).2 = some row → row.isWellFormed = true := by
  cases width <;> refine ⟨rfl, ?_⟩ <;> rintro row ⟨⟩ <;> rfl

/-! ## The emitter -/

namespace Emitter

/-- The emitter's steps maintain well-formedness. -/
abbrev Sound {α : Type} (x : EmitM α) (Q : α → Prop := fun _ => True) : Prop :=
  Keeps WellFormed x Q

theorem fail_sound {α : Type} {Q : α → Prop} (e : LowerError) : Sound (fail e : EmitM α) Q :=
  Keeps.throw _

theorem pc_sound : Sound pc := by
  intro e inv at_ e' run
  unfold pc at run
  obtain ⟨e₁, e₂, got, rest⟩ := bind_eq_ok.mp run
  cases got
  split at rest <;> cases rest
  exact ⟨inv, trivial⟩

theorem emit_sound {ir : Ir} (wellFormed : ir.isWellFormed = true) : Sound (emit ir) := by
  intro e inv at_ e' run
  obtain ⟨small, -, rfl⟩ := emit_ok run
  have nonempty : e.code ≠ [] := by
    rintro empty
    have head := inv.head
    rw [empty] at head
    cases head
  refine ⟨⟨?_, ?_, inv.cold, ?_⟩, trivial⟩
  · rw [List.head?_append_of_ne_nil _ nonempty, inv.head]
  · rw [List.tail_append_of_ne_nil nonempty, List.all_append, inv.code, List.all_cons, wellFormed]
    rfl
  · rw [List.length_append]
    exact small

theorem emitAll_sound {rows : List Ir} (wellFormed : rows.all Ir.isWellFormed = true) :
    Sound (emitAll rows) := by
  induction rows with
  | nil => exact Keeps.pure trivial
  | cons row rows ih =>
      rw [List.all_cons, Bool.and_eq_true] at wellFormed
      exact (emit_sound wellFormed.1).seq fun _ => ih wellFormed.2

theorem patch_sound (at_ : ℕ) (target : Pc) : Sound (patch at_ target) := by
  refine Keeps.get.bind fun e inv => Keeps.ite (fun _ => Keeps.set ⟨?_, ?_, inv.cold, ?_⟩) fun _ =>
    Keeps.throw _
  · exact (modify_setTarget inv.head at_ target).1
  · rw [(modify_setTarget inv.head at_ target).2, inv.code]
  · rw [List.length_modify]
    exact inv.length

theorem frameSlot_ne_zero {slot : ℕ} {r : Reg} (found : Reg.frameSlot slot = some r) :
    r ≠ Reg.zero := by
  unfold Reg.frameSlot at found
  split at found <;> cases found
  rintro zero
  have := congrArg Fin.val zero
  simp only [Reg.frameBase] at this
  change 12 + slot = 0 at this
  omega

theorem slot_sound (ctx : FunctionCtx) (slot : ℕ) : Sound (ctx.slot slot) (· ≠ Reg.zero) := by
  unfold FunctionCtx.slot
  cases found : Reg.frameSlot slot with
  | none => exact fail_sound _
  | some r => exact Keeps.pure (frameSlot_ne_zero found)

theorem u32Sub_sound (a b : ℕ) : Sound (u32Sub a b) :=
  Keeps.get.bind fun _ _ => Keeps.ite (fun _ => Keeps.throw _) fun _ => Keeps.pure trivial

theorem u32Add_sound (a b : ℕ) : Sound (u32Add a b) :=
  Keeps.get.bind fun _ _ => Keeps.ite (fun _ => Keeps.throw _) fun _ => Keeps.pure trivial

theorem stack_sound (ctx : FunctionCtx) (depth : ℕ) : Sound (ctx.stack depth) (· ≠ Reg.zero) :=
  (u32Add_sound _ _).seq fun _ => slot_sound ctx _

theorem label_sound (ctx : FunctionCtx) (depth : ℕ) : Sound (ctx.label depth) := by
  unfold FunctionCtx.label
  cases ctx.labels[depth]? with
  | none => exact fail_sound _
  | some label => exact Keeps.pure trivial

theorem resultTemp_sound (function results k : ℕ) :
    Sound (resultTemp function results k) (· ≠ Reg.zero) := by
  unfold resultTemp
  cases found : Reg.temp k with
  | none => exact fail_sound _
  | some r =>
      refine Keeps.pure ?_
      unfold Reg.temp at found
      split at found <;> cases found
      rintro zero
      have := congrArg Fin.val zero
      change 3 + k = 0 at this
      omega

theorem mov_wellFormed {rd : Reg} (nonzero : rd ≠ Reg.zero) (rs : Reg) :
    (Ir.mov rd rs).isWellFormed = true := decide_eq_true nonzero

theorem const_wellFormed {rd : Reg} (nonzero : rd ≠ Reg.zero) (v : U64) :
    (Ir.const_ rd v).isWellFormed = true := decide_eq_true nonzero

theorem aluImm_wellFormed {rd : Reg} (nonzero : rd ≠ Reg.zero) (op : AluOp) (rs : Reg) (v : U64) :
    (Ir.aluImm op rd rs v).isWellFormed = true := decide_eq_true nonzero

theorem load_wellFormed {rd : Reg} (nonzero : rd ≠ Reg.zero) (base : Reg) (offset : ℤ) :
    (load rd base offset).isWellFormed = true := decide_eq_true nonzero

theorem materialize_sound (ctx : FunctionCtx) (depth : ℕ) (value : Pending) :
    Sound (materialize ctx depth value) := by
  refine (stack_sound ctx depth).bind fun rd nonzero => ?_
  cases value with
  | local_ i =>
      exact (slot_sound ctx i).bind fun rs _ =>
        (emit_sound (mov_wellFormed nonzero rs)).seq fun _ => Keeps.pure trivial
  | const_ v => exact (emit_sound (const_wellFormed nonzero v)).seq fun _ => Keeps.pure trivial

theorem materializeWhere_sound (select : Pending → Bool) (ctx : FunctionCtx) (depths : List ℕ) :
    Sound (materializeWhere select ctx depths) := by
  induction depths generalizing ctx with
  | nil => exact Keeps.pure trivial
  | cons depth depths ih =>
      unfold materializeWhere
      cases (ctx.pending[depth]?).join with
      | none => exact ih ctx
      | some value =>
          exact Keeps.ite
            (fun _ => (materialize_sound ctx depth value).seq fun _ => ih _) fun _ => ih ctx

theorem materializeAll_sound (ctx : FunctionCtx) : Sound (materializeAll ctx) :=
  materializeWhere_sound _ _ _

theorem materializeLocal_sound (ctx : FunctionCtx) (i : ℕ) : Sound (materializeLocal ctx i) :=
  materializeWhere_sound _ _ _

theorem src_sound (ctx : FunctionCtx) (depth : ℕ) : Sound (src ctx depth) := by
  unfold src
  rcases ctx.takePending depth with ⟨_ | i | v, ctx⟩
  · exact (stack_sound ctx depth).bind fun r _ => Keeps.pure trivial
  · exact (slot_sound ctx i).bind fun r _ => Keeps.pure trivial
  · exact (materialize_sound ctx depth _).seq fun _ =>
      (stack_sound ctx depth).bind fun r _ => Keeps.pure trivial

theorem srcOperand_sound (ctx : FunctionCtx) (depth : ℕ) : Sound (srcOperand ctx depth) := by
  unfold srcOperand
  rcases ctx.takePending depth with ⟨_ | i | v, ctx⟩
  · exact (stack_sound ctx depth).bind fun r _ => Keeps.pure trivial
  · exact (slot_sound ctx i).bind fun r _ => Keeps.pure trivial
  · exact Keeps.pure trivial

/-- The destination of an operator is not register zero. -/
theorem dest_sound (ctx : FunctionCtx) (depth : ℕ) (next : Option WasmOp) :
    Sound (dest ctx depth next) fun result => result.1 ≠ Reg.zero := by
  unfold dest
  split
  · exact (materializeLocal_sound ctx _).seq fun ctx =>
      (slot_sound ctx _).bind fun r nonzero => Keeps.pure nonzero
  · exact (materializeLocal_sound ctx _).seq fun ctx =>
      (slot_sound _ _).bind fun r nonzero => Keeps.pure nonzero
  · exact (stack_sound ctx depth).bind fun r nonzero => Keeps.pure nonzero

theorem flushBlocks_sound (blocks : List ColdBlock)
    (wellFormed : ∀ block ∈ blocks, block.rows.all Ir.isWellFormed = true) :
    Sound (flushBlocks blocks) := by
  induction blocks with
  | nil => exact Keeps.pure trivial
  | cons block blocks ih =>
      rw [List.forall_mem_cons] at wellFormed
      exact pc_sound.seq fun _ => (patch_sound _ _).seq fun _ =>
        (emitAll_sound wellFormed.1).seq fun _ => (emit_sound rfl).seq fun _ => ih wellFormed.2

theorem flushCold_sound : Sound flushCold :=
  Keeps.get.bind fun e inv => (Keeps.set ⟨inv.head, inv.code, by simp, inv.length⟩).seq fun _ =>
    flushBlocks_sound e.cold inv.cold

theorem addCold_sound (entryFixup : ℕ) {rows : List Ir}
    (wellFormed : rows.all Ir.isWellFormed = true) : Sound (addCold entryFixup rows) := by
  refine pc_sound.seq fun rejoin => Keeps.modify fun e inv =>
    ⟨inv.head, inv.code, ?_, inv.length⟩
  intro block member
  rcases List.mem_append.mp member with member | member
  · exact inv.cold block member
  · rw [List.mem_singleton.mp member]
    exact wellFormed

theorem moveDown_sound (ctx : FunctionCtx) (height base n : ℕ) :
    Sound (moveDown ctx height base n) := by
  refine (u32Sub_sound _ _).seq fun source => ?_
  refine Keeps.ite (fun _ => Keeps.pure trivial) fun _ => Keeps.forM _ fun k _ => ?_
  refine (u32Add_sound _ _).seq fun _ => (stack_sound ctx _).bind fun rd nonzero => ?_
  exact (u32Add_sound _ _).seq fun _ => (stack_sound ctx _).bind fun rs _ =>
    (emit_sound (mov_wellFormed nonzero rs)).seq fun _ => Keeps.pure trivial

theorem needsMoves_sound (ctx : FunctionCtx) (height depth : ℕ) :
    Sound (needsMoves ctx height depth) :=
  (label_sound ctx depth).seq fun _ =>
    Keeps.ite (fun _ => (u32Sub_sound _ _).seq fun _ => Keeps.pure trivial) fun _ =>
      Keeps.pure trivial

theorem emitReturn_sound (ctx : FunctionCtx) (height : ℕ) : Sound (emitReturn ctx height) := by
  refine Keeps.seq (Keeps.forM _ fun k _ => ?_) fun _ => emitAll_sound rfl
  refine (u32Sub_sound _ _).seq fun _ => (u32Add_sound _ _).seq fun _ => ?_
  exact (stack_sound ctx _).bind fun rs _ => (resultTemp_sound _ _ _).bind fun rd nonzero =>
    (emit_sound (mov_wellFormed nonzero rs)).seq fun _ => Keeps.pure trivial

theorem branch_sound (ctx : FunctionCtx) (height depth : ℕ) : Sound (branch ctx height depth) := by
  refine (label_sound ctx depth).seq fun label => Keeps.ite (fun _ => ?_) fun _ => ?_
  · exact (emitReturn_sound ctx height).seq fun _ => Keeps.pure trivial
  · refine (moveDown_sound ctx _ _ _).seq fun _ => ?_
    cases label.kind <;> exact (emit_sound rfl).seq fun _ => Keeps.pure trivial

theorem calleeSignature_sound (env : EmitterEnv) (callee : Callee) :
    Sound (calleeSignature env callee) := by
  unfold calleeSignature
  split <;> split <;> first | exact Keeps.pure trivial | exact fail_sound _

theorem emitJumpTo_sound (env : EmitterEnv) (callee : Callee) (signature : ℕ) :
    Sound (emitJumpTo env callee signature) := by
  cases callee with
  | direct function =>
      exact (emit_sound rfl).seq fun at_ => Keeps.modify fun e inv =>
        ⟨inv.head, inv.code, inv.cold, inv.length⟩
  | indirect typeIndex index =>
      exact (emitAll_sound rfl).seq fun _ => (emit_sound rfl).seq fun _ => Keeps.pure trivial

theorem emitCall_sound (env : EmitterEnv) (ctx : FunctionCtx) (height : ℕ) (callee : Callee) :
    Sound (emitCall env ctx height callee) := by
  refine (calleeSignature_sound env callee).seq fun sig => ?_
  refine (u32Add_sound _ _).seq fun live => (u32Add_sound _ _).seq fun frameSlots => ?_
  refine Keeps.seq (Keeps.forM _ fun slot _ => ?_) fun _ => ?_
  · exact (slot_sound ctx slot).bind fun value _ => (emit_sound rfl).seq fun _ => Keeps.pure trivial
  refine (emit_sound rfl).seq fun raPc => (emit_sound rfl).seq fun _ => ?_
  refine (u32Sub_sound _ _).seq fun argsBase => Keeps.seq (Keeps.forM _ fun j _ => ?_) fun _ => ?_
  · exact (slot_sound ctx j).bind fun rd nonzero => (u32Add_sound _ _).seq fun _ =>
      (emit_sound (load_wellFormed nonzero _ _)).seq fun _ => Keeps.pure trivial
  refine (emit_sound rfl).seq fun _ => (emitJumpTo_sound env callee _).seq fun _ => ?_
  refine pc_sound.seq fun returnPc => (patch_sound _ _).seq fun _ => ?_
  refine (emit_sound rfl).seq fun _ => Keeps.seq (Keeps.forM _ fun slot _ => ?_) fun _ =>
    Keeps.forM _ fun k _ => ?_
  · exact (slot_sound ctx slot).bind fun rd nonzero =>
      (emit_sound (load_wellFormed nonzero _ _)).seq fun _ => Keeps.pure trivial
  · refine (u32Add_sound _ _).seq fun _ => ?_
    exact (slot_sound ctx _).bind fun rd nonzero => (resultTemp_sound _ _ _).bind fun rs _ =>
      (emit_sound (mov_wellFormed nonzero rs)).seq fun _ => Keeps.pure trivial

theorem emitMemoryGrow_sound (env : EmitterEnv) {rd : Reg} (nonzero : rd ≠ Reg.zero) (rs : Reg) :
    Sound (emitMemoryGrow env rd rs) := by
  refine Keeps.seq (emitAll_sound rfl) fun _ => (emit_sound rfl).seq fun failed => ?_
  refine (emit_sound rfl).seq fun _ => (emitAll_sound rfl).seq fun _ => ?_
  refine (emit_sound (aluImm_wellFormed nonzero _ _ _)).seq fun _ => (emit_sound rfl).seq fun done => ?_
  refine pc_sound.seq fun failPc => (patch_sound _ _).seq fun _ => ?_
  exact (emit_sound (const_wellFormed nonzero _)).seq fun _ => pc_sound.seq fun endPc =>
    patch_sound _ _

theorem emitAccess_sound (addr : Reg) (offset : ℕ) (width : MemWidth) {hot crossing : List Ir}
    (hotRows : hot.all Ir.isWellFormed = true) (crossingWF : crossing.all Ir.isWellFormed = true) :
    Sound (emitAccess addr offset width hot crossing) := by
  obtain ⟨before, branchRow⟩ := crossingRows_wellFormed width
  refine (emitAll_sound rfl).seq fun _ => (emitAll_sound before).seq fun _ => ?_
  cases found : (crossingRows width).2 with
  | none => exact emitAll_sound hotRows
  | some row =>
      exact (emit_sound (branchRow row found)).seq fun at_ => (emitAll_sound hotRows).seq fun _ =>
        addCold_sound at_ crossingWF

theorem emitLoad_sound {rd : Reg} (nonzero : rd ≠ Reg.zero) (addr : Reg) (offset : ℕ)
    (width : MemWidth) (signed : Bool) (result : Width) :
    Sound (emitLoad rd addr offset width signed result) :=
  emitAccess_sound _ _ _ (hotLoadRows_wellFormed nonzero _ _ _)
    (coldLoadRows_wellFormed nonzero _ _ _)

theorem emitStore_sound (base value : Reg) (wide : Bool) (offset : ℕ) (width : MemWidth) :
    Sound (emitStore base value wide offset width) :=
  emitAccess_sound _ _ _ (hotStoreRows_wellFormed _ _ _) (coldStoreRows_wellFormed _ _)

theorem patchAll_sound (target : Pc) (fixups : List ℕ) : Sound (patchAll target fixups) := by
  induction fixups with
  | nil => exact Keeps.pure trivial
  | cons at_ fixups ih => exact (patch_sound at_ target).seq fun _ => ih

theorem emitBrTable_sound (index : Reg) (height default : ℕ) (ctx : FunctionCtx) (i : ℕ)
    (targets : List ℕ) : Sound (emitBrTable index height default ctx i targets) := by
  induction targets generalizing ctx i with
  | nil => exact branch_sound ctx height default
  | cons depth targets ih =>
      exact (emit_sound rfl).seq fun _ => (emit_sound rfl).seq fun skip =>
        (branch_sound ctx height depth).seq fun ctx => pc_sound.seq fun next =>
          (patch_sound skip next).seq fun _ => ih ctx (i + 1)

/-- The branch itself, or a branch around the moves. -/
theorem emitBrIf_sound (ctx : FunctionCtx) (cond : Reg) (height depth : ℕ) :
    Sound (emitBrIf ctx cond height depth) := by
  have around : Sound (do
      let skip ← emit (.branchIfZero cond 0)
      let ctx ← branch ctx height depth
      let endPc ← pc
      patch skip endPc
      return ctx) :=
    (emit_sound rfl).seq fun skip => (branch_sound ctx height depth).seq fun ctx =>
      pc_sound.seq fun endPc => (patch_sound skip endPc).seq fun _ => Keeps.pure trivial
  refine Keeps.ite (fun _ => Keeps.seq (Keeps.pure trivial) fun direct => ?_) fun _ =>
    (needsMoves_sound ctx height depth).seq fun moves => Keeps.seq (Keeps.pure trivial) fun direct =>
      ?_
  all_goals
    refine Keeps.ite (fun _ => (label_sound ctx depth).seq fun label => ?_) fun _ => around
    cases label.kind <;> exact (emit_sound rfl).seq fun _ => Keeps.pure trivial

theorem emitLocalSet_sound (ctx : FunctionCtx) (h i : ℕ) : Sound (emitLocalSet ctx h i) := by
  refine (u32Sub_sound _ _).seq fun top => ?_
  rcases ctx.takePending top with ⟨value, ctx⟩
  refine (materializeLocal_sound ctx i).seq fun ctx => ?_
  refine (slot_sound ctx i).bind fun rd nonzero => ?_
  rcases value with _ | j | v
  · exact (stack_sound ctx _).bind fun rs _ =>
      (emit_sound (mov_wellFormed nonzero rs)).seq fun _ => Keeps.pure trivial
  · refine Keeps.ite (fun _ => Keeps.pure trivial) fun _ => (slot_sound ctx j).bind fun rs _ => ?_
    exact (emit_sound (mov_wellFormed nonzero rs)).seq fun _ => Keeps.pure trivial
  · exact (emit_sound (const_wellFormed nonzero v)).seq fun _ => Keeps.pure trivial

theorem emitSelect_sound (ctx : FunctionCtx) (h : ℕ) : Sound (emitSelect ctx h) := by
  refine (u32Sub_sound _ _).seq fun _ => (src_sound ctx _).seq fun v1 => ?_
  refine (u32Sub_sound _ _).seq fun _ => (src_sound _ _).seq fun v2 => ?_
  refine (u32Sub_sound _ _).seq fun _ => (src_sound _ _).seq fun cond => ?_
  refine (stack_sound _ _).bind fun rd nonzero => ?_
  have rest : Sound (do
      let skip ← emit (.branchIfNonzero cond.1 0)
      let _ ← emit (.mov rd v2.1)
      let endPc ← pc
      patch skip endPc
      return cond.2) :=
    (emit_sound rfl).seq fun skip => (emit_sound (mov_wellFormed nonzero _)).seq fun _ =>
      pc_sound.seq fun endPc => (patch_sound skip endPc).seq fun _ => Keeps.pure trivial
  exact Keeps.ite (fun _ => (emit_sound (mov_wellFormed nonzero _)).seq fun _ => rest) fun _ => rest

theorem emitElse_sound (ctx : FunctionCtx) : Sound (emitElse ctx) := by
  refine (materializeAll_sound ctx).seq fun ctx => ?_
  split
  · exact (emit_sound rfl).seq fun toEnd => pc_sound.seq fun elsePc =>
      (patch_sound _ elsePc).seq fun _ => Keeps.pure trivial
  · exact fail_sound _

theorem emitEnd_sound (ctx : FunctionCtx) (h : ℕ) : Sound (emitEnd ctx h) := by
  refine (materializeAll_sound ctx).seq fun ctx => ?_
  split
  · exact fail_sound _
  · rename_i label labels _
    refine Keeps.ite (fun _ => (emitReturn_sound _ h).seq fun _ => ?_) fun _ => ?_
    all_goals
      refine pc_sound.seq fun endPc => ?_
      cases label.kind with
      | if_ skip =>
          exact (patch_sound skip endPc).seq fun _ => (patchAll_sound endPc _).seq fun _ =>
            Keeps.pure trivial
      | _ => exact (patchAll_sound endPc _).seq fun _ => Keeps.pure trivial

theorem lowerOp_sound (env : EmitterEnv) (ctx : FunctionCtx) (op : WasmOp) (h : ℕ)
    (next : Option WasmOp) : Sound (lowerOp env ctx op h next) := by
  cases op with
  | nop | const_ ty v | localGet i => exact Keeps.pure trivial
  | drop => exact (u32Sub_sound _ _).seq fun _ => Keeps.pure trivial
  | unreachable => exact (emit_sound rfl).seq fun _ => Keeps.pure trivial
  | localSet i => exact (emitLocalSet_sound ctx h i).seq fun _ => Keeps.pure trivial
  | localTee i =>
      exact (emitLocalSet_sound ctx h i).seq fun _ => (u32Sub_sound _ _).seq fun _ =>
        Keeps.pure trivial
  | globalGet g =>
      exact (dest_sound ctx h next).bind fun dest nonzero =>
        (emit_sound (load_wellFormed nonzero _ _)).seq fun _ => Keeps.pure trivial
  | globalSet g =>
      exact (u32Sub_sound _ _).seq fun _ => (src_sound ctx _).seq fun value =>
        (emit_sound rfl).seq fun _ => Keeps.pure trivial
  | load ty width signed offset =>
      exact (u32Sub_sound _ _).seq fun _ => (src_sound ctx _).seq fun addr => (dest_sound _ _ next).bind fun dest nonzero =>
        (emitLoad_sound nonzero _ _ _ _ _).seq fun _ => Keeps.pure trivial
  | store ty width offset =>
      exact (u32Sub_sound _ _).seq fun _ => (src_sound ctx _).seq fun base =>
        (u32Sub_sound _ _).seq fun _ => (src_sound _ _).seq fun value =>
        (emitStore_sound _ _ _ _ _).seq fun _ => Keeps.pure trivial
  | memorySize =>
      refine (dest_sound ctx h next).bind fun dest nonzero => Keeps.seq (emitAll_sound ?_) fun _ =>
        Keeps.pure trivial
      have valid := decide_eq_true nonzero
      simp [JoltWasm.load, Ir.isWellFormed, Ir.aluImm, nonzero]
      decide
  | memoryGrow =>
      exact (u32Sub_sound _ _).seq fun _ => (src_sound ctx _).seq fun rs => (dest_sound _ _ next).bind fun dest nonzero =>
        (emitMemoryGrow_sound env nonzero _).seq fun _ => Keeps.pure trivial
  | unary width op =>
      exact (u32Sub_sound _ _).seq fun _ => (src_sound ctx _).seq fun a =>
        (dest_sound _ _ next).bind fun dest nonzero =>
        (emitAll_sound (unaryRows_wellFormed nonzero _ _ _)).seq fun _ => Keeps.pure trivial
  | binary width op =>
      refine (u32Sub_sound _ _).seq fun second => (src_sound ctx _).seq fun rs1 => ?_
      refine (u32Sub_sound _ _).seq fun top => ?_
      have rest (rs2 : Operand × FunctionCtx) : Sound (do
          let out ← dest rs2.2 second next
          emitBinary width op out.1 rs1.1 rs2.1
          return (out.2.1, out.2.2)) :=
        (dest_sound _ _ next).bind fun dest nonzero =>
          (emitAll_sound (binaryRows_wellFormed nonzero _ _ _ _)).seq fun _ => Keeps.pure trivial
      exact Keeps.ite (fun _ => (srcOperand_sound _ _).seq rest) fun _ =>
        (src_sound _ _).seq fun _ => Keeps.seq (Keeps.pure trivial) rest
  | convert op =>
      exact (u32Sub_sound _ _).seq fun _ => (src_sound ctx _).seq fun a =>
        (dest_sound _ _ next).bind fun dest nonzero =>
        (emit_sound (convertRow_wellFormed nonzero _ _)).seq fun _ => Keeps.pure trivial
  | select => exact (emitSelect_sound ctx h).seq fun _ => Keeps.pure trivial
  | block sig =>
      exact (materializeAll_sound ctx).seq fun _ => (u32Sub_sound _ _).seq fun _ =>
        Keeps.pure trivial
  | loop sig =>
      exact (materializeAll_sound ctx).seq fun _ => pc_sound.seq fun _ =>
        (u32Sub_sound _ _).seq fun _ => Keeps.pure trivial
  | if_ sig =>
      exact (u32Sub_sound _ _).seq fun _ => (src_sound ctx _).seq fun _ =>
        (materializeAll_sound _).seq fun _ => (emit_sound rfl).seq fun _ =>
        (u32Sub_sound _ _).seq fun _ => Keeps.pure trivial
  | else_ => exact (emitElse_sound ctx).seq fun _ => Keeps.pure trivial
  | end_ => exact (emitEnd_sound ctx h).seq fun _ => Keeps.pure trivial
  | br depth =>
      exact (materializeAll_sound ctx).seq fun _ => (branch_sound _ _ _).seq fun _ =>
        Keeps.pure trivial
  | brIf depth =>
      exact (u32Sub_sound _ _).seq fun _ => (src_sound ctx _).seq fun _ =>
        (materializeAll_sound _).seq fun _ =>
        (emitBrIf_sound _ _ _ _).seq fun _ => Keeps.pure trivial
  | brTable targets default =>
      exact (u32Sub_sound _ _).seq fun _ => (src_sound ctx _).seq fun _ =>
        (materializeAll_sound _).seq fun _ =>
        (emitBrTable_sound _ _ _ _ _ _).seq fun _ => Keeps.pure trivial
  | return_ =>
      exact (materializeAll_sound ctx).seq fun _ => (emitReturn_sound _ _).seq fun _ =>
        Keeps.pure trivial
  | call callee =>
      exact (materializeAll_sound ctx).seq fun _ => (emitCall_sound _ _ _ _).seq fun _ =>
        Keeps.pure trivial
  | callIndirect typeIndex =>
      exact (materializeAll_sound ctx).seq fun _ => (u32Sub_sound _ _).seq fun _ =>
        (stack_sound _ _).bind fun _ _ =>
        (emitCall_sound _ _ _ _).seq fun _ => Keeps.pure trivial

theorem lowerBody_sound (env : EmitterEnv) (ctx : FunctionCtx) (skip : Bool)
    (body : List SourceOp) : Sound (lowerBody env ctx skip body) := by
  induction body generalizing ctx skip with
  | nil => exact Keeps.pure trivial
  | cons source body ih =>
      exact Keeps.ite (fun _ => ih ctx false) fun _ =>
        (lowerOp_sound env ctx _ _ _).seq fun result => ih result.2 result.1

theorem lowerFunction_sound (env : EmitterEnv) (index : ℕ) (function : Function) :
    Sound (lowerFunction env index function) := by
  unfold lowerFunction
  cases env.signatures[index]? with
  | none => exact Keeps.throw _
  | some sig =>
      refine Keeps.seq (Keeps.forM _ fun k _ => ?_) fun _ => ?_
      · exact (slot_sound _ _).bind fun rd nonzero =>
          (emit_sound (mov_wellFormed nonzero _)).seq fun _ => Keeps.pure trivial
      · exact (lowerBody_sound env _ false _).seq fun ctx =>
          Keeps.ite (fun _ => (fail_sound _).seq fun _ => flushCold_sound) fun _ => flushCold_sound

theorem emitOutputs_sound (ctx : FunctionCtx) (sig : Signature) (outputs : Outputs) :
    Sound (emitOutputs ctx sig outputs) := by
  cases outputs with
  | results =>
      exact Keeps.forM _ fun k _ => (slot_sound ctx k).bind fun value _ =>
        (emit_sound rfl).seq fun _ => Keeps.pure trivial
  | memory words =>
      exact (slot_sound ctx 0).bind fun pointer _ => (slot_sound ctx 1).bind fun word nonzero =>
        Keeps.forM _ fun k _ => (emitLoad_sound nonzero _ _ _ _ _).seq fun _ =>
          (emit_sound rfl).seq fun _ => Keeps.pure trivial

theorem emitEntryStub_sound (env : EmitterEnv) (function : ℕ) (start : Option ℕ)
    (outputs : Outputs) : Sound (emitEntryStub env function start outputs) := by
  unfold emitEntryStub
  cases env.signatures[function]? with
  | none => exact fail_sound _
  | some sig =>
      have loadParam (ctx : FunctionCtx) (i : ℕ) : Sound (do
          let rd ← ctx.slot i
          let _ ← emit (JoltWasm.load rd Reg.zero (Layout.inputAddress i : ℕ))) :=
        (slot_sound ctx i).bind fun rd nonzero =>
          (emit_sound (load_wellFormed nonzero _ _)).seq fun _ => Keeps.pure trivial
      have rest (ctx : FunctionCtx) : Sound (do
          (List.range sig.params).forM fun i => do
            let rd ← ctx.slot i
            let _ ← emit (JoltWasm.load rd Reg.zero (Layout.inputAddress i : ℕ))
          emitCall env ctx sig.params (.direct function)
          emitOutputs ctx sig outputs
          emitAll [.const_ Reg.t0 1, JoltWasm.store Reg.zero Reg.t0 (Layout.terminationAddr : ℕ),
            .jump IrProgram.haltPc]
          flushCold) :=
        Keeps.seq (Keeps.forM _ fun i _ => loadParam ctx i) fun _ =>
          (emitCall_sound _ _ _ _).seq fun _ => (emitOutputs_sound _ _ _).seq fun _ =>
            (emitAll_sound rfl).seq fun _ => flushCold_sound
      refine (emit_sound rfl).seq fun _ => (emit_sound rfl).seq fun _ =>
        Keeps.seq (emitAll_sound rfl) fun _ => ?_
      cases start with
      | none => exact rest _
      | some start => exact (emitCall_sound _ _ _ _).seq fun _ => rest _

theorem lowerFunctions_sound (env : EmitterEnv) (index : ℕ) (functions : List Function) :
    Sound (lowerFunctions env index functions) := by
  induction functions generalizing index with
  | nil => exact Keeps.pure trivial
  | cons function functions ih =>
      refine pc_sound.seq fun entry => (lowerFunction_sound env index function).seq fun _ => ?_
      cases env.signatures[index]? with
      | none => exact Keeps.throw _
      | some sig => exact (ih (index + 1)).seq fun _ => Keeps.pure trivial

theorem exportOutputs_sound (m : WasmModule) (name : String) (function : ℕ) :
    Sound (exportOutputs m name function) := by
  unfold exportOutputs
  cases m.memoryOutputs.lookup name with
  | none => exact Keeps.pure trivial
  | some words =>
      cases m.funcType function with
      | none => exact fail_sound _
      | some ty =>
          refine Keeps.ite (fun _ => (fail_sound _).seq fun _ => ?_) fun _ => ?_
          all_goals
            exact Keeps.ite (fun _ => (fail_sound _).seq fun _ => Keeps.pure trivial) fun _ =>
              Keeps.pure trivial

theorem lowerExports_sound (m : WasmModule) (env : EmitterEnv) (exports : List (String × ℕ)) :
    Sound (lowerExports m env exports) := by
  induction exports with
  | nil => exact Keeps.pure trivial
  | cons head exports ih =>
      obtain ⟨name, function⟩ := head
      refine pc_sound.seq fun entry => (exportOutputs_sound m name function).seq fun outputs => ?_
      refine (emitEntryStub_sound env function m.start outputs).seq fun _ => ?_
      have rest (words : ℕ) : Sound (do
          let rest ← lowerExports m env exports
          return ((name, entry) :: rest.1, (name, words) :: rest.2)) :=
        ih.seq fun _ => Keeps.pure trivial
      cases outputs with
      | memory words => exact rest words
      | results =>
          cases env.signatures[function]? with
          | none => exact Keeps.throw _
          | some sig => exact rest _

theorem patchCalls_sound (functions : List IrFunction) (fixups : List (ℕ × ℕ)) :
    Sound (patchCalls functions fixups) := by
  induction fixups with
  | nil => exact Keeps.pure trivial
  | cons fixup fixups ih =>
      obtain ⟨at_, callee⟩ := fixup
      unfold patchCalls
      cases functions[callee]? with
      | none => exact (fail_sound _).seq fun _ => ih
      | some f => exact (patch_sound _ _).seq fun _ => ih

theorem emitModule_sound (m : WasmModule) (env : EmitterEnv) : Sound (emitModule m env) :=
  (lowerFunctions_sound env 0 _).seq fun _ => (lowerExports_sound m env _).seq fun _ =>
    Keeps.get.bind fun _ _ => (patchCalls_sound _ _).seq fun _ => Keeps.pure trivial

/-! ## The last row -/

/-- The last row is a jump. -/
def EndsInJump (e : Emitter) : Prop := ∃ target, e.code.getLast? = some (.jump target)

/-- Every successful run ends in a state with a last jump. -/
def Jumps {α : Type} (x : EmitM α) : Prop :=
  ∀ start a final, x start = .ok (a, final) → EndsInJump final

theorem Jumps.last {α β : Type} {x : EmitM α} {f : α → EmitM β} (rest : ∀ a, Jumps (f a)) :
    Jumps (x >>= f) := by
  intro e b e' run
  obtain ⟨a, t, -, next⟩ := bind_eq_ok.mp run
  exact rest a t b e' next

theorem Jumps.keeps {α β : Type} {x : EmitM α} {f : α → EmitM β} (jumps : Jumps x)
    (rest : ∀ a, Keeps EndsInJump (f a) fun _ => True) : Jumps (x >>= f) := by
  intro e b e' run
  obtain ⟨a, t, first, next⟩ := bind_eq_ok.mp run
  exact (rest a t (jumps e a t first) b e' next).1

theorem emitAll_jumps (rows : List Ir) (target : Pc) : Jumps (emitAll (rows ++ [.jump target])) := by
  intro _ a e' run
  obtain ⟨-, rfl⟩ := emitAll_ok run
  exact ⟨target, by simp⟩

theorem patch_keepsJump (at_ : ℕ) (target : Pc) : Keeps EndsInJump (patch at_ target) fun _ => True := by
  refine Keeps.get.bind fun e jump => Keeps.ite (fun _ => Keeps.set ?_) fun _ => Keeps.throw _
  obtain ⟨old, last⟩ := jump
  rw [List.getLast?_eq_getElem?] at last
  rw [EndsInJump, List.getLast?_eq_getElem?, List.length_modify, List.getElem?_modify, last]
  by_cases here : at_ = e.code.length - 1
  · exact ⟨target, by simp [here, setTarget]⟩
  · exact ⟨old, by simp [here]⟩

theorem flushBlocks_keepsJump (blocks : List ColdBlock) :
    Keeps EndsInJump (flushBlocks blocks) fun _ => True := by
  induction blocks with
  | nil => exact Keeps.pure trivial
  | cons block blocks ih =>
      intro e _ a e' run
      have jumps : Jumps (flushBlocks (block :: blocks)) := by
        refine Jumps.last fun start => Jumps.last fun _ => Jumps.last fun _ => ?_
        refine Jumps.keeps ?_ fun _ => ih
        intro e at_ e' run
        obtain ⟨-, -, rfl⟩ := emit_ok run
        exact ⟨block.rejoin, by simp⟩
      exact ⟨jumps e a e' run, trivial⟩

theorem flushCold_keepsJump : Keeps EndsInJump flushCold fun _ => True :=
  Keeps.get.bind fun e jump => Keeps.seq (Keeps.set jump) fun _ => flushBlocks_keepsJump e.cold

/-- An entry stub ends in a jump. -/
theorem emitEntryStub_jumps (env : EmitterEnv) (function : ℕ) (start : Option ℕ)
    (outputs : Outputs) : Jumps (emitEntryStub env function start outputs) := by
  unfold emitEntryStub
  cases env.signatures[function]? with
  | none => rintro e a e' ⟨⟩
  | some sig =>
      have final : Jumps (do
          emitAll [.const_ Reg.t0 1, JoltWasm.store Reg.zero Reg.t0 (Layout.terminationAddr : ℕ),
            .jump IrProgram.haltPc]
          flushCold) :=
        Jumps.keeps (emitAll_jumps [_, _] _) fun _ => flushCold_keepsJump
      refine Jumps.last fun _ => Jumps.last fun _ => Jumps.last fun _ => ?_
      cases start with
      | none => exact Jumps.last fun _ => Jumps.last fun _ => Jumps.last fun _ => final
      | some start =>
          exact Jumps.last fun _ => Jumps.last fun _ => Jumps.last fun _ => Jumps.last fun _ => final

/-- The first stub leaves a last jump, and the other stubs keep it. -/
theorem lowerExports_jumps (m : WasmModule) (env : EmitterEnv) (head : String × ℕ)
    (exports : List (String × ℕ)) (keeps : Keeps EndsInJump (lowerExports m env exports) fun _ => True) :
    Jumps (lowerExports m env (head :: exports)) := by
  obtain ⟨name, function⟩ := head
  refine Jumps.last fun entry => Jumps.last fun outputs => ?_
  refine Jumps.keeps (emitEntryStub_jumps env function m.start outputs) fun _ => ?_
  have rest (words : ℕ) : Keeps EndsInJump (do
      let rest ← lowerExports m env exports
      return ((name, entry) :: rest.1, (name, words) :: rest.2)) fun _ => True :=
    keeps.seq fun _ => Keeps.pure trivial
  cases outputs with
  | memory words => exact rest words
  | results =>
      cases env.signatures[function]? with
      | none => exact Keeps.throw _
      | some sig => exact rest _

theorem lowerExports_keepsJump (m : WasmModule) (env : EmitterEnv) (exports : List (String × ℕ)) :
    Keeps EndsInJump (lowerExports m env exports) fun _ => True := by
  induction exports with
  | nil => exact Keeps.pure trivial
  | cons head exports ih =>
      intro e _ a e' run
      exact ⟨lowerExports_jumps m env head exports ih e a e' run, trivial⟩

theorem patchCalls_keepsJump (functions : List IrFunction) (fixups : List (ℕ × ℕ)) :
    Keeps EndsInJump (patchCalls functions fixups) fun _ => True := by
  induction fixups with
  | nil => exact Keeps.pure trivial
  | cons fixup fixups ih =>
      obtain ⟨at_, callee⟩ := fixup
      unfold patchCalls
      cases functions[callee]? with
      | none => exact Keeps.seq (Keeps.throw _) fun _ => ih
      | some f => exact (patch_keepsJump _ _).seq fun _ => ih

theorem emitModule_jumps (m : WasmModule) (env : EmitterEnv) (exported : m.exports ≠ []) :
    Jumps (emitModule m env) := by
  obtain ⟨head, exports, split⟩ := List.exists_cons_of_ne_nil exported
  unfold emitModule
  rw [split]
  refine Jumps.last fun functions => Jumps.keeps
    (lowerExports_jumps m env head exports (lowerExports_keepsJump m env exports)) fun words => ?_
  exact Keeps.get.bind fun _ _ => (patchCalls_keepsJump _ _).seq fun _ => Keeps.pure trivial

end Emitter

/-! ## The program -/

/-- What the lowering leaves behind. -/
structure IrProgram.WellFormed (program : IrProgram) : Prop where
  head : program.code.head? = some .halt
  code : ∀ row ∈ program.code.tail, row.isWellFormed = true
  length : program.code.length ≤ 2 ^ 32
  endsInJump : program.exports ≠ [] → ∃ target, program.code.getLast? = some (.jump target)
  memory : program.memory.initialPages ≤ program.memory.maxPages ∧
    program.memory.maxPages ≤ Layout.maxPages
  table : program.table.length ≤ Layout.maxTableSlots

theorem lowerMemory_bound {m : WasmModule} {limits : MemoryLimits}
    (lowered : lowerMemory m = .ok limits) :
    limits.initialPages ≤ limits.maxPages ∧ limits.maxPages ≤ Layout.maxPages := by
  unfold lowerMemory at lowered
  split at lowered
  · rename_i decl _
    simp only at lowered
    split at lowered <;> cases lowered
    rename_i fits
    exact ⟨Nat.not_lt.mp fits, min_le_right _ _⟩
  · cases lowered
    exact ⟨le_rfl, Nat.zero_le _⟩

theorem writeElements_length {functions : List IrFunction} {signatures : List Signature}
    {needed : ℕ} (elements : List (Option ℕ)) {at_ : ℕ} {table table' : List (Option TableSlot)}
    (written : writeElements functions signatures needed at_ elements table = .ok table') :
    table'.length = table.length := by
  induction elements generalizing at_ table with
  | nil =>
      cases written
      rfl
  | cons element elements ih =>
      unfold writeElements at written
      split at written
      · cases written
      · cases found : elementSlot functions signatures element with
        | error e =>
            rw [found] at written
            cases written
        | ok slot =>
            rw [found] at written
            rw [ih written, List.length_set]

theorem writeSegments_length {functions : List IrFunction} {signatures : List Signature}
    (segments : List ElementSegment) {table table' : List (Option TableSlot)}
    (written : writeSegments functions signatures segments table = .ok table') :
    table'.length = table.length := by
  induction segments generalizing table with
  | nil =>
      cases written
      rfl
  | cons segment segments ih =>
      unfold writeSegments at written
      cases first : writeElements functions signatures (segment.offset + segment.functions.length)
        segment.offset segment.functions table with
      | error e =>
          rw [first] at written
          cases written
      | ok next =>
          rw [first] at written
          rw [ih written, writeElements_length _ first]

theorem lower_wellFormed {m : WasmModule} {program : IrProgram} (lowered : lower m = .ok program) :
    program.WellFormed := by
  unfold lower at lowered
  obtain ⟨limits, memory, lowered⟩ := except_bind_eq_ok.mp lowered
  simp only at lowered
  split at lowered
  · cases lowered
  · rename_i tableSlots
    obtain ⟨signatures, -, lowered⟩ := except_bind_eq_ok.mp lowered
    obtain ⟨⟨⟨functions, entries, words⟩, e⟩, emitted, lowered⟩ := except_bind_eq_ok.mp lowered
    obtain ⟨table, written, lowered⟩ := except_bind_eq_ok.mp lowered
    cases lowered
    have start : Emitter.WellFormed {} := ⟨rfl, rfl, by simp, by decide⟩
    have final := (Emitter.emitModule_sound m _ _ start _ _ emitted).1
    refine ⟨final.head, List.all_eq_true.mp final.code, final.length, fun exported => ?_,
      lowerMemory_bound memory, ?_⟩
    · exact Emitter.emitModule_jumps m _ exported _ _ _ emitted
    · rw [writeSegments_length _ written, List.length_replicate]
      omega

end JoltWasm
