import JoltWasm.Lib.Settles
import JoltWasm.Frontend.Lower
import JoltWasm.Frontend.Validate

/-!
# Progress of the lowering

The emitter's arithmetic on heights, its slots and its fixups stay in range as long as the operators
it lowers find their operands on the stack.  In unreachable code the validator promises no operands.
-/

namespace JoltWasm

open Lib Layout

/-- The emitter finds the operands it counts: on the operand stack, or for a call in the frame. -/
def WasmOp.Covered (m : WasmModule) (locals results : ℕ) (c : Checker) : WasmOp → Prop
  | .unreachable | .nop | .else_ | .localGet _ | .globalGet _ | .memorySize | .const_ .. => True
  | .drop | .localSet _ | .localTee _ | .globalSet _ | .load .. | .memoryGrow | .unary ..
  | .convert _ => 1 ≤ c.height
  | .store .. | .binary .. => 2 ≤ c.height
  | .select => 3 ≤ c.height
  | .block sig | .loop sig => sig.params ≤ c.height
  | .if_ sig => 1 + sig.params ≤ c.height
  | .end_ => c.frames.tail = [] → results ≤ c.height
  | .br depth => ∀ frame, c.frames[depth]? = some frame → frame.arity ≤ c.height
  | .brIf depth | .brTable _ depth =>
      ∀ frame, c.frames[depth]? = some frame → 1 + frame.arity ≤ c.height
  | .return_ => results ≤ c.height
  | .call function =>
      ∀ ty, m.funcType function = some ty → ty.params.length ≤ locals + c.height
  | .callIndirect typeIndex =>
      ∀ ty, m.types[typeIndex]? = some ty →
        1 ≤ c.height ∧ ty.params.length ≤ locals + (c.height - 1)

/-- Every operator of a body is covered. -/
def Checker.Covers (m : WasmModule) (locals results : ℕ) : Checker → List SourceOp → Prop
  | _, [] => True
  | c, source :: body =>
      source.op.Covered m locals results c ∧
        ∀ next, c.step m locals results source.op = some next → next.Covers m locals results body

/-- Every operator of a function is covered. -/
def Function.Covered (m : WasmModule) (f : Function) : Prop :=
  ∀ ty, m.types[f.typeIndex]? = some ty →
    (Checker.start ty.results.length).Covers m (ty.params.length + f.locals.length)
      ty.results.length f.body

/-! ## The validator -/

namespace Checker

variable {m : WasmModule} {locals results : ℕ} {c next : Checker}

theorem pop_eq {n : ℕ} (popped : c.pop n = some next) :
    next.frames = c.frames ∧ c.height - n ≤ next.height := by
  unfold pop at popped
  split at popped
  · cases popped
  · split_ifs at popped with above unreachable <;> cases popped
    · exact ⟨rfl, le_rfl⟩
    · exact ⟨rfl, by simp only; omega⟩

theorem popPush_eq {n k : ℕ} (popped : c.popPush n k = some next) :
    next.frames = c.frames ∧ c.height - n + k ≤ next.height := by
  obtain ⟨mid, pop, rfl⟩ := Option.map_eq_some_iff.mp popped
  obtain ⟨frames, height⟩ := pop_eq pop
  exact ⟨frames, Nat.add_le_add_right height k⟩

/-- What an operator does to the control frames. -/
inductive FrameStep (c next : Checker) : Prop where
  | same (frames : next.frames = c.frames)
  | marked (mid : Checker) (frames : mid.frames = c.frames) (eq : next = mid.setUnreachable)
  | entered (mid : Checker) (kind : FrameKind) (sig : BlockSig) (frames : mid.frames = c.frames)
      (eq : next = mid.pushFrame kind sig)
  | switched (frame : ControlFrame) (rest : List ControlFrame) (before : c.frames = frame :: rest)
      (after : next.frames = ⟨.else_, frame.sig, frame.height, false⟩ :: rest)
  | left (frame : ControlFrame) (before : c.frames = frame :: next.frames)
      (height : next.height = frame.height + frame.sig.results)

theorem popFrame_eq {frame : ControlFrame} (popped : c.popFrame = some (frame, next)) :
    c.frames = frame :: next.frames ∧ next.height = frame.height := by
  unfold popFrame at popped
  split at popped
  · cases popped
  · obtain ⟨mid, -, rest⟩ := Option.bind_eq_some_iff.mp popped
    split_ifs at rest
    cases rest
    exact ⟨by assumption, rfl⟩

theorem step_frameStep {op : WasmOp} (stepped : c.step m locals results op = some next) :
    FrameStep c next := by
  have entered {n : ℕ} {kind : FrameKind} {sig : BlockSig}
      (push : (c.pop n).map (fun c => c.pushFrame kind sig) = some next) : FrameStep c next := by
    obtain ⟨mid, pop, eq⟩ := Option.map_eq_some_iff.mp push
    exact .entered mid kind sig (pop_eq pop).1 eq.symm
  cases op with
  | unreachable => exact .marked c rfl (Option.some.inj stepped).symm
  | nop => exact .same (congrArg frames (Option.some.inj stepped).symm)
  | memorySize | const_ ty v =>
      cases Option.some.inj stepped
      exact .same rfl
  | localGet i | globalGet g =>
      obtain ⟨-, pushed⟩ := Option.ite_none_right_eq_some.mp stepped
      cases Option.some.inj pushed
      exact .same rfl
  | drop | store ty width offset => exact .same (pop_eq stepped).1
  | localSet i | globalSet g =>
      obtain ⟨-, popped⟩ := Option.ite_none_right_eq_some.mp stepped
      exact .same (pop_eq popped).1
  | localTee i =>
      obtain ⟨-, popped⟩ := Option.ite_none_right_eq_some.mp stepped
      exact .same (popPush_eq popped).1
  | load ty width signed offset | memoryGrow | unary width op | binary width op | convert op
  | select => exact .same (popPush_eq stepped).1
  | block sig | loop sig | if_ sig => exact entered stepped
  | else_ =>
      obtain ⟨⟨frame, mid⟩, popped, rest⟩ := Option.bind_eq_some_iff.mp stepped
      obtain ⟨-, pushed⟩ := Option.ite_none_right_eq_some.mp rest
      obtain ⟨before, height⟩ := popFrame_eq popped
      refine .switched frame mid.frames before ?_
      rw [← Option.some.inj pushed, pushFrame, height]
  | end_ =>
      obtain ⟨⟨frame, mid⟩, popped, pushed⟩ := Option.bind_eq_some_iff.mp stepped
      obtain ⟨before, height⟩ := popFrame_eq popped
      cases Option.some.inj pushed
      exact .left frame before (congrArg (· + frame.sig.results) height)
  | br depth =>
      obtain ⟨frame, -, rest⟩ := Option.bind_eq_some_iff.mp stepped
      obtain ⟨mid, pop, eq⟩ := Option.bind_eq_some_iff.mp rest
      exact .marked mid (pop_eq pop).1 (Option.some.inj eq).symm
  | brIf depth =>
      obtain ⟨frame, -, popped⟩ := Option.bind_eq_some_iff.mp stepped
      exact .same (popPush_eq popped).1
  | brTable targets default =>
      obtain ⟨frame, -, rest⟩ := Option.bind_eq_some_iff.mp stepped
      obtain ⟨-, rest⟩ := Option.ite_none_right_eq_some.mp rest
      obtain ⟨mid, pop, eq⟩ := Option.bind_eq_some_iff.mp rest
      exact .marked mid (pop_eq pop).1 (Option.some.inj eq).symm
  | return_ =>
      obtain ⟨mid, pop, eq⟩ := Option.map_eq_some_iff.mp stepped
      exact .marked mid (pop_eq pop).1 eq.symm
  | call function | callIndirect typeIndex =>
      obtain ⟨ty, -, popped⟩ := Option.bind_eq_some_iff.mp stepped
      exact .same (popPush_eq popped).1

/-- An operator keeps the base and signature of a frame, or leaves its results. -/
theorem step_frames {op : WasmOp} (stepped : c.step m locals results op = some next)
    {frame : ControlFrame} (member : frame ∈ c.frames) :
    (∃ frame' ∈ next.frames, frame'.sig = frame.sig ∧ frame'.height = frame.height) ∨
      next.height = frame.height + frame.sig.results := by
  cases step_frameStep stepped with
  | same frames => exact .inl ⟨frame, by rwa [frames], rfl, rfl⟩
  | marked mid frames eq =>
      subst eq
      rw [← frames] at member
      left
      unfold setUnreachable
      cases found : mid.frames with
      | nil =>
          rw [found] at member
          cases member
      | cons top rest =>
          rw [found] at member
          rcases List.mem_cons.mp member with rfl | member
          · exact ⟨_, List.mem_cons_self, rfl, rfl⟩
          · exact ⟨frame, List.mem_cons_of_mem _ member, rfl, rfl⟩
  | entered mid kind sig frames eq =>
      subst eq
      rw [← frames] at member
      exact .inl ⟨frame, List.mem_cons_of_mem _ member, rfl, rfl⟩
  | switched top rest before after =>
      rw [before] at member
      rw [after]
      rcases List.mem_cons.mp member with rfl | member
      · exact .inl ⟨_, List.mem_cons_self, rfl, rfl⟩
      · exact .inl ⟨frame, List.mem_cons_of_mem _ member, rfl, rfl⟩
  | left top before height =>
      rw [before] at member
      rcases List.mem_cons.mp member with rfl | member
      · exact .inr height
      · exact .inl ⟨frame, member, rfl, rfl⟩

/-- A run that closes every frame leaves the results of each. -/
theorem run_frames {body : List SourceOp} {last : Checker} {maxHeight : ℕ}
    (ran : c.run m locals results body = some (last, maxHeight)) (closed : last.frames = [])
    {frame : ControlFrame} (member : frame ∈ c.frames) :
    frame.height + frame.sig.results ≤ maxHeight := by
  induction body generalizing c frame maxHeight with
  | nil =>
      cases ran
      rw [closed] at member
      cases member
  | cons source body ih =>
      obtain ⟨-, rest⟩ := Option.ite_none_right_eq_some.mp ran
      obtain ⟨next, stepped, rest⟩ := Option.bind_eq_some_iff.mp rest
      obtain ⟨⟨last', maxHeight'⟩, tail, eq⟩ := Option.bind_eq_some_iff.mp rest
      cases eq
      rcases step_frames stepped member with ⟨frame', member', sig, height⟩ | height
      · rw [← sig, ← height]
        exact (ih tail member').trans (le_max_right _ _)
      · rw [← height]
        exact le_max_left _ _

end Checker

/-! ## Rows and slots -/

theorem maxFrameSlots_lt : maxFrameSlots + 1 < 2 ^ 32 := by decide

/-- A lowering error other than a frame that is too large. -/
def Rejects (f : EmitFailure) : Prop :=
  ∃ e, f = .error e ∧ ∀ function slots maxSlots, e ≠ .frameTooLarge function slots maxSlots

namespace Emitter

/-- The rows to patch later are in the code. -/
structure Patchable (checks : Bool) (e : Emitter) : Prop where
  checks : e.overflowChecks = checks
  cold : ∀ block ∈ e.cold, block.entryFixup < e.code.length
  calls : ∀ fixup ∈ e.callFixups, fixup.1 < e.code.length

/-- The emitter's steps succeed or fail with `E`; `n` bounds the rows so far. -/
abbrev Emits (checks : Bool) (E : EmitFailure → Prop) {α : Type} (n : ℕ) (x : EmitM α)
    (Q : α → ℕ → Prop := fun _ _ => True) : Prop :=
  Settles (fun e => e.code.length) (Patchable checks) E n x Q

section

variable {checks : Bool} {E : EmitFailure → Prop} (rejects : ∀ f, Rejects f → E f) {n : ℕ}

include rejects

theorem fail_emits {α : Type} {Q : α → ℕ → Prop} {e : LowerError}
    (other : ∀ function slots maxSlots, e ≠ .frameTooLarge function slots maxSlots) :
    Emits checks E n (fail e : EmitM α) Q :=
  Settles.throw (rejects _ ⟨e, rfl, other⟩)

theorem pc_emits : Emits checks E n pc := by
  refine Settles.get.bind fun e k _ _ => Settles.ite (fun _ => ?_) fun _ => ?_
  · exact Settles.pure fun _ _ => trivial
  · exact fail_emits rejects (by simp)

/-- The row emitted is in the code. -/
theorem emit_emits (ir : Ir) : Emits checks E n (emit ir) fun at_ k => at_ < k := by
  intro e inv size
  have emitted : emit ir e = if e.code.length < 2 ^ 32
      then .ok ((BitVec.ofNat 32 e.code.length).toNat, { e with code := e.code ++ [ir] })
      else .error (.error (.programTooLarge 32)) := by
    by_cases small : e.code.length < 2 ^ 32
    · simp only [emit, pc, bind, StateT.bind, get, getThe, MonadStateOf.get, StateT.get, pure,
        Except.pure, Except.bind, small, if_true]
      rfl
    · simp only [emit, pc, bind, StateT.bind, get, getThe, MonadStateOf.get, StateT.get, pure,
        Except.pure, Except.bind, small, if_false]
      rfl
  rw [emitted]
  by_cases small : e.code.length < 2 ^ 32
  · have longer : e.code.length < (e.code ++ [ir]).length := by
      rw [List.length_append]
      exact Nat.lt_succ_self _
    rw [if_pos small]
    refine ⟨⟨inv.checks, ?_, ?_⟩, longer.le, ?_⟩
    · exact fun block member => (inv.cold block member).trans longer
    · exact fun fixup member => (inv.calls fixup member).trans longer
    · rwa [BitVec.toNat_ofNat, Nat.mod_eq_of_lt small]
  · rw [if_neg small]
    exact rejects _ ⟨_, rfl, by simp⟩

theorem emitAll_emits (rows : List Ir) : Emits checks E n (emitAll rows) := by
  induction rows generalizing n with
  | nil => exact Settles.pure fun _ _ => trivial
  | cons row rows ih => exact (emit_emits rejects row).bind fun _ _ _ _ => ih

omit rejects in
theorem patch_emits {at_ : ℕ} (inside : at_ < n) (target : Pc) :
    Emits checks E n (patch at_ target) := by
  intro e inv size
  have patched : patch at_ target e =
      .ok ((), { e with code := e.code.modify at_ (setTarget target) }) := by
    have found : at_ < e.code.length := inside.trans_le size
    simp only [patch, bind, StateT.bind, get, getThe, MonadStateOf.get, StateT.get, pure,
      Except.pure, Except.bind, found, if_true]
    rfl
  have same : (e.code.modify at_ (setTarget target)).length = e.code.length := List.length_modify ..
  rw [patched]
  refine ⟨⟨inv.checks, ?_, ?_⟩, same.ge, trivial⟩
  · intro block member
    rw [same]
    exact inv.cold block member
  · intro fixup member
    rw [same]
    exact inv.calls fixup member

omit rejects in
theorem u32Sub_emits {a b : ℕ} (le : b ≤ a) (small : a < 2 ^ 32) :
    Emits checks E n (u32Sub a b) fun d _ => d = a - b := by
  refine Settles.get.bind fun e k _ _ => Settles.ite (fun under => ?_) fun _ => ?_
  · exact absurd under.2 (by omega)
  · refine Settles.pure fun _ _ => ?_
    rw [U32.sub]
    omega

omit rejects in
theorem u32Add_emits {a b : ℕ} (small : a + b < 2 ^ 32) :
    Emits checks E n (u32Add a b) fun s _ => s = a + b := by
  refine Settles.get.bind fun e k _ _ => Settles.ite (fun above => ?_) fun _ => ?_
  · exact absurd above.2 (by omega)
  · exact Settles.pure fun _ _ => Nat.mod_eq_of_lt small

omit rejects in
/-- A checked build stops at an underflow. -/
theorem u32Sub_stops (panics : E .panic) {a b : ℕ} (under : a < b) {Q : ℕ → ℕ → Prop} :
    Emits true E n (u32Sub a b) Q := by
  refine Settles.get.bind fun e k _ found => Settles.ite (fun _ => ?_) fun other => ?_
  · exact Settles.throw panics
  · exact absurd ⟨found.1.checks, under⟩ other

omit rejects in
theorem slot_emits (ctx : FunctionCtx) {slot : ℕ} (inside : slot < maxFrameSlots) :
    Emits checks E n (ctx.slot slot) := by
  unfold FunctionCtx.slot
  have found : Reg.frameSlot slot = some _ := dif_pos inside
  rw [found]
  exact Settles.pure fun _ _ => trivial

omit rejects in
theorem stack_emits (ctx : FunctionCtx) {depth : ℕ}
    (inside : ctx.sig.locals + depth < maxFrameSlots) : Emits checks E n (ctx.stack depth) := by
  have room := maxFrameSlots_lt
  refine (u32Add_emits (by omega)).bind fun slot k _ eq => ?_
  subst eq
  exact slot_emits ctx inside

theorem label_emits (ctx : FunctionCtx) (depth : ℕ) :
    Emits checks E n (ctx.label depth) fun label _ => ctx.labels[depth]? = some label := by
  unfold FunctionCtx.label
  cases found : ctx.labels[depth]? with
  | none => exact fail_emits rejects (by simp)
  | some label => exact Settles.pure fun _ _ => rfl

theorem resultTemp_emits (function results k : ℕ) :
    Emits checks E n (resultTemp function results k) := by
  unfold resultTemp
  cases Reg.temp k with
  | none => exact fail_emits rejects (by simp)
  | some r => exact Settles.pure fun _ _ => trivial

end

/-! ## Pending values -/

/-- A context of a frame: pending values are below the greatest height and name locals. -/
structure InFrame (sig : Signature) (labels : List Label) (maxHeight : ℕ) (ctx : FunctionCtx) :
    Prop where
  pending : ∀ depth value, (ctx.pending[depth]?).join = some value →
    depth < maxHeight ∧ ∀ i, value = .local_ i → i < sig.locals
  sig : ctx.sig = sig
  labels : ctx.labels = labels

section

variable {checks : Bool} {E : EmitFailure → Prop} (rejects : ∀ f, Rejects f → E f) {n : ℕ}
  {sig : Signature} {labels : List Label} {maxHeight : ℕ}
  (fits : sig.locals + maxHeight ≤ maxFrameSlots) {ctx : FunctionCtx}
  (inFrame : InFrame sig labels maxHeight ctx)

include inFrame

theorem InFrame.taken (depth : ℕ) : InFrame sig labels maxHeight (ctx.takePending depth).2 := by
  refine ⟨?_, inFrame.sig, inFrame.labels⟩
  intro other value found
  rw [FunctionCtx.takePending, List.getElem?_set] at found
  split_ifs at found
  · cases found
  · cases found
  · exact inFrame.pending other value found

theorem InFrame.set {depth : ℕ} {value : Pending} (below : depth < maxHeight)
    (names : ∀ i, value = .local_ i → i < sig.locals) :
    InFrame sig labels maxHeight (ctx.setPending depth value) := by
  refine ⟨?_, inFrame.sig, inFrame.labels⟩
  intro other value' found
  rw [FunctionCtx.setPending, List.getElem?_set] at found
  split_ifs at found with same inside
  · subst same
    cases found
    exact ⟨below, names⟩
  · cases found
  · refine inFrame.pending other value' ?_
    rw [List.getElem?_append] at found
    split_ifs at found
    · exact found
    · rw [List.getElem?_replicate] at found
      split_ifs at found <;> cases found

include fits

theorem InFrame.stack_emits {depth : ℕ} (below : depth < maxHeight) :
    Emits checks E n (ctx.stack depth) := by
  refine Emitter.stack_emits ctx ?_
  rw [inFrame.sig]
  omega

omit inFrame in
theorem local_emits {i : ℕ} (names : i < sig.locals) : Emits checks E n (ctx.slot i) :=
  slot_emits ctx (by omega)

include rejects

theorem materialize_emits {depth : ℕ} {value : Pending} (below : depth < maxHeight)
    (names : ∀ i, value = .local_ i → i < sig.locals) :
    Emits checks E n (materialize ctx depth value) := by
  refine (inFrame.stack_emits fits below).seq fun rd _ _ => ?_
  cases value with
  | local_ i =>
      exact (local_emits fits (names i rfl)).seq fun rs _ _ =>
        (emit_emits rejects _).bind fun _ _ _ _ => Settles.pure fun _ _ => trivial
  | const_ v =>
      exact (emit_emits rejects _).bind fun _ _ _ _ => Settles.pure fun _ _ => trivial

theorem materializeWhere_emits (select : Pending → Bool) (depths : List ℕ) :
    Emits checks E n (materializeWhere select ctx depths)
      fun ctx' _ => InFrame sig labels maxHeight ctx' := by
  induction depths generalizing ctx n with
  | nil => exact Settles.pure fun _ _ => inFrame
  | cons depth depths ih =>
      unfold materializeWhere
      cases found : (ctx.pending[depth]?).join with
      | none => exact ih inFrame
      | some value =>
          obtain ⟨below, names⟩ := inFrame.pending depth value found
          refine Settles.ite (fun _ => ?_) fun _ => ih inFrame
          exact (materialize_emits rejects fits inFrame below names).seq fun _ _ _ =>
            ih (inFrame.taken depth)

theorem materializeAll_emits :
    Emits checks E n (materializeAll ctx) fun ctx' _ => InFrame sig labels maxHeight ctx' :=
  materializeWhere_emits rejects fits inFrame _ _

theorem materializeLocal_emits (i : ℕ) :
    Emits checks E n (materializeLocal ctx i) fun ctx' _ => InFrame sig labels maxHeight ctx' :=
  materializeWhere_emits rejects fits inFrame _ _

theorem src_emits {depth : ℕ} (below : depth < maxHeight) :
    Emits checks E n (src ctx depth) fun result _ => InFrame sig labels maxHeight result.2 := by
  have taken := inFrame.taken depth
  have value := inFrame.pending depth
  unfold src
  rw [FunctionCtx.takePending] at taken ⊢
  cases found : (ctx.pending[depth]?).join with
  | none =>
      exact (taken.stack_emits fits below).seq fun r _ _ => Settles.pure fun _ _ => taken
  | some pending =>
      cases pending with
      | local_ i =>
          exact (local_emits fits ((value _ found).2 i rfl)).seq fun r _ _ =>
            Settles.pure fun _ _ => taken
      | const_ v =>
          exact (materialize_emits rejects fits taken below (by simp)).seq fun _ _ _ =>
            (taken.stack_emits fits below).seq fun r _ _ => Settles.pure fun _ _ => taken

omit rejects in
theorem srcOperand_emits {depth : ℕ} (below : depth < maxHeight) :
    Emits checks E n (srcOperand ctx depth)
      fun result _ => InFrame sig labels maxHeight result.2 := by
  have taken := inFrame.taken depth
  have value := inFrame.pending depth
  unfold srcOperand
  rw [FunctionCtx.takePending] at taken ⊢
  cases found : (ctx.pending[depth]?).join with
  | none =>
      exact (taken.stack_emits fits below).seq fun r _ _ => Settles.pure fun _ _ => taken
  | some pending =>
      cases pending with
      | local_ i =>
          exact (local_emits fits ((value _ found).2 i rfl)).seq fun r _ _ =>
            Settles.pure fun _ _ => taken
      | const_ v => exact Settles.pure fun _ _ => taken

/-- The next operator sets a local of the function. -/
def Names (locals : ℕ) (next : Option WasmOp) : Prop :=
  ∀ i, next = some (.localSet i) ∨ next = some (.localTee i) → i < locals

theorem dest_emits {depth : ℕ} (below : depth < maxHeight) {next : Option WasmOp}
    (names : Names sig.locals next) :
    Emits checks E n (dest ctx depth next) fun result _ =>
      InFrame sig labels maxHeight result.2.2 ∧
        (result.2.1 = true → ∃ i, next = some (.localSet i) ∨ next = some (.localTee i)) := by
  unfold dest
  split
  · next i =>
      refine (materializeLocal_emits rejects fits inFrame i).bind fun ctx _ _ inFrame => ?_
      exact (local_emits fits (names i (.inl rfl))).seq fun r _ _ =>
        Settles.pure fun _ _ => ⟨inFrame, fun _ => ⟨i, .inl rfl⟩⟩
  · next i =>
      have local_ := names i (.inr rfl)
      refine (materializeLocal_emits rejects fits inFrame i).bind fun ctx _ _ inFrame => ?_
      have tee : InFrame sig labels maxHeight (ctx.setPending depth (.local_ i)) := by
        refine inFrame.set below fun j eq => ?_
        cases eq
        exact local_
      exact (local_emits fits local_).seq fun r _ _ =>
        Settles.pure fun _ _ => ⟨tee, fun _ => ⟨i, .inr rfl⟩⟩
  · exact (inFrame.stack_emits fits below).seq fun r _ _ =>
      Settles.pure fun _ _ => ⟨inFrame, nofun⟩

end

/-! ## Cold blocks and accesses -/

section

variable {checks : Bool} {E : EmitFailure → Prop} (rejects : ∀ f, Rejects f → E f) {n : ℕ}

include rejects

theorem flushBlocks_emits {blocks : List ColdBlock}
    (inside : ∀ block ∈ blocks, block.entryFixup < n) : Emits checks E n (flushBlocks blocks) := by
  induction blocks generalizing n with
  | nil => exact Settles.pure fun _ _ => trivial
  | cons block blocks ih =>
      rw [List.forall_mem_cons] at inside
      refine (pc_emits rejects).seq fun start _ grown₁ => ?_
      refine (patch_emits (inside.1.trans_le grown₁) start).seq fun _ _ grown₂ => ?_
      refine (emitAll_emits rejects block.rows).seq fun _ _ grown₃ => ?_
      refine (emit_emits rejects _).bind fun _ _ grown₄ _ => ih fun other member => ?_
      have := inside.2 other member
      omega

theorem flushCold_emits : Emits checks E n flushCold := by
  intro e inv size
  have blocks : Emits checks E e.code.length (flushBlocks e.cold) :=
    flushBlocks_emits rejects inv.cold
  exact blocks { e with cold := [] } ⟨inv.checks, by simp, inv.calls⟩ le_rfl

theorem addCold_emits {entryFixup : ℕ} (inside : entryFixup < n) (rows : List Ir) :
    Emits checks E n (addCold entryFixup rows) := by
  refine (pc_emits rejects).seq fun rejoin k grown => Settles.modify fun e inv size => ?_
  refine ⟨⟨inv.checks, ?_, inv.calls⟩, le_rfl⟩
  intro block member
  rcases List.mem_append.mp member with member | member
  · exact inv.cold block member
  · rw [List.mem_singleton.mp member]
    exact inside.trans_le (grown.trans size)

theorem emitAccess_emits (addr : Reg) (offset : ℕ) (width : MemWidth) (hot crossing : List Ir) :
    Emits checks E n (emitAccess addr offset width hot crossing) := by
  refine (emitAll_emits rejects _).seq fun _ _ _ => (emitAll_emits rejects _).seq fun _ _ _ => ?_
  cases (crossingRows width).2 with
  | none => exact emitAll_emits rejects hot
  | some row =>
      exact (emit_emits rejects row).bind fun at_ _ _ inside =>
        (emitAll_emits rejects hot).seq fun _ _ grown =>
          addCold_emits rejects (inside.trans_le grown) crossing

theorem emitLoad_emits (rd addr : Reg) (offset : ℕ) (width : MemWidth) (signed : Bool)
    (result : Width) : Emits checks E n (emitLoad rd addr offset width signed result) :=
  emitAccess_emits rejects _ _ _ _ _

theorem emitStore_emits (base value : Reg) (wide : Bool) (offset : ℕ) (width : MemWidth) :
    Emits checks E n (emitStore base value wide offset width) :=
  emitAccess_emits rejects _ _ _ _ _

theorem emitMemoryGrow_emits (env : EmitterEnv) (rd rs : Reg) :
    Emits checks E n (emitMemoryGrow env rd rs) := by
  refine (emitAll_emits rejects _).seq fun _ _ _ => ?_
  refine (emit_emits rejects _).bind fun failed _ _ failedInside => ?_
  refine (emit_emits rejects _).bind fun _ _ grown₁ _ => ?_
  refine (emitAll_emits rejects _).seq fun _ _ grown₂ => ?_
  refine (emit_emits rejects _).bind fun _ _ grown₃ _ => ?_
  refine (emit_emits rejects _).bind fun done _ grown₄ doneInside => ?_
  refine (pc_emits rejects).seq fun failPc _ grown₅ => ?_
  refine (patch_emits (by omega) failPc).seq fun _ _ grown₆ => ?_
  refine (emit_emits rejects _).bind fun _ _ grown₇ _ => ?_
  exact (pc_emits rejects).seq fun endPc _ grown₈ => patch_emits (by omega) endPc

end

/-! ## Control frames -/

/-- A label of the emitter and the control frame it is for. -/
structure LabelTracks (maxHeight n : ℕ) (label : Label) (frame : ControlFrame) : Prop where
  sig : label.sig = frame.sig
  arity : label.arity = frame.arity
  room : label.base + frame.arity ≤ maxHeight
  fixups : ∀ at_ ∈ label.fixups, at_ < n
  skip : ∀ at_, label.kind = .if_ at_ → at_ < n

/-- A context and the control frames around it. -/
structure Tracks (sig : Signature) (maxHeight : ℕ) (frames : List ControlFrame) (n : ℕ)
    (ctx : FunctionCtx) : Prop where
  inFrame : InFrame sig ctx.labels maxHeight ctx
  labels : List.Forall₂ (LabelTracks maxHeight n) ctx.labels frames
  outermost : ∀ frame, frames.getLast? = some frame → frame.arity = sig.results

section

variable {sig : Signature} {maxHeight n k : ℕ} {frames : List ControlFrame} {ctx : FunctionCtx}

theorem LabelTracks.mono {label : Label} {frame : ControlFrame}
    (tracks : LabelTracks maxHeight n label frame) (grown : n ≤ k) :
    LabelTracks maxHeight k label frame :=
  ⟨tracks.sig, tracks.arity, tracks.room, fun at_ h => (tracks.fixups at_ h).trans_le grown,
    fun at_ h => (tracks.skip at_ h).trans_le grown⟩

theorem Tracks.mono (tracks : Tracks sig maxHeight frames n ctx) (grown : n ≤ k) :
    Tracks sig maxHeight frames k ctx :=
  ⟨tracks.inFrame, tracks.labels.imp fun _ _ label => label.mono grown, tracks.outermost⟩

/-- Another context with the same labels. -/
theorem Tracks.moved (tracks : Tracks sig maxHeight frames n ctx) {ctx' : FunctionCtx}
    (inFrame : InFrame sig ctx.labels maxHeight ctx') : Tracks sig maxHeight frames n ctx' :=
  ⟨by rw [inFrame.labels]; exact inFrame, by rw [inFrame.labels]; exact tracks.labels,
    tracks.outermost⟩

/-- A label of the context is for a frame. -/
theorem Tracks.label (tracks : Tracks sig maxHeight frames n ctx) {depth : ℕ} {label : Label}
    {frame : ControlFrame} (found : ctx.labels[depth]? = some label)
    (foundFrame : frames[depth]? = some frame) : LabelTracks maxHeight n label frame := by
  have each := List.forall₂_iff_get.mp tracks.labels
  obtain ⟨inside, rfl⟩ := List.getElem?_eq_some_iff.mp found
  obtain ⟨insideFrame, rfl⟩ := List.getElem?_eq_some_iff.mp foundFrame
  exact each.2 depth inside insideFrame

/-- The outermost label returns. -/
theorem Tracks.returns (tracks : Tracks sig maxHeight frames n ctx) {depth : ℕ}
    {frame : ControlFrame} (outermost : depth + 1 = ctx.labels.length)
    (found : frames[depth]? = some frame) : frame.arity = sig.results := by
  refine tracks.outermost frame ?_
  have same : frames.length - 1 = depth := by
    rw [← tracks.labels.length_eq]
    omega
  rw [List.getLast?_eq_getElem?, same]
  exact found

/-- A forward jump to a label. -/
theorem Tracks.pushed (tracks : Tracks sig maxHeight frames n ctx) (depth : ℕ) {at_ : ℕ}
    (inside : at_ < n) : Tracks sig maxHeight frames n (ctx.pushFixup depth at_) := by
  refine ⟨⟨tracks.inFrame.pending, tracks.inFrame.sig, rfl⟩, ?_, tracks.outermost⟩
  obtain ⟨count, each⟩ := List.forall₂_iff_get.mp tracks.labels
  refine List.forall₂_iff_get.mpr ⟨?_, ?_⟩
  · rw [FunctionCtx.pushFixup, List.length_modify, count]
  · intro i insideLabels insideFrames
    have label := each i (by omega) insideFrames
    simp only [FunctionCtx.pushFixup, List.get_eq_getElem, List.getElem_modify] at label ⊢
    split_ifs
    · refine ⟨label.sig, label.arity, label.room, ?_, label.skip⟩
      intro other member
      rcases List.mem_append.mp member with member | member
      · exact label.fixups other member
      · rwa [List.mem_singleton.mp member]
    · exact label

end

/-! ## Branches and calls -/

/-- The signature of a callee. -/
def calleeSig (env : EmitterEnv) : Callee → Option Signature
  | .direct function => env.signatures[function]?
  | .indirect typeIndex _ => env.typeSignatures[typeIndex]?

section

variable {checks : Bool} {E : EmitFailure → Prop} (rejects : ∀ f, Rejects f → E f) {n : ℕ}
  {sig : Signature} {maxHeight : ℕ} (fits : sig.locals + maxHeight ≤ maxFrameSlots)
  {frames : List ControlFrame} {ctx : FunctionCtx}

include rejects

theorem calleeSignature_emits (env : EmitterEnv) (callee : Callee) :
    Emits checks E n (calleeSignature env callee) fun found _ =>
      calleeSig env callee = some found := by
  cases callee with
  | direct function =>
      simp only [calleeSignature, calleeSig]
      cases env.signatures[function]? with
      | none => exact fail_emits rejects (by simp)
      | some found => exact Settles.pure fun _ _ => rfl
  | indirect typeIndex index =>
      simp only [calleeSignature, calleeSig]
      cases env.typeSignatures[typeIndex]? with
      | none => exact fail_emits rejects (by simp)
      | some found => exact Settles.pure fun _ _ => rfl

theorem emitJumpTo_emits (env : EmitterEnv) (callee : Callee) (signature : ℕ) :
    Emits checks E n (emitJumpTo env callee signature) := by
  cases callee with
  | direct function =>
      refine (emit_emits rejects _).bind fun at_ k _ inside => Settles.modify fun e inv size => ?_
      refine ⟨⟨inv.checks, inv.cold, ?_⟩, le_rfl⟩
      intro fixup member
      rcases List.mem_append.mp member with member | member
      · exact inv.calls fixup member
      · rw [List.mem_singleton.mp member]
        exact inside.trans_le size
  | indirect typeIndex index =>
      exact (emitAll_emits rejects _).seq fun _ _ _ => (emit_emits rejects _).bind fun _ _ _ _ =>
        Settles.pure fun _ _ => trivial

include fits

theorem moveDown_emits (inFrame : InFrame sig ctx.labels maxHeight ctx) {height base count : ℕ}
    (covered : count ≤ height) (below : height ≤ maxHeight) (room : base + count ≤ maxHeight) :
    Emits checks E n (moveDown ctx height base count) := by
  have small := maxFrameSlots_lt
  refine (u32Sub_emits covered (by omega)).bind fun source _ _ eq => ?_
  subst eq
  refine Settles.ite (fun _ => Settles.pure fun _ _ => trivial) fun _ => Settles.forM _ ?_
  intro i member k _
  have inside := List.mem_range.mp member
  refine (u32Add_emits (by omega)).bind fun toDepth _ _ eq => ?_
  subst eq
  refine (inFrame.stack_emits fits (by omega)).seq fun rd _ _ => ?_
  refine (u32Add_emits (by omega)).bind fun fromDepth _ _ eq => ?_
  subst eq
  exact (inFrame.stack_emits fits (by omega)).seq fun rs _ _ =>
    (emit_emits rejects _).bind fun _ _ _ _ => Settles.pure fun _ _ => trivial

theorem emitReturn_emits (inFrame : InFrame sig ctx.labels maxHeight ctx) {height : ℕ}
    (covered : sig.results ≤ height) (below : height ≤ maxHeight) :
    Emits checks E n (emitReturn ctx height) := by
  have small := maxFrameSlots_lt
  refine Settles.seq (Settles.forM _ ?_) fun _ _ _ => emitAll_emits rejects _
  intro i member k _
  have inside := List.mem_range.mp member
  rw [inFrame.sig] at inside ⊢
  refine (u32Sub_emits covered (by omega)).bind fun first _ _ eq => ?_
  subst eq
  refine (u32Add_emits (by omega)).bind fun depth _ _ eq => ?_
  subst eq
  exact (inFrame.stack_emits fits (by omega)).seq fun rs _ _ =>
    (resultTemp_emits rejects _ _ _).seq fun rd _ _ =>
      (emit_emits rejects _).bind fun _ _ _ _ => Settles.pure fun _ _ => trivial

theorem branch_emits (tracks : Tracks sig maxHeight frames n ctx) {depth : ℕ}
    {frame : ControlFrame} (found : frames[depth]? = some frame) {height : ℕ}
    (covered : frame.arity ≤ height) (below : height ≤ maxHeight) :
    Emits checks E n (branch ctx height depth) fun ctx' k =>
      Tracks sig maxHeight frames k ctx' := by
  refine (label_emits rejects ctx depth).bind fun label k grown foundLabel => ?_
  refine Settles.ite (fun outermost => ?_) fun _ => ?_
  · rw [tracks.returns outermost found] at covered
    exact (emitReturn_emits rejects fits tracks.inFrame covered below).seq fun _ _ grown' =>
      Settles.pure fun _ grown'' => tracks.mono (by omega)
  · have tracked := tracks.label foundLabel found
    rw [← tracked.arity] at covered
    have room := tracked.room
    rw [← tracked.arity] at room
    refine (moveDown_emits rejects fits tracks.inFrame covered below room).seq fun _ k' grown' => ?_
    cases label.kind with
    | loop entry =>
        exact (emit_emits rejects _).bind fun _ _ _ _ => Settles.pure fun _ _ =>
          tracks.mono (by omega)
    | block | if_ skip | else_ =>
        exact (emit_emits rejects _).bind fun at_ _ _ inside => Settles.pure fun _ _ =>
          (tracks.mono (by omega)).pushed depth (by omega)

omit fits in
/-- A call finds its arguments and has room for its results. -/
theorem emitCall_emits (env : EmitterEnv) (inFrame : InFrame sig ctx.labels maxHeight ctx)
    {height : ℕ} {callee : Callee} (live : sig.locals + height ≤ maxFrameSlots)
    (arity : ∀ found, calleeSig env callee = some found → found.params ≤ sig.locals + height ∧
      sig.locals + height - found.params + found.results ≤ maxFrameSlots) :
    Emits checks E n (emitCall env ctx height callee) := by
  have small := maxFrameSlots_lt
  refine (calleeSignature_emits rejects env callee).bind fun found _ _ eq => ?_
  obtain ⟨params, results⟩ := arity found eq
  rw [inFrame.sig]
  refine (u32Add_emits (by omega)).bind fun liveSlots _ _ eq => ?_
  subst eq
  refine (u32Add_emits (by omega)).bind fun frameSlots _ _ _ => ?_
  refine Settles.seq (Settles.forM _ fun slot member k _ => ?_) fun _ _ _ => ?_
  · have inside := List.mem_range.mp member
    exact (slot_emits ctx (by omega)).seq fun value _ _ => (emit_emits rejects _).bind
      fun _ _ _ _ => Settles.pure fun _ _ => trivial
  refine (emit_emits rejects _).bind fun raPc _ _ raInside => ?_
  refine (emit_emits rejects _).bind fun _ _ grown₁ _ => ?_
  refine (u32Sub_emits params (by omega)).bind fun argsBase _ grown₂ eq => ?_
  subst eq
  refine Settles.seq (Settles.forM _ fun j member k _ => ?_) fun _ _ grown₃ => ?_
  · have inside := List.mem_range.mp member
    refine (slot_emits ctx (by omega)).seq fun rd _ _ => ?_
    exact (u32Add_emits (by omega)).bind fun arg _ _ _ => (emit_emits rejects _).bind
      fun _ _ _ _ => Settles.pure fun _ _ => trivial
  refine (emit_emits rejects _).bind fun _ _ grown₄ _ => ?_
  refine (emitJumpTo_emits rejects env callee _).seq fun _ _ grown₅ => ?_
  refine (pc_emits rejects).seq fun returnPc _ grown₆ => ?_
  refine (patch_emits (by omega) returnPc).seq fun _ _ _ => ?_
  refine (emit_emits rejects _).bind fun _ _ _ _ => ?_
  refine Settles.seq (Settles.forM _ fun slot member k _ => ?_) fun _ _ _ =>
    Settles.forM _ fun i member k _ => ?_
  · have inside := List.mem_range.mp member
    exact (slot_emits ctx (by omega)).seq fun rd _ _ => (emit_emits rejects _).bind
      fun _ _ _ _ => Settles.pure fun _ _ => trivial
  · have inside := List.mem_range.mp member
    refine (u32Add_emits (by omega)).bind fun result _ _ eq => ?_
    subst eq
    exact (slot_emits ctx (by omega)).seq fun rd _ _ =>
      (resultTemp_emits rejects _ _ _).seq fun rs _ _ => (emit_emits rejects _).bind
        fun _ _ _ _ => Settles.pure fun _ _ => trivial

end

/-! ## Underflows -/

section

variable {E : EmitFailure → Prop} (rejects : ∀ f, Rejects f → E f) (panics : E .panic) {n : ℕ}
  {sig : Signature} {maxHeight : ℕ} (fits : sig.locals + maxHeight ≤ maxFrameSlots)
  {frames : List ControlFrame} {ctx : FunctionCtx}

include panics

theorem emitReturn_stops (inFrame : InFrame sig ctx.labels maxHeight ctx) {height : ℕ}
    (under : height < sig.results) : Emits true E n (emitReturn ctx height) fun _ _ => False := by
  rw [← inFrame.sig] at under
  obtain ⟨results, eq⟩ : ∃ results, ctx.sig.results = results + 1 := ⟨ctx.sig.results - 1, by omega⟩
  unfold emitReturn
  rw [eq] at under ⊢
  refine Settles.stop ?_
  rw [List.range_succ_eq_map]
  exact Settles.forM_stop (Settles.stop (u32Sub_stops panics under))

include rejects

theorem branch_stops (tracks : Tracks sig maxHeight frames n ctx) {depth : ℕ}
    {frame : ControlFrame} (found : frames[depth]? = some frame) {height : ℕ}
    (under : height < frame.arity) : Emits true E n (branch ctx height depth) fun _ _ => False := by
  refine (label_emits rejects ctx depth).bind fun label k grown foundLabel => ?_
  refine Settles.ite (fun outermost => ?_) fun _ => ?_
  · rw [tracks.returns outermost found] at under
    exact Settles.stop (emitReturn_stops panics tracks.inFrame under)
  · rw [← (tracks.label foundLabel found).arity] at under
    exact Settles.stop (Settles.stop (u32Sub_stops panics under))

theorem emitCall_stops (env : EmitterEnv) (inFrame : InFrame sig ctx.labels maxHeight ctx)
    {height : ℕ} {callee : Callee} (live : sig.locals + height ≤ maxFrameSlots)
    (under : ∀ found, calleeSig env callee = some found → sig.locals + height < found.params) :
    Emits true E n (emitCall env ctx height callee) fun _ _ => False := by
  have small := maxFrameSlots_lt
  refine (calleeSignature_emits rejects env callee).bind fun found _ _ eq => ?_
  have under := under found eq
  rw [inFrame.sig]
  refine (u32Add_emits (by omega)).bind fun liveSlots _ _ eq => ?_
  subst eq
  refine (u32Add_emits (by omega)).bind fun frameSlots _ _ _ => ?_
  refine Settles.seq (Settles.forM _ fun slot member k _ => ?_) fun _ _ _ => ?_
  · have inside := List.mem_range.mp member
    exact (slot_emits ctx (by omega)).seq fun value _ _ => (emit_emits rejects _).bind
      fun _ _ _ _ => Settles.pure fun _ _ => trivial
  refine (emit_emits rejects _).bind fun raPc _ _ _ => ?_
  exact (emit_emits rejects _).bind fun _ _ _ _ => Settles.stop (u32Sub_stops panics under)

/-- A `br_table` whose operands are missing stops at its first branch. -/
theorem emitBrTable_stops (index : Reg) {height default i : ℕ} {targets : List ℕ}
    (tracks : Tracks sig maxHeight frames n ctx)
    (under : ∀ depth ∈ default :: targets, ∃ frame, frames[depth]? = some frame ∧
      height < frame.arity) :
    Emits true E n (emitBrTable index height default ctx i targets) fun _ _ => False := by
  cases targets with
  | nil =>
      obtain ⟨frame, found, under⟩ := under default List.mem_cons_self
      exact branch_stops rejects panics tracks found under
  | cons depth targets =>
      obtain ⟨frame, found, under⟩ := under depth (by simp)
      refine (emit_emits rejects _).bind fun _ _ grown₁ _ => ?_
      refine (emit_emits rejects _).bind fun skip _ grown₂ _ => Settles.stop ?_
      exact branch_stops rejects panics (tracks.mono (grown₁.trans grown₂)) found under

theorem needsMoves_stops (tracks : Tracks sig maxHeight frames n ctx) {depth : ℕ}
    {frame : ControlFrame} (found : frames[depth]? = some frame) {height : ℕ}
    (under : height < frame.arity) :
    Emits true E n (needsMoves ctx height depth) fun _ _ => False := by
  refine (label_emits rejects ctx depth).bind fun label k grown foundLabel => ?_
  rw [← (tracks.label foundLabel found).arity] at under
  exact Settles.ite (fun _ => Settles.stop (u32Sub_stops panics under)) fun none =>
    absurd (by omega) none

theorem emitBrIf_stops (cond : Reg) (tracks : Tracks sig maxHeight frames n ctx) {depth : ℕ}
    {frame : ControlFrame} (found : frames[depth]? = some frame) {height : ℕ}
    (under : height < frame.arity) :
    Emits true E n (emitBrIf ctx cond height depth) fun _ _ => False := by
  refine Settles.ite (fun outermost => ?_) fun _ => ?_
  · refine Settles.bind (Q := fun direct _ => direct = false) (Settles.pure fun _ _ => rfl) ?_
    rintro direct k grown rfl
    refine Settles.ite (fun absurd => nomatch absurd) fun _ => ?_
    refine (emit_emits rejects _).bind fun skip _ grown' _ => Settles.stop ?_
    exact branch_stops rejects panics (tracks.mono (grown.trans grown')) found under
  · exact Settles.stop (needsMoves_stops rejects panics tracks found under)

end

/-! ## Operators -/

section

variable {checks : Bool} {E : EmitFailure → Prop} (rejects : ∀ f, Rejects f → E f) {n : ℕ}
  {sig : Signature} {maxHeight : ℕ} (fits : sig.locals + maxHeight ≤ maxFrameSlots)
  {frames : List ControlFrame} {ctx : FunctionCtx}

include rejects fits

theorem emitLocalSet_emits (inFrame : InFrame sig ctx.labels maxHeight ctx) {h i : ℕ}
    (covered : 1 ≤ h) (below : h ≤ maxHeight) (names : i < sig.locals) :
    Emits checks E n (emitLocalSet ctx h i) fun ctx' _ => InFrame sig ctx.labels maxHeight ctx' := by
  have small := maxFrameSlots_lt
  refine (u32Sub_emits covered (by omega)).bind fun top _ _ eq => ?_
  subst eq
  have taken := inFrame.taken (h - 1)
  have pending := inFrame.pending (h - 1)
  rw [FunctionCtx.takePending] at taken ⊢
  refine (materializeLocal_emits rejects fits taken i).bind fun ctx' _ _ inFrame' => ?_
  refine (local_emits fits names).seq fun rd _ _ => ?_
  cases value : (ctx.pending[h - 1]?).join with
  | none =>
      exact (inFrame'.stack_emits fits (by omega)).seq fun rs _ _ => (emit_emits rejects _).bind
        fun _ _ _ _ => Settles.pure fun _ _ => inFrame'
  | some pended =>
      cases pended with
      | local_ j =>
          refine Settles.ite (fun _ => Settles.pure fun _ _ => inFrame') fun _ => ?_
          exact (local_emits fits ((pending _ value).2 j rfl)).seq fun rs _ _ =>
            (emit_emits rejects _).bind fun _ _ _ _ => Settles.pure fun _ _ => inFrame'
      | const_ v =>
          exact (emit_emits rejects _).bind fun _ _ _ _ => Settles.pure fun _ _ => inFrame'

theorem emitSelect_emits (inFrame : InFrame sig ctx.labels maxHeight ctx) {h : ℕ}
    (covered : 3 ≤ h) (below : h ≤ maxHeight) :
    Emits checks E n (emitSelect ctx h) fun ctx' _ => InFrame sig ctx.labels maxHeight ctx' := by
  have small := maxFrameSlots_lt
  refine (u32Sub_emits covered (by omega)).bind fun first _ _ eq => ?_
  subst eq
  refine (src_emits rejects fits inFrame (by omega)).bind fun v1 _ _ inFrame => ?_
  refine (u32Sub_emits (by omega) (by omega)).bind fun second _ _ eq => ?_
  subst eq
  refine (src_emits rejects fits inFrame (by omega)).bind fun v2 _ _ inFrame => ?_
  refine (u32Sub_emits (by omega) (by omega)).bind fun top _ _ eq => ?_
  subst eq
  refine (src_emits rejects fits inFrame (by omega)).bind fun cond _ _ inFrame => ?_
  refine (inFrame.stack_emits fits (by omega)).seq fun rd _ _ => ?_
  have rest {k : ℕ} : Emits checks E k (do
      let skip ← emit (.branchIfNonzero cond.1 0)
      let _ ← emit (.mov rd v2.1)
      let endPc ← pc
      patch skip endPc
      return cond.2) fun ctx' _ => InFrame sig ctx.labels maxHeight ctx' := by
    refine (emit_emits rejects _).bind fun skip _ _ inside => ?_
    refine (emit_emits rejects _).bind fun _ _ grown₁ _ => (pc_emits rejects).seq fun endPc _ grown₂ => ?_
    exact (patch_emits (by omega) endPc).seq fun _ _ _ => Settles.pure fun _ _ => inFrame
  exact Settles.ite (fun _ => (emit_emits rejects _).bind fun _ _ _ _ => rest) fun _ => rest

theorem emitBrTable_emits (index : Reg) {height default i : ℕ} {targets : List ℕ}
    (tracks : Tracks sig maxHeight frames n ctx) (below : height ≤ maxHeight)
    (covered : ∀ depth ∈ default :: targets, ∃ frame, frames[depth]? = some frame ∧
      frame.arity ≤ height) :
    Emits checks E n (emitBrTable index height default ctx i targets) fun ctx' k =>
      Tracks sig maxHeight frames k ctx' := by
  induction targets generalizing n i ctx with
  | nil =>
      obtain ⟨frame, found, covered⟩ := covered default List.mem_cons_self
      exact branch_emits rejects fits tracks found covered below
  | cons depth targets ih =>
      obtain ⟨frame, found, here⟩ := covered depth (by simp)
      refine (emit_emits rejects _).bind fun _ _ grown₁ _ => ?_
      refine (emit_emits rejects _).bind fun skip _ grown₂ inside => ?_
      have tracks := tracks.mono (grown₁.trans grown₂)
      refine (branch_emits rejects fits tracks found here below).bind fun ctx' _ grown₃ tracks => ?_
      refine (pc_emits rejects).seq fun next _ grown₄ => ?_
      refine (patch_emits (by omega) next).seq fun _ _ grown₅ => ?_
      refine ih (tracks.mono (grown₄.trans grown₅)) fun depth member => covered depth ?_
      simp only [List.mem_cons] at member ⊢
      tauto

theorem emitBrIf_emits (cond : Reg) (tracks : Tracks sig maxHeight frames n ctx) {depth : ℕ}
    {frame : ControlFrame} (found : frames[depth]? = some frame) {height : ℕ}
    (covered : frame.arity ≤ height) (below : height ≤ maxHeight) :
    Emits checks E n (emitBrIf ctx cond height depth) fun ctx' k =>
      Tracks sig maxHeight frames k ctx' := by
  have small := maxFrameSlots_lt
  have around {k : ℕ} (grown : n ≤ k) : Emits checks E k (do
      let skip ← emit (.branchIfZero cond 0)
      let ctx ← branch ctx height depth
      let endPc ← pc
      patch skip endPc
      return ctx) fun ctx' k => Tracks sig maxHeight frames k ctx' := by
    refine (emit_emits rejects _).bind fun skip _ grown₁ inside => ?_
    have tracks := tracks.mono (grown.trans grown₁)
    refine (branch_emits rejects fits tracks found covered below).bind fun ctx' _ grown₂ tracks => ?_
    refine (pc_emits rejects).seq fun endPc _ grown₃ => ?_
    exact (patch_emits (by omega) endPc).seq fun _ _ grown₄ => Settles.pure fun _ grown₅ =>
      tracks.mono (by omega)
  refine Settles.ite (fun _ => Settles.seq (Settles.pure fun _ _ => trivial) fun direct k grown => ?_) fun _ =>
    Settles.seq ?moves fun moves _ grown₁ => Settles.seq (Settles.pure fun _ _ => trivial) fun direct k grown₂ =>
      have grown : n ≤ k := grown₁.trans grown₂
      ?_
  case moves =>
    refine (label_emits rejects ctx depth).bind fun label k grown foundLabel => ?_
    rw [← (tracks.label foundLabel found).arity] at covered
    exact Settles.ite (fun _ => (u32Sub_emits covered (by omega)).bind fun _ _ _ _ =>
      Settles.pure fun _ _ => trivial) fun _ => Settles.pure fun _ _ => trivial
  -- Both ways, what follows depends on whether the branch is direct.
  all_goals
    refine Settles.ite (fun _ => ?_) fun _ => around grown
    refine (label_emits rejects ctx depth).bind fun label _ grown₁ _ => ?_
    cases label.kind with
    | loop entry =>
        exact (emit_emits rejects _).bind fun _ _ grown₂ _ => Settles.pure fun _ grown₃ =>
          tracks.mono (by omega)
    | block | if_ skip | else_ =>
        exact (emit_emits rejects _).bind fun at_ _ grown₂ inside => Settles.pure fun _ grown₃ =>
          (tracks.mono (by omega)).pushed depth (by omega)

end

/-! ## Entering and leaving frames -/

section

variable {sig : Signature} {maxHeight n : ℕ} {frames : List ControlFrame} {ctx : FunctionCtx}

theorem Tracks.innermost {frame : ControlFrame} {rest : List ControlFrame} {label : Label}
    {labels : List Label} (tracks : Tracks sig maxHeight (frame :: rest) n ctx)
    (eq : ctx.labels = label :: labels) : LabelTracks maxHeight n label frame :=
  tracks.label (show ctx.labels[0]? = some label by rw [eq]; rfl) rfl

/-- The innermost frame, replaced by one that carries the same values. -/
theorem Tracks.replaced {frame frame' : ControlFrame} {rest : List ControlFrame} {label : Label}
    {labels : List Label} (tracks : Tracks sig maxHeight (frame :: rest) n ctx)
    (eq : ctx.labels = label :: labels) {label' : Label}
    (tracked : LabelTracks maxHeight n label' frame') (arity : frame'.arity = frame.arity) :
    Tracks sig maxHeight (frame' :: rest) n { ctx with labels := label' :: labels } := by
  have tail := tracks.labels
  rw [eq] at tail
  cases tail with
  | cons _ tail =>
      refine ⟨⟨tracks.inFrame.pending, tracks.inFrame.sig, rfl⟩, .cons tracked tail, ?_⟩
      intro last found
      cases rest with
      | nil =>
          cases found
          exact arity.trans (tracks.outermost frame rfl)
      | cons other rest => exact tracks.outermost last found

/-- The context outside the innermost frame. -/
theorem Tracks.left {frame : ControlFrame} {rest : List ControlFrame} {label : Label}
    {labels : List Label} (tracks : Tracks sig maxHeight (frame :: rest) n ctx)
    (eq : ctx.labels = label :: labels) :
    Tracks sig maxHeight rest n { ctx with labels := labels } := by
  have tail := tracks.labels
  rw [eq] at tail
  cases tail with
  | cons _ tail =>
      refine ⟨⟨tracks.inFrame.pending, tracks.inFrame.sig, rfl⟩, tail, fun last found => ?_⟩
      refine tracks.outermost last ?_
      rw [List.getLast?_cons, found]
      rfl

theorem Tracks.unreachable {c : Checker} (tracks : Tracks sig maxHeight c.frames n ctx) :
    Tracks sig maxHeight c.setUnreachable.frames n ctx := by
  unfold Checker.setUnreachable
  cases found : c.frames with
  | nil =>
      simp only
      rwa [found] at tracks ⊢
  | cons frame rest =>
      rw [found] at tracks
      cases eq : ctx.labels with
      | nil =>
          have count := tracks.labels.length_eq
          rw [eq] at count
          cases count
      | cons label labels =>
          have tracked := tracks.innermost eq
          have marked : LabelTracks maxHeight n label { frame with unreachable := true } :=
            ⟨tracked.sig, tracked.arity, tracked.room, tracked.fixups, tracked.skip⟩
          have same := tracks.replaced eq marked rfl
          rwa [← eq] at same

theorem Tracks.entered {c : Checker} (tracks : Tracks sig maxHeight c.frames n ctx)
    (nonempty : c.frames ≠ []) {kind : FrameKind} {block : BlockSig} {label : Label}
    (arity : label.arity = (⟨kind, block, c.height, false⟩ : ControlFrame).arity)
    (blockSig : label.sig = block) (none : label.fixups = [])
    (skip : ∀ at_, label.kind = .if_ at_ → at_ < n) (below : label.base ≤ c.height)
    (params : c.height + block.params ≤ maxHeight) (results : c.height + block.results ≤ maxHeight) :
    Tracks sig maxHeight (c.pushFrame kind block).frames n
      { ctx with labels := label :: ctx.labels } := by
  refine ⟨⟨tracks.inFrame.pending, tracks.inFrame.sig, rfl⟩, .cons ?_ tracks.labels, ?_⟩
  · refine ⟨blockSig, arity, ?_, by simp [none], skip⟩
    unfold ControlFrame.arity
    cases kind <;> simp only <;> omega
  · intro frame last
    refine tracks.outermost frame ?_
    rwa [Checker.pushFrame, List.getLast?_cons_of_ne_nil nonempty] at last

end

end Emitter

end JoltWasm
