import JoltWasm.Frontend.Progress

/-!
# Safety of the lowering

A covered operator lowers in range, whatever control frames it enters or leaves; in a build that
checks arithmetic an operator that is not covered stops the lowering.
-/

namespace JoltWasm

open Lib Layout

namespace Emitter

/-! ## Leaving frames -/

section

variable {checks : Bool} {E : EmitFailure → Prop} (rejects : ∀ f, Rejects f → E f) {n : ℕ}
  {sig : Signature} {maxHeight : ℕ} (fits : sig.locals + maxHeight ≤ maxFrameSlots)
  {frame : ControlFrame} {rest : List ControlFrame} {ctx : FunctionCtx}

theorem patchAll_emits (target : Pc) {fixups : List ℕ} (inside : ∀ at_ ∈ fixups, at_ < n) :
    Emits checks E n (patchAll target fixups) := by
  induction fixups generalizing n with
  | nil => exact Settles.pure fun _ _ => trivial
  | cons at_ fixups ih =>
      rw [List.forall_mem_cons] at inside
      exact (patch_emits inside.1 target).seq fun _ _ grown =>
        ih fun other member => (inside.2 other member).trans_le grown

include rejects fits

theorem emitElse_emits (tracks : Tracks sig maxHeight (frame :: rest) n ctx) :
    Emits checks E n (emitElse ctx) fun ctx' k =>
      Tracks sig maxHeight (⟨.else_, frame.sig, frame.height, false⟩ :: rest) k ctx' := by
  refine (materializeAll_emits rejects fits tracks.inFrame).bind fun ctx _ grown inFrame => ?_
  have tracks := (tracks.mono grown).moved inFrame
  cases eq : ctx.labels with
  | nil => exact fail_emits rejects (by simp)
  | cons label labels =>
      have tracked := tracks.innermost eq
      obtain ⟨kind, base, block, fixups⟩ := label
      cases kind with
      | block | loop entry | else_ => exact fail_emits rejects (by simp)
      | if_ skip =>
          refine (emit_emits rejects _).bind fun toEnd _ grown₁ inside => ?_
          refine (pc_emits rejects).seq fun elsePc _ grown₂ => ?_
          have skipInside := tracked.skip skip rfl
          refine (patch_emits (by omega) elsePc).seq fun _ _ grown₃ => Settles.pure fun k grown₄ => ?_
          have arity : frame.sig.results = frame.arity := by
            rw [← tracked.sig, ← tracked.arity]
            rfl
          refine Tracks.replaced (tracks.mono (by omega)) eq ⟨tracked.sig, ?_, ?_, ?_, nofun⟩ arity
          · exact tracked.arity.trans arity.symm
          · exact (Nat.add_le_add_left arity.le base).trans tracked.room
          · intro other member
            rcases List.mem_append.mp member with member | member
            · exact (tracked.fixups other member).trans_le (by omega)
            · rw [List.mem_singleton.mp member]
              omega

omit fits in
/-- The jumps to a label are patched to its end. -/
theorem close_emits {labels : List Label} {label : Label} (eq : ctx.labels = label :: labels)
    (tracks : Tracks sig maxHeight (frame :: rest) n ctx) : Emits checks E n (do
      let endPc ← pc
      match label.kind with
      | .if_ skip => patch skip endPc
      | .block | .loop _ | .else_ => pure ()
      patchAll endPc label.fixups
      return { ctx with labels := labels }) fun ctx' k => Tracks sig maxHeight rest k ctx' := by
  have tracked := tracks.innermost eq
  have outside := tracks.left eq
  have patched {k : ℕ} (endPc : Pc) (grown : n ≤ k) : Emits checks E k (do
      patchAll endPc label.fixups
      return { ctx with labels := labels }) fun ctx' k => Tracks sig maxHeight rest k ctx' := by
    refine (patchAll_emits endPc fun at_ member => ?_).seq fun _ _ grown' => ?_
    · exact (tracked.fixups at_ member).trans_le grown
    · exact Settles.pure fun _ _ => outside.mono (by omega)
  refine (pc_emits rejects).seq fun endPc _ grown₁ => ?_
  cases kind : label.kind with
  | block | loop entry | else_ => exact patched endPc grown₁
  | if_ skip =>
      exact (patch_emits ((tracked.skip skip kind).trans_le grown₁) endPc).seq
        fun _ _ grown₂ => patched endPc (grown₁.trans grown₂)

theorem emitEnd_emits (tracks : Tracks sig maxHeight (frame :: rest) n ctx) {h : ℕ}
    (covered : rest = [] → sig.results ≤ h) (below : h ≤ maxHeight) :
    Emits checks E n (emitEnd ctx h) fun ctx' k => Tracks sig maxHeight rest k ctx' := by
  refine (materializeAll_emits rejects fits tracks.inFrame).bind fun ctx _ grown inFrame => ?_
  have tracks := (tracks.mono grown).moved inFrame
  cases eq : ctx.labels with
  | nil => exact fail_emits rejects (by simp)
  | cons label labels =>
      have outside := tracks.left eq
      have last : labels = [] ↔ rest = [] := by
        rw [← List.length_eq_zero_iff, outside.labels.length_eq, List.length_eq_zero_iff]
      refine Settles.ite (fun none => ?_) fun _ => close_emits rejects eq tracks
      exact (emitReturn_emits rejects fits outside.inFrame (covered (last.mp none)) below).seq
        fun _ _ grown => close_emits rejects eq (tracks.mono grown)

/-- A function whose results are missing stops at its end. -/
theorem emitEnd_stops (panics : E .panic) (tracks : Tracks sig maxHeight [frame] n ctx) {h : ℕ}
    (under : h < sig.results) : Emits true E n (emitEnd ctx h) fun _ _ => False := by
  refine (materializeAll_emits rejects fits tracks.inFrame).bind fun ctx _ grown inFrame => ?_
  have tracks := (tracks.mono grown).moved inFrame
  cases eq : ctx.labels with
  | nil => exact fail_emits rejects (by simp)
  | cons label labels =>
      have outside := tracks.left eq
      have last : labels = [] := by
        rw [← List.length_eq_zero_iff, outside.labels.length_eq, List.length_nil]
      refine Settles.ite (fun _ => ?_) fun other => absurd last other
      exact Settles.stop (emitReturn_stops panics outside.inFrame under)

end

/-! ## Operators -/

/-- A signature counts the parameters and results of a type. -/
def Counts (sig : Signature) (ty : FuncType) : Prop :=
  sig.params = ty.params.length ∧ sig.results = ty.results.length

/-- The signatures the emitter reads are those of the module. -/
structure EnvFits (m : WasmModule) (env : EmitterEnv) : Prop where
  functions : ∀ (function : ℕ) (found : Signature), env.signatures[function]? = some found →
    ∃ ty, m.funcType function = some ty ∧ Counts found ty
  types : ∀ (typeIndex : ℕ) (found : Signature), env.typeSignatures[typeIndex]? = some found →
    ∃ ty, m.types[typeIndex]? = some ty ∧ Counts found ty

/-- The state before an operator that the validator accepts in a body with room for the heights. -/
structure Ready (m : WasmModule) (sig : Signature) (maxHeight n : ℕ) (c c' : Checker)
    (ctx : FunctionCtx) (op : WasmOp) (next : Option WasmOp) : Prop where
  stepped : c.step m sig.locals sig.results op = some c'
  tracks : Tracks sig maxHeight c.frames n ctx
  nonempty : c.frames ≠ []
  below : c.height ≤ maxHeight
  below' : c'.height ≤ maxHeight
  room : ∀ frame ∈ c'.frames, frame.height + frame.sig.results ≤ maxHeight
  names : Names sig.locals next

/-- What holds after an operator: the frames are tracked, and an absorbed operator sets a local to
an operand of the stack. -/
def Lowered (sig : Signature) (maxHeight : ℕ) (c : Checker) (next : Option WasmOp)
    (result : Bool × FunctionCtx) (n : ℕ) : Prop :=
  Tracks sig maxHeight c.frames n result.2 ∧
    (result.1 = true → 1 ≤ c.height ∧ ∃ i, next = some (.localSet i) ∨ next = some (.localTee i))

section

variable {checks : Bool} {E : EmitFailure → Prop} (rejects : ∀ f, Rejects f → E f) {n : ℕ}
  {sig : Signature} {maxHeight : ℕ} (fits : sig.locals + maxHeight ≤ maxFrameSlots)
  {m : WasmModule} {env : EmitterEnv} {c c' : Checker} {ctx : FunctionCtx} {next : Option WasmOp}

/-- An operator that keeps the frames and absorbs nothing. -/
theorem Lowered.plain {frames : List ControlFrame} (tracks : Tracks sig maxHeight frames n ctx)
    (same : c'.frames = frames) : Lowered sig maxHeight c' next (false, ctx) n :=
  ⟨same ▸ tracks, nofun⟩

include rejects fits

/-- The rows of an operator with one operand and one result. -/
theorem oneOperand_emits {β : Type} (rows : Reg → Reg → EmitM β)
    (each : ∀ rd rs k, Emits checks E k (rows rd rs))
    (tracks : Tracks sig maxHeight c.frames n ctx) (covered : 1 ≤ c.height)
    (below : c.height ≤ maxHeight) (names : Names sig.locals next)
    (popped : c.popPush 1 1 = some c') : Emits checks E n (do
      let top ← u32Sub c.height 1
      let (rs, ctx) ← src ctx top
      let (rd, absorbed, ctx) ← dest ctx top next
      let _ ← rows rd rs
      return (absorbed, ctx)) (Lowered sig maxHeight c' next) := by
  have small := maxFrameSlots_lt
  obtain ⟨frames, height⟩ := Checker.popPush_eq popped
  refine (u32Sub_emits covered (by omega)).bind fun top _ grown₁ eq => ?_
  subst eq
  refine (src_emits rejects fits tracks.inFrame (by omega)).bind fun rs _ grown₂ inFrame => ?_
  refine (dest_emits rejects fits inFrame (by omega) names).bind fun rd _ grown₃ dest => ?_
  refine (each _ _ _).seq fun _ _ grown₄ => Settles.pure fun _ grown₅ => ⟨?_, fun absorbed => ?_⟩
  · rw [frames]
    exact (tracks.mono (by omega)).moved dest.1
  · exact ⟨by omega, dest.2 absorbed⟩

omit rejects fits in
/-- The targets of a `br_table` carry as many values as its default. -/
theorem target_arity {frames : List ControlFrame} {frame : ControlFrame} {targets : List ℕ}
    {default : ℕ} (found : frames[default]? = some frame)
    (same : (targets.all fun depth =>
      (frames[depth]?).map ControlFrame.arity = some frame.arity) = true)
    {depth : ℕ} (member : depth ∈ default :: targets) :
    ∃ target, frames[depth]? = some target ∧ target.arity = frame.arity := by
  rcases List.mem_cons.mp member with rfl | member
  · exact ⟨frame, found, rfl⟩
  · exact Option.map_eq_some_iff.mp (of_decide_eq_true (List.all_eq_true.mp same depth member))

omit fits in
theorem unreachableOp_emits
    (ready : Ready m sig maxHeight n c c' ctx .unreachable next) :
    Emits checks E n (lowerOp env ctx .unreachable c.height next) (Lowered sig maxHeight c' next) := by
  have small := maxFrameSlots_lt
  obtain ⟨stepped, tracks, -, below, -, -, -⟩ := ready
  cases Option.some.inj stepped
  exact (emit_emits rejects _).bind fun _ _ grown _ => Settles.pure fun _ grown' =>
    .plain (tracks.mono (by omega)).unreachable rfl

omit rejects fits in
theorem nopOp_emits
    (ready : Ready m sig maxHeight n c c' ctx .nop next) :
    Emits checks E n (lowerOp env ctx .nop c.height next) (Lowered sig maxHeight c' next) := by
  obtain ⟨stepped, tracks, -, -, -, -, -⟩ := ready
  cases Option.some.inj stepped
  exact Settles.pure fun _ grown => .plain (tracks.mono grown) rfl

theorem blockOp_emits {block : BlockSig}
    (ready : Ready m sig maxHeight n c c' ctx (.block block) next)
    (covered : WasmOp.Covered m sig.locals sig.results c (.block block)) :
    Emits checks E n (lowerOp env ctx (.block block) c.height next) (Lowered sig maxHeight c' next) := by
  have small := maxFrameSlots_lt
  obtain ⟨stepped, tracks, nonempty, below, below', room, -⟩ := ready
  obtain ⟨mid, pop, rfl⟩ := Option.map_eq_some_iff.mp stepped
  obtain ⟨frames, height⟩ := Checker.pop_eq pop
  refine (materializeAll_emits rejects fits tracks.inFrame).bind fun ctx _ grown inFrame => ?_
  have tracks := (tracks.mono grown).moved inFrame
  refine (u32Sub_emits covered (by omega)).bind fun base _ grown₁ eq => Settles.pure ?_
  subst eq
  intro _ grown₂
  rw [← frames] at tracks nonempty
  refine .plain ((tracks.mono (grown₁.trans grown₂)).entered nonempty rfl rfl rfl nofun height
    below' ?_) rfl
  exact room _ List.mem_cons_self

theorem loopOp_emits {block : BlockSig}
    (ready : Ready m sig maxHeight n c c' ctx (.loop block) next)
    (covered : WasmOp.Covered m sig.locals sig.results c (.loop block)) :
    Emits checks E n (lowerOp env ctx (.loop block) c.height next) (Lowered sig maxHeight c' next) := by
  have small := maxFrameSlots_lt
  obtain ⟨stepped, tracks, nonempty, below, below', room, -⟩ := ready
  obtain ⟨mid, pop, rfl⟩ := Option.map_eq_some_iff.mp stepped
  obtain ⟨frames, height⟩ := Checker.pop_eq pop
  refine (materializeAll_emits rejects fits tracks.inFrame).bind fun ctx _ grown inFrame => ?_
  have tracks := (tracks.mono grown).moved inFrame
  refine (pc_emits rejects).seq fun entry _ grown₁ => ?_
  refine (u32Sub_emits covered (by omega)).bind fun base _ grown₂ eq => Settles.pure ?_
  subst eq
  intro _ grown₃
  rw [← frames] at tracks nonempty
  refine .plain ((tracks.mono (by omega)).entered nonempty rfl rfl rfl nofun height
    below' ?_) rfl
  exact room _ List.mem_cons_self

theorem ifOp_emits {block : BlockSig}
    (ready : Ready m sig maxHeight n c c' ctx (.if_ block) next)
    (covered : WasmOp.Covered m sig.locals sig.results c (.if_ block)) :
    Emits checks E n (lowerOp env ctx (.if_ block) c.height next) (Lowered sig maxHeight c' next) := by
  have small := maxFrameSlots_lt
  obtain ⟨stepped, tracks, nonempty, below, below', room, -⟩ := ready
  obtain ⟨mid, pop, rfl⟩ := Option.map_eq_some_iff.mp stepped
  obtain ⟨frames, height⟩ := Checker.pop_eq pop
  have covered : 1 + block.params ≤ c.height := covered
  refine (u32Sub_emits (by omega) (by omega)).bind fun top _ grown₁ eq => ?_
  subst eq
  refine (src_emits rejects fits tracks.inFrame (by omega)).bind fun cond _ grown₂ inFrame => ?_
  have tracks := (tracks.mono (grown₁.trans grown₂)).moved inFrame
  refine (materializeAll_emits rejects fits tracks.inFrame).bind fun ctx _ grown₃ inFrame => ?_
  have tracks := (tracks.mono grown₃).moved inFrame
  refine (emit_emits rejects _).bind fun skip _ grown₄ inside => ?_
  refine (u32Sub_emits (by omega) (by omega)).bind fun base _ grown₅ eq => Settles.pure ?_
  subst eq
  intro _ grown₆
  rw [← frames] at tracks nonempty
  refine .plain ((tracks.mono (by omega)).entered nonempty rfl rfl rfl ?_ ?_ below' ?_) rfl
  · rintro at_ ⟨⟩
    omega
  · change c.height - 1 - block.params ≤ mid.height
    omega
  · exact room _ List.mem_cons_self

theorem elseOp_emits
    (ready : Ready m sig maxHeight n c c' ctx .else_ next) :
    Emits checks E n (lowerOp env ctx .else_ c.height next) (Lowered sig maxHeight c' next) := by
  obtain ⟨stepped, tracks, -, -, -, -, -⟩ := ready
  obtain ⟨⟨frame, mid⟩, popped, rest⟩ := Option.bind_eq_some_iff.mp stepped
  obtain ⟨-, pushed⟩ := Option.ite_none_right_eq_some.mp rest
  obtain ⟨before, height⟩ := Checker.popFrame_eq popped
  cases Option.some.inj pushed
  rw [before] at tracks
  refine (emitElse_emits rejects fits tracks).bind fun ctx _ _ tracks => Settles.pure ?_
  intro _ grown
  refine .plain (tracks.mono grown) ?_
  rw [Checker.pushFrame, height]

theorem endOp_emits
    (ready : Ready m sig maxHeight n c c' ctx .end_ next)
    (covered : WasmOp.Covered m sig.locals sig.results c .end_) :
    Emits checks E n (lowerOp env ctx .end_ c.height next) (Lowered sig maxHeight c' next) := by
  obtain ⟨stepped, tracks, -, below, -, -, -⟩ := ready
  obtain ⟨⟨frame, mid⟩, popped, pushed⟩ := Option.bind_eq_some_iff.mp stepped
  obtain ⟨before, height⟩ := Checker.popFrame_eq popped
  cases Option.some.inj pushed
  have results : mid.frames = [] → sig.results ≤ c.height := fun none =>
    covered (by rw [before, none]; rfl)
  rw [before] at tracks
  exact (emitEnd_emits rejects fits tracks results below).bind fun ctx _ _ tracks =>
    Settles.pure fun _ grown => .plain (tracks.mono grown) rfl

theorem brOp_emits {depth : ℕ}
    (ready : Ready m sig maxHeight n c c' ctx (.br depth) next)
    (covered : WasmOp.Covered m sig.locals sig.results c (.br depth)) :
    Emits checks E n (lowerOp env ctx (.br depth) c.height next) (Lowered sig maxHeight c' next) := by
  obtain ⟨stepped, tracks, -, below, -, -, -⟩ := ready
  obtain ⟨frame, found, rest⟩ := Option.bind_eq_some_iff.mp stepped
  obtain ⟨mid, pop, eq⟩ := Option.bind_eq_some_iff.mp rest
  cases Option.some.inj eq
  refine (materializeAll_emits rejects fits tracks.inFrame).bind fun ctx _ grown inFrame => ?_
  have tracks := (tracks.mono grown).moved inFrame
  refine (branch_emits rejects fits tracks found (covered frame found) below).bind ?_
  intro ctx _ _ tracks
  rw [← (Checker.pop_eq pop).1] at tracks
  exact Settles.pure fun _ grown => .plain (tracks.mono grown).unreachable rfl

theorem brIfOp_emits {depth : ℕ}
    (ready : Ready m sig maxHeight n c c' ctx (.brIf depth) next)
    (covered : WasmOp.Covered m sig.locals sig.results c (.brIf depth)) :
    Emits checks E n (lowerOp env ctx (.brIf depth) c.height next) (Lowered sig maxHeight c' next) := by
  have small := maxFrameSlots_lt
  obtain ⟨stepped, tracks, -, below, -, -, -⟩ := ready
  obtain ⟨frame, found, popped⟩ := Option.bind_eq_some_iff.mp stepped
  have covered := covered frame found
  refine (u32Sub_emits (by omega) (by omega)).bind fun top _ grown₁ eq => ?_
  subst eq
  refine (src_emits rejects fits tracks.inFrame (by omega)).bind fun cond _ grown₂ inFrame => ?_
  have tracks := (tracks.mono (grown₁.trans grown₂)).moved inFrame
  refine (materializeAll_emits rejects fits tracks.inFrame).bind fun ctx _ grown₃ inFrame => ?_
  have tracks := (tracks.mono grown₃).moved inFrame
  refine (emitBrIf_emits rejects fits cond.1 tracks found (by omega) (by omega)).bind ?_
  exact fun ctx _ _ tracks => Settles.pure fun _ grown =>
    .plain (tracks.mono grown) (Checker.popPush_eq popped).1

theorem brTableOp_emits {targets : List ℕ} {default : ℕ}
    (ready : Ready m sig maxHeight n c c' ctx (.brTable targets default) next)
    (covered : WasmOp.Covered m sig.locals sig.results c (.brTable targets default)) :
    Emits checks E n (lowerOp env ctx (.brTable targets default) c.height next) (Lowered sig maxHeight c' next) := by
  have small := maxFrameSlots_lt
  obtain ⟨stepped, tracks, -, below, -, -, -⟩ := ready
  obtain ⟨frame, found, rest⟩ := Option.bind_eq_some_iff.mp stepped
  obtain ⟨same, rest⟩ := Option.ite_none_right_eq_some.mp rest
  obtain ⟨mid, pop, eq⟩ := Option.bind_eq_some_iff.mp rest
  cases Option.some.inj eq
  have covered := covered frame found
  refine (u32Sub_emits (by omega) (by omega)).bind fun top _ grown₁ eq => ?_
  subst eq
  refine (src_emits rejects fits tracks.inFrame (by omega)).bind fun index _ grown₂ inFrame => ?_
  have tracks := (tracks.mono (grown₁.trans grown₂)).moved inFrame
  refine (materializeAll_emits rejects fits tracks.inFrame).bind fun ctx _ grown₃ inFrame => ?_
  have tracks := (tracks.mono grown₃).moved inFrame
  refine (emitBrTable_emits rejects fits index.1 tracks (by omega) fun depth member => ?_).bind ?_
  · obtain ⟨target, foundTarget, arity⟩ := target_arity found same member
    exact ⟨target, foundTarget, by omega⟩
  · intro ctx _ _ tracks
    rw [← (Checker.pop_eq pop).1] at tracks
    exact Settles.pure fun _ grown => .plain (tracks.mono grown).unreachable rfl

theorem returnOp_emits
    (ready : Ready m sig maxHeight n c c' ctx .return_ next)
    (covered : WasmOp.Covered m sig.locals sig.results c .return_) :
    Emits checks E n (lowerOp env ctx .return_ c.height next) (Lowered sig maxHeight c' next) := by
  obtain ⟨stepped, tracks, -, below, -, -, -⟩ := ready
  obtain ⟨mid, pop, rfl⟩ := Option.map_eq_some_iff.mp stepped
  refine (materializeAll_emits rejects fits tracks.inFrame).bind fun ctx _ grown inFrame => ?_
  have tracks := (tracks.mono grown).moved inFrame
  rw [← (Checker.pop_eq pop).1] at tracks
  exact (emitReturn_emits rejects fits tracks.inFrame covered below).seq fun _ _ grown₁ =>
    Settles.pure fun _ grown₂ => .plain (tracks.mono (grown₁.trans grown₂)).unreachable rfl

theorem callOp_emits {function : ℕ} (envFits : EnvFits m env)
    (ready : Ready m sig maxHeight n c c' ctx (.call function) next)
    (covered : WasmOp.Covered m sig.locals sig.results c (.call function)) :
    Emits checks E n (lowerOp env ctx (.call function) c.height next) (Lowered sig maxHeight c' next) := by
  have small := maxFrameSlots_lt
  obtain ⟨stepped, tracks, -, below, below', -, -⟩ := ready
  obtain ⟨ty, found, popped⟩ := Option.bind_eq_some_iff.mp stepped
  obtain ⟨frames, height⟩ := Checker.popPush_eq popped
  have covered := covered ty found
  refine (materializeAll_emits rejects fits tracks.inFrame).bind fun ctx _ grown inFrame => ?_
  have tracks := (tracks.mono grown).moved inFrame
  refine (emitCall_emits rejects env tracks.inFrame (by omega) fun callee eq => ?_).seq ?_
  · obtain ⟨ty', found', params, results⟩ := envFits.functions function callee eq
    cases found.symm.trans found'
    omega
  · exact fun _ _ grown₁ => Settles.pure fun _ grown₂ =>
      .plain (tracks.mono (grown₁.trans grown₂)) frames

theorem callIndirectOp_emits {typeIndex : ℕ} (envFits : EnvFits m env)
    (ready : Ready m sig maxHeight n c c' ctx (.callIndirect typeIndex) next)
    (covered : WasmOp.Covered m sig.locals sig.results c (.callIndirect typeIndex)) :
    Emits checks E n (lowerOp env ctx (.callIndirect typeIndex) c.height next) (Lowered sig maxHeight c' next) := by
  have small := maxFrameSlots_lt
  obtain ⟨stepped, tracks, -, below, below', -, -⟩ := ready
  obtain ⟨ty, found, popped⟩ := Option.bind_eq_some_iff.mp stepped
  obtain ⟨frames, height⟩ := Checker.popPush_eq popped
  obtain ⟨index, covered⟩ := covered ty found
  refine (materializeAll_emits rejects fits tracks.inFrame).bind fun ctx _ grown inFrame => ?_
  have tracks := (tracks.mono grown).moved inFrame
  refine (u32Sub_emits index (by omega)).bind fun top _ grown₁ eq => ?_
  subst eq
  refine (tracks.inFrame.stack_emits fits (by omega)).seq fun target _ grown₂ => ?_
  refine (emitCall_emits rejects env tracks.inFrame (by omega) fun callee eq => ?_).seq ?_
  · obtain ⟨ty', found', params, results⟩ := envFits.types typeIndex callee eq
    cases found.symm.trans found'
    omega
  · exact fun _ _ grown₃ => Settles.pure fun _ grown₄ =>
      .plain (tracks.mono (by omega)) frames

omit rejects in
theorem dropOp_emits
    (ready : Ready m sig maxHeight n c c' ctx .drop next)
    (covered : WasmOp.Covered m sig.locals sig.results c .drop) :
    Emits checks E n (lowerOp env ctx .drop c.height next) (Lowered sig maxHeight c' next) := by
  have small := maxFrameSlots_lt
  obtain ⟨stepped, tracks, -, below, -, -, -⟩ := ready
  refine (u32Sub_emits covered (by omega)).bind fun top _ grown₁ _ => Settles.pure ?_
  intro _ grown₂
  exact .plain ((tracks.mono (grown₁.trans grown₂)).moved (tracks.inFrame.taken top))
    (Checker.pop_eq stepped).1

theorem selectOp_emits
    (ready : Ready m sig maxHeight n c c' ctx .select next)
    (covered : WasmOp.Covered m sig.locals sig.results c .select) :
    Emits checks E n (lowerOp env ctx .select c.height next) (Lowered sig maxHeight c' next) := by
  obtain ⟨stepped, tracks, -, below, -, -, -⟩ := ready
  refine (emitSelect_emits rejects fits tracks.inFrame covered below).bind ?_
  exact fun ctx _ grown₁ inFrame => Settles.pure fun _ grown₂ =>
    .plain ((tracks.mono (grown₁.trans grown₂)).moved inFrame) (Checker.popPush_eq stepped).1

omit rejects fits in
theorem localGetOp_emits {i : ℕ}
    (ready : Ready m sig maxHeight n c c' ctx (.localGet i) next) :
    Emits checks E n (lowerOp env ctx (.localGet i) c.height next) (Lowered sig maxHeight c' next) := by
  obtain ⟨stepped, tracks, -, -, below', -, -⟩ := ready
  obtain ⟨local_, pushed⟩ := Option.ite_none_right_eq_some.mp stepped
  cases Option.some.inj pushed
  refine Settles.pure fun _ grown => .plain ((tracks.mono grown).moved ?_) rfl
  refine tracks.inFrame.set below' fun j eq => ?_
  cases eq
  exact local_

theorem localSetOp_emits {i : ℕ}
    (ready : Ready m sig maxHeight n c c' ctx (.localSet i) next)
    (covered : WasmOp.Covered m sig.locals sig.results c (.localSet i)) :
    Emits checks E n (lowerOp env ctx (.localSet i) c.height next) (Lowered sig maxHeight c' next) := by
  obtain ⟨stepped, tracks, -, below, -, -, -⟩ := ready
  obtain ⟨local_, popped⟩ := Option.ite_none_right_eq_some.mp stepped
  refine (emitLocalSet_emits rejects fits tracks.inFrame covered below local_).bind ?_
  exact fun ctx _ grown₁ inFrame => Settles.pure fun _ grown₂ =>
    .plain ((tracks.mono (grown₁.trans grown₂)).moved inFrame) (Checker.pop_eq popped).1

theorem localTeeOp_emits {i : ℕ}
    (ready : Ready m sig maxHeight n c c' ctx (.localTee i) next)
    (covered : WasmOp.Covered m sig.locals sig.results c (.localTee i)) :
    Emits checks E n (lowerOp env ctx (.localTee i) c.height next) (Lowered sig maxHeight c' next) := by
  have small := maxFrameSlots_lt
  obtain ⟨stepped, tracks, -, below, -, -, -⟩ := ready
  obtain ⟨local_, popped⟩ := Option.ite_none_right_eq_some.mp stepped
  have covered : 1 ≤ c.height := covered
  refine (emitLocalSet_emits rejects fits tracks.inFrame covered below local_).bind ?_
  intro ctx _ grown₁ inFrame
  refine (u32Sub_emits covered (by omega)).bind fun top _ grown₂ eq => Settles.pure ?_
  subst eq
  intro _ grown₃
  refine .plain ((tracks.mono (by omega)).moved ?_) (Checker.popPush_eq popped).1
  refine inFrame.set (by omega) fun j eq => ?_
  cases eq
  exact local_

theorem globalGetOp_emits {g : ℕ}
    (ready : Ready m sig maxHeight n c c' ctx (.globalGet g) next) :
    Emits checks E n (lowerOp env ctx (.globalGet g) c.height next) (Lowered sig maxHeight c' next) := by
  have small := maxFrameSlots_lt
  obtain ⟨stepped, tracks, -, below, below', -, names⟩ := ready
  obtain ⟨-, pushed⟩ := Option.ite_none_right_eq_some.mp stepped
  cases Option.some.inj pushed
  refine (dest_emits rejects fits tracks.inFrame below' names).bind fun rd _ grown₁ dest => ?_
  refine (emit_emits rejects _).bind fun _ _ grown₂ _ => Settles.pure fun _ grown₃ => ?_
  exact ⟨(tracks.mono (by omega)).moved dest.1, fun absorbed => ⟨Nat.le_add_left .., dest.2 absorbed⟩⟩

theorem globalSetOp_emits {g : ℕ}
    (ready : Ready m sig maxHeight n c c' ctx (.globalSet g) next)
    (covered : WasmOp.Covered m sig.locals sig.results c (.globalSet g)) :
    Emits checks E n (lowerOp env ctx (.globalSet g) c.height next) (Lowered sig maxHeight c' next) := by
  have small := maxFrameSlots_lt
  obtain ⟨stepped, tracks, -, below, -, -, -⟩ := ready
  obtain ⟨-, popped⟩ := Option.ite_none_right_eq_some.mp stepped
  have covered : 1 ≤ c.height := covered
  refine (u32Sub_emits covered (by omega)).bind fun top _ grown₁ eq => ?_
  subst eq
  refine (src_emits rejects fits tracks.inFrame (by omega)).bind fun value _ grown₂ inFrame => ?_
  refine (emit_emits rejects _).bind fun _ _ grown₃ _ => Settles.pure fun _ grown₄ => ?_
  exact .plain ((tracks.mono (by omega)).moved inFrame) (Checker.pop_eq popped).1

theorem loadOp_emits {ty : ValType} {width : MemWidth} {signed : Bool} {offset : ℕ}
    (ready : Ready m sig maxHeight n c c' ctx (.load ty width signed offset) next)
    (covered : WasmOp.Covered m sig.locals sig.results c (.load ty width signed offset)) :
    Emits checks E n (lowerOp env ctx (.load ty width signed offset) c.height next) (Lowered sig maxHeight c' next) := by
  obtain ⟨stepped, tracks, -, below, -, -, names⟩ := ready
  exact oneOperand_emits rejects fits (fun rd rs => emitLoad rd rs offset width signed ty.width)
    (fun rd rs k => emitLoad_emits rejects _ _ _ _ _ _) tracks covered below names stepped

theorem storeOp_emits {ty : ValType} {width : MemWidth} {offset : ℕ}
    (ready : Ready m sig maxHeight n c c' ctx (.store ty width offset) next)
    (covered : WasmOp.Covered m sig.locals sig.results c (.store ty width offset)) :
    Emits checks E n (lowerOp env ctx (.store ty width offset) c.height next) (Lowered sig maxHeight c' next) := by
  have small := maxFrameSlots_lt
  obtain ⟨stepped, tracks, -, below, -, -, -⟩ := ready
  have covered : 2 ≤ c.height := covered
  refine (u32Sub_emits covered (by omega)).bind fun second _ grown₁ eq => ?_
  subst eq
  refine (src_emits rejects fits tracks.inFrame (by omega)).bind fun base _ grown₂ inFrame => ?_
  refine (u32Sub_emits (by omega) (by omega)).bind fun top _ grown₃ eq => ?_
  subst eq
  refine (src_emits rejects fits inFrame (by omega)).bind fun value _ grown₄ inFrame => ?_
  refine (emitStore_emits rejects _ _ _ _ _).seq fun _ _ grown₅ => Settles.pure fun _ grown₆ => ?_
  exact .plain ((tracks.mono (by omega)).moved inFrame) (Checker.pop_eq stepped).1

theorem memorySizeOp_emits
    (ready : Ready m sig maxHeight n c c' ctx .memorySize next) :
    Emits checks E n (lowerOp env ctx .memorySize c.height next) (Lowered sig maxHeight c' next) := by
  have small := maxFrameSlots_lt
  obtain ⟨stepped, tracks, -, below, below', -, names⟩ := ready
  cases Option.some.inj stepped
  refine (dest_emits rejects fits tracks.inFrame below' names).bind fun rd _ grown₁ dest => ?_
  refine (emitAll_emits rejects _).seq fun _ _ grown₂ => Settles.pure fun _ grown₃ => ?_
  exact ⟨(tracks.mono (by omega)).moved dest.1, fun absorbed => ⟨Nat.le_add_left .., dest.2 absorbed⟩⟩

theorem memoryGrowOp_emits
    (ready : Ready m sig maxHeight n c c' ctx .memoryGrow next)
    (covered : WasmOp.Covered m sig.locals sig.results c .memoryGrow) :
    Emits checks E n (lowerOp env ctx .memoryGrow c.height next) (Lowered sig maxHeight c' next) := by
  obtain ⟨stepped, tracks, -, below, -, -, names⟩ := ready
  exact oneOperand_emits rejects fits (emitMemoryGrow env)
    (fun rd rs k => emitMemoryGrow_emits rejects env rd rs) tracks covered below names stepped

omit rejects fits in
theorem constOp_emits {ty : ValType} {value : U64}
    (ready : Ready m sig maxHeight n c c' ctx (.const_ ty value) next) :
    Emits checks E n (lowerOp env ctx (.const_ ty value) c.height next) (Lowered sig maxHeight c' next) := by
  obtain ⟨stepped, tracks, -, -, below', -, -⟩ := ready
  cases Option.some.inj stepped
  exact Settles.pure fun _ grown =>
    .plain ((tracks.mono grown).moved (tracks.inFrame.set below' (by simp))) rfl

theorem unaryOp_emits {width : Width} {op : UnaryOp}
    (ready : Ready m sig maxHeight n c c' ctx (.unary width op) next)
    (covered : WasmOp.Covered m sig.locals sig.results c (.unary width op)) :
    Emits checks E n (lowerOp env ctx (.unary width op) c.height next) (Lowered sig maxHeight c' next) := by
  obtain ⟨stepped, tracks, -, below, -, -, names⟩ := ready
  exact oneOperand_emits rejects fits (emitUnary width op)
    (fun rd rs k => emitAll_emits rejects _) tracks covered below names stepped

theorem binaryOp_emits {width : Width} {op : BinaryOp}
    (ready : Ready m sig maxHeight n c c' ctx (.binary width op) next)
    (covered : WasmOp.Covered m sig.locals sig.results c (.binary width op)) :
    Emits checks E n (lowerOp env ctx (.binary width op) c.height next) (Lowered sig maxHeight c' next) := by
  have small := maxFrameSlots_lt
  obtain ⟨stepped, tracks, -, below, -, -, names⟩ := ready
  obtain ⟨frames, height⟩ := Checker.popPush_eq stepped
  have covered : 2 ≤ c.height := covered
  refine (u32Sub_emits covered (by omega)).bind fun second _ grown₁ eq => ?_
  subst eq
  refine (src_emits rejects fits tracks.inFrame (by omega)).bind fun lhs _ grown₂ inFrame => ?_
  refine (u32Sub_emits (by omega) (by omega)).bind fun top _ grown₃ eq => ?_
  subst eq
  have rest {k : ℕ} (grown : n ≤ k) (operand : Operand) {ctx' : FunctionCtx}
      (inFrame : InFrame sig ctx.labels maxHeight ctx') : Emits checks E k (do
        let (rd, absorbed, ctx) ← dest ctx' (c.height - 2) next
        emitBinary width op rd lhs.1 operand
        return (absorbed, ctx)) (Lowered sig maxHeight c' next) := by
    refine (dest_emits rejects fits inFrame (by omega) names).bind fun rd _ grown₄ dest => ?_
    refine (emitAll_emits rejects _).seq fun _ _ grown₅ => Settles.pure fun _ grown₆ => ?_
    refine ⟨?_, fun absorbed => ⟨by omega, dest.2 absorbed⟩⟩
    rw [frames]
    exact (tracks.mono (by omega)).moved dest.1
  refine Settles.ite (fun _ => ?_) fun _ => ?_
  · exact (srcOperand_emits fits inFrame (by omega)).bind fun operand _ grown₄ inFrame =>
      rest (by omega) operand.1 inFrame
  · refine (src_emits rejects fits inFrame (by omega)).bind fun r _ grown₄ inFrame => ?_
    exact rest (by omega) (.reg r.1) inFrame

theorem convertOp_emits {op : ConvertOp}
    (ready : Ready m sig maxHeight n c c' ctx (.convert op) next)
    (covered : WasmOp.Covered m sig.locals sig.results c (.convert op)) :
    Emits checks E n (lowerOp env ctx (.convert op) c.height next) (Lowered sig maxHeight c' next) := by
  obtain ⟨stepped, tracks, -, below, -, -, names⟩ := ready
  exact oneOperand_emits rejects fits (fun rd rs => emit (convertRow op rd rs))
    (fun rd rs k => (emit_emits rejects _).mono (fun _ _ _ _ => trivial) fun _ => id) tracks
    covered below names stepped

/-- A covered operator lowers in range. -/
theorem lowerOp_emits (envFits : EnvFits m env) {op : WasmOp}
    (ready : Ready m sig maxHeight n c c' ctx op next)
    (covered : op.Covered m sig.locals sig.results c) :
    Emits checks E n (lowerOp env ctx op c.height next) (Lowered sig maxHeight c' next) := by
  cases op with
  | unreachable => exact unreachableOp_emits rejects ready
  | nop => exact nopOp_emits ready
  | block _ => exact blockOp_emits rejects fits ready covered
  | loop _ => exact loopOp_emits rejects fits ready covered
  | if_ _ => exact ifOp_emits rejects fits ready covered
  | else_ => exact elseOp_emits rejects fits ready
  | end_ => exact endOp_emits rejects fits ready covered
  | br _ => exact brOp_emits rejects fits ready covered
  | brIf _ => exact brIfOp_emits rejects fits ready covered
  | brTable _ _ => exact brTableOp_emits rejects fits ready covered
  | return_ => exact returnOp_emits rejects fits ready covered
  | call _ => exact callOp_emits rejects fits envFits ready covered
  | callIndirect _ => exact callIndirectOp_emits rejects fits envFits ready covered
  | drop => exact dropOp_emits fits ready covered
  | select => exact selectOp_emits rejects fits ready covered
  | localGet _ => exact localGetOp_emits ready
  | localSet _ => exact localSetOp_emits rejects fits ready covered
  | localTee _ => exact localTeeOp_emits rejects fits ready covered
  | globalGet _ => exact globalGetOp_emits rejects fits ready
  | globalSet _ => exact globalSetOp_emits rejects fits ready covered
  | load _ _ _ _ => exact loadOp_emits rejects fits ready covered
  | store _ _ _ => exact storeOp_emits rejects fits ready covered
  | memorySize => exact memorySizeOp_emits rejects fits ready
  | memoryGrow => exact memoryGrowOp_emits rejects fits ready covered
  | const_ _ _ => exact constOp_emits ready
  | unary _ _ => exact unaryOp_emits rejects fits ready covered
  | binary _ _ => exact binaryOp_emits rejects fits ready covered
  | convert _ => exact convertOp_emits rejects fits ready covered

end

/-! ## Operators without their operands -/

section

variable {E : EmitFailure → Prop} (rejects : ∀ f, Rejects f → E f) (panics : E .panic) {n : ℕ}
  {sig : Signature} {maxHeight : ℕ} (fits : sig.locals + maxHeight ≤ maxFrameSlots)
  {m : WasmModule} {env : EmitterEnv} {c c' : Checker} {ctx : FunctionCtx} {next : Option WasmOp}

include rejects panics fits

/-- The target of a branch, when the operands the branch carries are missing. -/
theorem brOp_stops {depth : ℕ} (ready : Ready m sig maxHeight n c c' ctx (.br depth) next)
    (missing : ¬ WasmOp.Covered m sig.locals sig.results c (.br depth)) :
    Emits true E n (lowerOp env ctx (.br depth) c.height next) fun _ _ => False := by
  obtain ⟨-, tracks, -, -, -, -, -⟩ := ready
  simp only [WasmOp.Covered, not_forall, not_le] at missing
  obtain ⟨frame, found, under⟩ := missing
  refine (materializeAll_emits rejects fits tracks.inFrame).bind fun ctx _ grown inFrame => ?_
  have tracks := (tracks.mono grown).moved inFrame
  exact Settles.stop (branch_stops rejects panics tracks found under)

theorem brIfOp_stops {depth : ℕ} (ready : Ready m sig maxHeight n c c' ctx (.brIf depth) next)
    (missing : ¬ WasmOp.Covered m sig.locals sig.results c (.brIf depth)) :
    Emits true E n (lowerOp env ctx (.brIf depth) c.height next) fun _ _ => False := by
  have small := maxFrameSlots_lt
  obtain ⟨-, tracks, -, below, -, -, -⟩ := ready
  simp only [WasmOp.Covered, not_forall, not_le] at missing
  obtain ⟨frame, found, under⟩ := missing
  by_cases top : 1 ≤ c.height
  · refine (u32Sub_emits top (by omega)).bind fun top _ grown₁ eq => ?_
    subst eq
    refine (src_emits rejects fits tracks.inFrame (by omega)).bind fun cond _ grown₂ inFrame => ?_
    have tracks := (tracks.mono (grown₁.trans grown₂)).moved inFrame
    refine (materializeAll_emits rejects fits tracks.inFrame).bind fun ctx _ grown₃ inFrame => ?_
    have tracks := (tracks.mono grown₃).moved inFrame
    exact Settles.stop (emitBrIf_stops rejects panics cond.1 tracks found (by omega))
  · exact Settles.stop (u32Sub_stops panics (by omega))

theorem brTableOp_stops {targets : List ℕ} {default : ℕ}
    (ready : Ready m sig maxHeight n c c' ctx (.brTable targets default) next)
    (missing : ¬ WasmOp.Covered m sig.locals sig.results c (.brTable targets default)) :
    Emits true E n (lowerOp env ctx (.brTable targets default) c.height next)
      fun _ _ => False := by
  have small := maxFrameSlots_lt
  obtain ⟨stepped, tracks, -, below, -, -, -⟩ := ready
  simp only [WasmOp.Covered, not_forall, not_le] at missing
  obtain ⟨frame, found, under⟩ := missing
  obtain ⟨frame', found', rest⟩ := Option.bind_eq_some_iff.mp stepped
  obtain ⟨same, -⟩ := Option.ite_none_right_eq_some.mp rest
  cases found.symm.trans found'
  by_cases top : 1 ≤ c.height
  · refine (u32Sub_emits top (by omega)).bind fun top _ grown₁ eq => ?_
    subst eq
    refine (src_emits rejects fits tracks.inFrame (by omega)).bind fun index _ grown₂ inFrame => ?_
    have tracks := (tracks.mono (grown₁.trans grown₂)).moved inFrame
    refine (materializeAll_emits rejects fits tracks.inFrame).bind fun ctx _ grown₃ inFrame => ?_
    have tracks := (tracks.mono grown₃).moved inFrame
    refine Settles.stop (emitBrTable_stops rejects panics index.1 tracks fun depth member => ?_)
    obtain ⟨target, foundTarget, arity⟩ := target_arity found same member
    exact ⟨target, foundTarget, by omega⟩
  · exact Settles.stop (u32Sub_stops panics (by omega))

theorem callOp_stops {function : ℕ} (envFits : EnvFits m env)
    (ready : Ready m sig maxHeight n c c' ctx (.call function) next)
    (missing : ¬ WasmOp.Covered m sig.locals sig.results c (.call function)) :
    Emits true E n (lowerOp env ctx (.call function) c.height next) fun _ _ => False := by
  obtain ⟨-, tracks, -, below, -, -, -⟩ := ready
  simp only [WasmOp.Covered, not_forall, not_le] at missing
  obtain ⟨ty, found, under⟩ := missing
  refine (materializeAll_emits rejects fits tracks.inFrame).bind fun ctx _ grown inFrame => ?_
  have tracks := (tracks.mono grown).moved inFrame
  refine Settles.stop (emitCall_stops rejects panics env tracks.inFrame (by omega) ?_)
  intro callee eq
  obtain ⟨ty', found', params, -⟩ := envFits.functions function callee eq
  cases found.symm.trans found'
  omega

theorem callIndirectOp_stops {typeIndex : ℕ} (envFits : EnvFits m env)
    (ready : Ready m sig maxHeight n c c' ctx (.callIndirect typeIndex) next)
    (missing : ¬ WasmOp.Covered m sig.locals sig.results c (.callIndirect typeIndex)) :
    Emits true E n (lowerOp env ctx (.callIndirect typeIndex) c.height next)
      fun _ _ => False := by
  have small := maxFrameSlots_lt
  obtain ⟨-, tracks, -, below, -, -, -⟩ := ready
  simp only [WasmOp.Covered, not_forall] at missing
  obtain ⟨ty, found, under⟩ := missing
  refine (materializeAll_emits rejects fits tracks.inFrame).bind fun ctx _ grown inFrame => ?_
  have tracks := (tracks.mono grown).moved inFrame
  by_cases top : 1 ≤ c.height
  · refine (u32Sub_emits top (by omega)).bind fun top _ _ eq => ?_
    subst eq
    refine (tracks.inFrame.stack_emits fits (by omega)).seq fun target _ _ => ?_
    refine Settles.stop (emitCall_stops rejects panics env tracks.inFrame (by omega) ?_)
    intro callee eq
    obtain ⟨ty', found', params, -⟩ := envFits.types typeIndex callee eq
    cases found.symm.trans found'
    omega
  · exact Settles.stop (u32Sub_stops panics (by omega))

theorem ifOp_stops {block : BlockSig} (ready : Ready m sig maxHeight n c c' ctx (.if_ block) next)
    (missing : ¬ WasmOp.Covered m sig.locals sig.results c (.if_ block)) :
    Emits true E n (lowerOp env ctx (.if_ block) c.height next) fun _ _ => False := by
  have small := maxFrameSlots_lt
  obtain ⟨-, tracks, -, below, -, -, -⟩ := ready
  have under : c.height < 1 + block.params := Nat.not_le.mp missing
  by_cases top : 1 ≤ c.height
  · refine (u32Sub_emits top (by omega)).bind fun top _ grown₁ eq => ?_
    subst eq
    refine (src_emits rejects fits tracks.inFrame (by omega)).bind fun cond _ grown₂ inFrame => ?_
    have tracks := (tracks.mono (grown₁.trans grown₂)).moved inFrame
    refine (materializeAll_emits rejects fits tracks.inFrame).bind fun ctx _ grown₃ inFrame => ?_
    refine (emit_emits rejects _).bind fun skip _ _ _ => ?_
    exact Settles.stop (u32Sub_stops panics (by omega))
  · exact Settles.stop (u32Sub_stops panics (by omega))

/-- In a build that checks arithmetic, an operator that is not covered stops the lowering. -/
theorem lowerOp_stops (envFits : EnvFits m env) {op : WasmOp}
    (ready : Ready m sig maxHeight n c c' ctx op next)
    (missing : ¬ op.Covered m sig.locals sig.results c) :
    Emits true E n (lowerOp env ctx op c.height next) fun _ _ => False := by
  have materialized : Emits true E n (materializeAll ctx) _ :=
    materializeAll_emits rejects fits ready.tracks.inFrame
  cases op with
  | unreachable | nop | else_ | localGet | globalGet | memorySize | const_ =>
      exact absurd trivial missing
  | drop | globalSet | load | memoryGrow | unary | convert | store | binary =>
      exact Settles.stop (u32Sub_stops panics (Nat.not_le.mp missing))
  | localSet | localTee | select =>
      exact Settles.stop (Settles.stop (u32Sub_stops panics (Nat.not_le.mp missing)))
  | block sig =>
      exact materialized.bind fun ctx _ _ _ =>
        Settles.stop (u32Sub_stops panics (Nat.not_le.mp missing))
  | loop sig =>
      exact materialized.bind fun ctx _ _ _ => (pc_emits rejects).seq fun entry _ _ =>
        Settles.stop (u32Sub_stops panics (Nat.not_le.mp missing))
  | if_ block => exact ifOp_stops rejects panics fits ready missing
  | end_ =>
      obtain ⟨last, under⟩ := Classical.not_imp.mp missing
      have tracks := ready.tracks
      cases found : c.frames with
      | nil => exact absurd found ready.nonempty
      | cons frame rest =>
          rw [found] at tracks last
          cases last
          exact Settles.stop (emitEnd_stops rejects fits panics tracks (Nat.not_le.mp under))
  | br depth => exact brOp_stops rejects panics fits ready missing
  | brIf depth => exact brIfOp_stops rejects panics fits ready missing
  | brTable targets default => exact brTableOp_stops rejects panics fits ready missing
  | return_ =>
      refine materialized.bind fun ctx' _ grown inFrame => ?_
      have tracks := (ready.tracks.mono grown).moved inFrame
      exact Settles.stop (emitReturn_stops panics tracks.inFrame (Nat.not_le.mp missing))
  | call function => exact callOp_stops rejects panics fits envFits ready missing
  | callIndirect typeIndex => exact callIndirectOp_stops rejects panics fits envFits ready missing

end

end Emitter

end JoltWasm
