import JoltWasm.Frontend.Builds
import JoltWasm.Frontend.Safety

/-!
# Modules that lower safely

The lowering reaches the operators of a module one by one.  A build that checks arithmetic panics
exactly at the first operator reached that is not covered.
-/

namespace JoltWasm

open Lib Layout Emitter

namespace Emitter

/-! ## Bodies -/

/-- Zero the declared locals of a function. -/
def zeroLocals (ctx : FunctionCtx) : EmitM Unit :=
  (List.range (ctx.sig.locals - ctx.sig.params)).forM fun k => do
    let rd ← ctx.slot (ctx.sig.params + k)
    let _ ← emit (.mov rd Reg.zero)

/-- The context in which a body is lowered. -/
def bodyCtx (index : ℕ) (sig : Signature) : FunctionCtx :=
  ⟨index, sig, [⟨.block, 0, ⟨0, sig.results⟩, []⟩], []⟩

/-- Every operator that the lowering reaches from a state is covered, or a limit is reached while
it is lowered. -/
def Covering (m : WasmModule) (env : EmitterEnv) (sig : Signature) :
    Emitter → FunctionCtx → Bool → Checker → List SourceOp → Prop
  | _, _, _, _, [] => True
  | e, ctx, true, c, source :: body =>
      ∀ c', c.step m sig.locals sig.results source.op = some c' →
        Covering m env sig e ctx false c' body
  | e, ctx, false, c, source :: body =>
      let lowered := lowerOp env ctx source.op source.height (body.head?.map SourceOp.op) e
      (source.op.Covered m sig.locals sig.results c ∨ ∃ limit, lowered = .error (.error limit)) ∧
        ∀ c' absorbed ctx' e', c.step m sig.locals sig.results source.op = some c' →
          lowered = .ok ((absorbed, ctx'), e') → Covering m env sig e' ctx' absorbed c' body

/-- A body that the validator runs to its end, with heights up to `maxHeight`. -/
def Runs (m : WasmModule) (sig : Signature) (maxHeight : ℕ) (c : Checker) (body : List SourceOp) :
    Prop :=
  ∃ last greatest, c.run m sig.locals sig.results body = some (last, greatest) ∧
    last.frames = [] ∧ greatest ≤ maxHeight

section

variable {m : WasmModule} {env : EmitterEnv} {sig : Signature} {maxHeight n : ℕ} {c c' : Checker}
  {ctx : FunctionCtx} {source : SourceOp} {body : List SourceOp}

/-- The names of a body's first operator are those of locals. -/
theorem Runs.names (runs : Runs m sig maxHeight c body) :
    Names sig.locals (body.head?.map SourceOp.op) := by
  obtain ⟨last, greatest, ran, -, -⟩ := runs
  cases body with
  | nil => rintro i (found | found) <;> cases found
  | cons source body =>
      obtain ⟨-, rest⟩ := Option.ite_none_right_eq_some.mp ran
      obtain ⟨c', stepped, -⟩ := Option.bind_eq_some_iff.mp rest
      rintro i (found | found)
      all_goals
        rw [Option.some.inj found] at stepped
        exact (Option.ite_none_right_eq_some.mp stepped).1

/-- One operator of a run. -/
theorem Runs.cons (runs : Runs m sig maxHeight c (source :: body)) (below : c.height ≤ maxHeight)
    (tracks : Tracks sig maxHeight c.frames n ctx) :
    source.height = c.height ∧ ∃ c', Runs m sig maxHeight c' body ∧
      Ready m sig maxHeight n c c' ctx source.op (body.head?.map SourceOp.op) := by
  obtain ⟨last, greatest, ran, closed, bound⟩ := runs
  obtain ⟨⟨height, nonempty⟩, rest⟩ := Option.ite_none_right_eq_some.mp ran
  obtain ⟨c', stepped, rest⟩ := Option.bind_eq_some_iff.mp rest
  obtain ⟨⟨last', greatest'⟩, tail, eq⟩ := Option.bind_eq_some_iff.mp rest
  cases eq
  obtain ⟨below', bound'⟩ := max_le_iff.mp bound
  have runs' : Runs m sig maxHeight c' body := ⟨last, greatest', tail, closed, bound'⟩
  refine ⟨height, c', runs', stepped, tracks, nonempty, below, below', ?_, runs'.names⟩
  exact fun frame member => (Checker.run_frames tail closed member).trans bound'

/-- An operator absorbed by the one before it finds its operand. -/
theorem Ready.absorbed {op : WasmOp} {next : Option WasmOp}
    (ready : Ready m sig maxHeight n c c' ctx op next)
    (sets : ∃ i, op = .localSet i ∨ op = .localTee i) : Tracks sig maxHeight c'.frames n ctx := by
  have tracks := ready.tracks
  obtain ⟨i, rfl | rfl⟩ := sets
  · obtain ⟨-, popped⟩ := Option.ite_none_right_eq_some.mp ready.stepped
    rwa [(Checker.pop_eq popped).1]
  · obtain ⟨-, popped⟩ := Option.ite_none_right_eq_some.mp ready.stepped
    rwa [(Checker.popPush_eq popped).1]

/-- A checked build lowers an operator without a panic when it is covered, or a limit is reached. -/
theorem lowerOp_ne_panic (fits : sig.locals + maxHeight ≤ maxFrameSlots) (envFits : EnvFits m env)
    {op : WasmOp} {next : Option WasmOp} {e : Emitter} (patchable : Patchable true e)
    (ready : Ready m sig maxHeight e.code.length c c' ctx op next) :
    lowerOp env ctx op c.height next e ≠ .error .panic ↔
      op.Covered m sig.locals sig.results c ∨
        ∃ limit, lowerOp env ctx op c.height next e = .error (.error limit) := by
  constructor
  · intro safe
    by_contra! neither
    have stops := lowerOp_stops (E := fun _ => True) (fun _ _ => trivial) trivial fits envFits ready
      neither.1 e patchable le_rfl
    cases ran : lowerOp env ctx op c.height next e with
    | error failure =>
        cases failure with
        | error limit => exact neither.2 limit ran
        | panic => exact safe ran
    | ok result =>
        rw [ran] at stops
        exact stops.2.2
  · rintro (covered | ⟨limit, stopped⟩) panicked
    · have emits : Emits true Rejects e.code.length (lowerOp env ctx op c.height next) _ :=
        lowerOp_emits (fun _ => id) fits envFits ready covered
      obtain ⟨limit, eq, -⟩ := Settles.error emits patchable le_rfl panicked
      cases eq
    · cases stopped.symm.trans panicked

/-- What an operator leaves when a checked build lowers it. -/
theorem lowerOp_ok (fits : sig.locals + maxHeight ≤ maxFrameSlots) (envFits : EnvFits m env)
    {op : WasmOp} {next : Option WasmOp} (ready : Ready m sig maxHeight n c c' ctx op next)
    {E : EmitFailure → Prop} (rejects : ∀ f, Rejects f → E f) (panics : E .panic) :
    Emits true E n (lowerOp env ctx op c.height next) (Lowered sig maxHeight c' next) := by
  by_cases covered : op.Covered m sig.locals sig.results c
  · exact lowerOp_emits rejects fits envFits ready covered
  · exact (lowerOp_stops rejects panics fits envFits ready covered).mono
      (fun _ _ _ absurd => absurd.elim) fun _ => id

/-- A checked build lowers a body, reaches a limit or panics. -/
theorem lowerBody_emits (fits : sig.locals + maxHeight ≤ maxFrameSlots) (envFits : EnvFits m env)
    {E : EmitFailure → Prop} (rejects : ∀ f, Rejects f → E f) (panics : E .panic) {skip : Bool}
    (runs : Runs m sig maxHeight c body) (below : c.height ≤ maxHeight)
    (tracks : Tracks sig maxHeight c.frames n ctx)
    (skips : skip = true → ∃ i, body.head?.map SourceOp.op = some (.localSet i) ∨
      body.head?.map SourceOp.op = some (.localTee i)) :
    Emits true E n (lowerBody env ctx skip body) := by
  induction body generalizing n c ctx skip with
  | nil => exact Settles.pure fun _ _ => trivial
  | cons source body ih =>
      obtain ⟨height, c', runs', ready⟩ := runs.cons below tracks
      unfold lowerBody
      rw [height]
      refine Settles.ite (fun skipped => ?_) fun _ => ?_
      · have sets : ∃ i, source.op = .localSet i ∨ source.op = .localTee i := by
          simpa using skips skipped
        exact ih runs' ready.below' (ready.absorbed sets) nofun
      · refine (lowerOp_ok fits envFits ready rejects panics).bind fun result _ _ lowered => ?_
        exact ih runs' ready.below' lowered.1 fun absorbed => (lowered.2 absorbed).2

/-- A checked build panics in a body exactly at an operator that is not covered. -/
theorem lowerBody_ne_panic (fits : sig.locals + maxHeight ≤ maxFrameSlots) (envFits : EnvFits m env)
    {skip : Bool} {e : Emitter} (patchable : Patchable true e) (runs : Runs m sig maxHeight c body)
    (below : c.height ≤ maxHeight) (tracks : Tracks sig maxHeight c.frames e.code.length ctx)
    (skips : skip = true → ∃ i, body.head?.map SourceOp.op = some (.localSet i) ∨
      body.head?.map SourceOp.op = some (.localTee i)) :
    lowerBody env ctx skip body e ≠ .error .panic ↔ Covering m env sig e ctx skip c body := by
  induction body generalizing e c ctx skip with
  | nil => exact ⟨fun _ => trivial, nofun⟩
  | cons source body ih =>
      obtain ⟨height, c', runs', ready⟩ := runs.cons below tracks
      have only {d : Checker} (stepped : c.step m sig.locals sig.results source.op = some d) :
          d = c' := Option.some.inj (stepped.symm.trans ready.stepped)
      cases skip with
      | true =>
          have sets : ∃ i, source.op = .localSet i ∨ source.op = .localTee i := by
            simpa using skips rfl
          have rest : lowerBody env ctx false body e ≠ .error .panic ↔ _ :=
            ih patchable runs' ready.below' (ready.absorbed sets) nofun
          refine rest.trans ⟨fun covering d stepped => ?_, fun covering => ?_⟩
          · rwa [only stepped]
          · exact covering c' ready.stepped
      | false =>
          change (lowerOp env ctx source.op source.height (body.head?.map SourceOp.op) >>= fun r =>
            lowerBody env r.2 r.1 body) e ≠ _ ↔ _
          rw [bind_ne_error, height, lowerOp_ne_panic fits envFits patchable ready, Covering, height]
          have rest {result : Bool × FunctionCtx} {e' : Emitter} (lowered : lowerOp env ctx source.op
              c.height (body.head?.map SourceOp.op) e = .ok (result, e')) :
              lowerBody env result.2 result.1 body e' ≠ .error .panic ↔
                Covering m env sig e' result.2 result.1 c' body := by
            have emits := lowerOp_ok (E := fun _ => True) fits envFits ready (fun _ _ => trivial) trivial
            obtain ⟨patchable', -, tracks', absorbed⟩ := Settles.ok emits patchable le_rfl lowered
            exact ih patchable' runs' ready.below' tracks' fun skips => (absorbed skips).2
          refine and_congr_right fun _ => ⟨?_, ?_⟩
          · intro safe d absorbed ctx' e' stepped lowered
            rw [only stepped]
            exact (rest lowered).mp (safe _ _ lowered)
          · intro covering result e' lowered
            exact (rest lowered).mpr (covering c' _ _ _ ready.stepped lowered)

end

/-! ## Functions -/

/-- Every operator that the lowering of the functions reaches from a state is covered. -/
def FunctionsCovering (m : WasmModule) (env : EmitterEnv) : Emitter → ℕ → List Function → Prop
  | _, _, [] => True
  | e, index, function :: functions =>
      e.code.length < 2 ^ 32 →
        (∀ sig e', env.signatures[index]? = some sig →
          zeroLocals (bodyCtx index sig) e = .ok ((), e') →
            Covering m env sig e' (bodyCtx index sig) false (Checker.start sig.results)
              function.body) ∧
        ∀ e', lowerFunction env index function e = .ok ((), e') →
          FunctionsCovering m env e' (index + 1) functions

/-- A function whose frame has room, and whose body the validator runs to its end. -/
structure Prepared (m : WasmModule) (env : EmitterEnv) (index : ℕ) (function : Function)
    (sig : Signature) : Prop where
  found : env.signatures[index]? = some sig
  fits : sig.locals + function.maxHeight ≤ maxFrameSlots
  runs : Runs m sig function.maxHeight (Checker.start sig.results) function.body

section

variable {m : WasmModule} {env : EmitterEnv} {index : ℕ} {function : Function} {sig : Signature}

/-- A body starts in its outermost block. -/
theorem Prepared.tracks (prepared : Prepared m env index function sig) (n : ℕ) :
    Tracks sig function.maxHeight (Checker.start sig.results).frames n (bodyCtx index sig) := by
  obtain ⟨last, greatest, ran, closed, bound⟩ := prepared.runs
  have results := Checker.run_frames ran closed List.mem_cons_self
  refine ⟨⟨?_, rfl, rfl⟩, .cons ⟨rfl, rfl, ?_, nofun, nofun⟩ .nil, ?_⟩
  · intro depth value found
    simp [bodyCtx] at found
  · exact results.trans bound
  · rintro frame ⟨⟩
    rfl

variable {E : EmitFailure → Prop} (rejects : ∀ f, Rejects f → E f) {n : ℕ} {checks : Bool}

include rejects

theorem zeroLocals_emits (prepared : Prepared m env index function sig) :
    Emits checks E n (zeroLocals (bodyCtx index sig)) := by
  refine Settles.forM _ fun k member _ _ => ?_
  have inside : k < sig.locals - sig.params := List.mem_range.mp member
  have fits := prepared.fits
  exact (slot_emits _ (by change sig.params + k < _; omega)).seq fun rd _ _ =>
    (emit_emits rejects _).bind fun _ _ _ _ => Settles.pure fun _ _ => trivial

/-- What follows a body: its labels are closed, and its cold blocks placed. -/
theorem closeBody_emits (index : ℕ) (labels : List Label) : Emits checks E n (do
    if labels ≠ [] then fail (.malformedControl index)
    flushCold) := by
  refine Settles.ite (fun _ => ?_) fun _ => flushCold_emits rejects
  exact Settles.stop (fail_emits rejects (by simp))

variable (panics : E .panic)

include panics

theorem lowerFunction_emits (envFits : EnvFits m env)
    (prepared : Prepared m env index function sig) :
    Emits true E n (lowerFunction env index function) := by
  unfold lowerFunction
  rw [prepared.found]
  refine (zeroLocals_emits rejects prepared).seq fun _ _ _ => ?_
  refine Settles.seq ?_ fun ctx _ _ => closeBody_emits rejects index ctx.labels
  exact lowerBody_emits prepared.fits envFits rejects panics prepared.runs (Nat.zero_le _)
    (prepared.tracks _) nofun

/-- One record for each function. -/
theorem lowerFunctions_emits (envFits : EnvFits m env) {functions : List Function}
    (prepared : ∀ k function, functions[k]? = some function →
      ∃ sig, Prepared m env (index + k) function sig) :
    Emits true E n (lowerFunctions env index functions)
      fun lowered _ => lowered.length = functions.length := by
  induction functions generalizing index n with
  | nil => exact Settles.pure fun _ _ => rfl
  | cons function functions ih =>
      obtain ⟨sig, first⟩ := prepared 0 function rfl
      refine (pc_emits rejects).seq fun entry _ _ => ?_
      refine (lowerFunction_emits rejects panics envFits first).seq fun _ _ _ => ?_
      have found : env.signatures[index]? = some sig := first.found
      rw [found]
      refine (ih fun k function found => ?_).bind fun lowered _ _ count => Settles.pure ?_
      · rw [Nat.add_right_comm, Nat.add_assoc]
        exact prepared (k + 1) function found
      · intro _ _
        rw [List.length_cons, List.length_cons, count]

end

section

variable {m : WasmModule} {env : EmitterEnv} {index : ℕ} {e : Emitter}

theorem pc_bind {α : Type} {f : Pc → EmitM α} (small : e.code.length < 2 ^ 32) :
    (pc >>= f) e = f (BitVec.ofNat 32 e.code.length) e := by
  simp only [pc, bind, StateT.bind, get, getThe, MonadStateOf.get, StateT.get, pure, Except.pure,
    Except.bind, small, if_true]
  rfl

theorem pc_bind_error {α : Type} {f : Pc → EmitM α} (large : ¬ e.code.length < 2 ^ 32) :
    (pc >>= f) e = .error (.error (.programTooLarge 32)) := by
  simp only [pc, bind, StateT.bind, get, getThe, MonadStateOf.get, StateT.get, pure, Except.pure,
    Except.bind, large, if_false, fail]
  rfl

/-- A checked build panics in a function exactly at an operator that is not covered. -/
theorem lowerFunction_ne_panic {function : Function} {sig : Signature} (envFits : EnvFits m env)
    (patchable : Patchable true e) (prepared : Prepared m env index function sig) :
    lowerFunction env index function e ≠ .error .panic ↔
      ∀ e', zeroLocals (bodyCtx index sig) e = .ok ((), e') →
        Covering m env sig e' (bodyCtx index sig) false (Checker.start sig.results)
          function.body := by
  have zero : Emits true Rejects e.code.length (zeroLocals (bodyCtx index sig)) :=
    zeroLocals_emits (fun _ => id) prepared
  have lowered : lowerFunction env index function = (do
      zeroLocals (bodyCtx index sig)
      let ctx ← lowerBody env (bodyCtx index sig) false function.body
      if ctx.labels ≠ [] then fail (.malformedControl index)
      flushCold) := by
    unfold lowerFunction
    rw [prepared.found]
    rfl
  rw [lowered, bind_ne_error]
  have first : zeroLocals (bodyCtx index sig) e ≠ .error .panic := fun panicked => by
    obtain ⟨limit, eq, -⟩ := Settles.error zero patchable le_rfl panicked
    cases eq
  rw [and_iff_right first]
  have step {e' : Emitter} (zeroed : zeroLocals (bodyCtx index sig) e = .ok ((), e')) :
      (do
        let ctx ← lowerBody env (bodyCtx index sig) false function.body
        if ctx.labels ≠ [] then fail (.malformedControl index)
        flushCold : EmitM Unit) e' ≠ .error .panic ↔
      Covering m env sig e' (bodyCtx index sig) false (Checker.start sig.results)
        function.body := by
    obtain ⟨patchable', -, -⟩ := Settles.ok zero patchable le_rfl zeroed
    have safe : lowerBody env (bodyCtx index sig) false function.body e' ≠ .error .panic ↔ _ :=
      lowerBody_ne_panic prepared.fits envFits patchable' prepared.runs (Nat.zero_le _)
        (prepared.tracks _) nofun
    rw [bind_ne_error, safe]
    refine and_iff_left fun ctx e'' ran panicked => ?_
    have body : Emits true (fun _ => True) e'.code.length
        (lowerBody env (bodyCtx index sig) false function.body) :=
      lowerBody_emits prepared.fits envFits (fun _ _ => trivial) trivial prepared.runs
        (Nat.zero_le _) (prepared.tracks _) nofun
    obtain ⟨patchable'', -, -⟩ := Settles.ok body patchable' le_rfl ran
    have close : Emits true Rejects e''.code.length _ :=
      closeBody_emits (fun _ => id) index ctx.labels
    obtain ⟨limit, eq, -⟩ := Settles.error close patchable'' le_rfl panicked
    cases eq
  exact ⟨fun safe e' zeroed => (step zeroed).mp (safe () e' zeroed),
    fun covering _ e' zeroed => (step zeroed).mpr (covering e' zeroed)⟩

/-- A checked build panics in the functions exactly at an operator that is not covered. -/
theorem lowerFunctions_ne_panic {functions : List Function} (envFits : EnvFits m env)
    (patchable : Patchable true e) (prepared : ∀ k function, functions[k]? = some function →
      ∃ sig, Prepared m env (index + k) function sig) :
    lowerFunctions env index functions e ≠ .error .panic ↔
      FunctionsCovering m env e index functions := by
  induction functions generalizing index e with
  | nil => exact ⟨fun _ => trivial, nofun⟩
  | cons function functions ih =>
      obtain ⟨sig, first⟩ : ∃ sig, Prepared m env index function sig := prepared 0 function rfl
      have rest : ∀ k function, functions[k]? = some function →
          ∃ sig, Prepared m env (index + 1 + k) function sig := fun k function found => by
        rw [Nat.add_right_comm, Nat.add_assoc]
        exact prepared (k + 1) function found
      rcases Classical.em (e.code.length < 2 ^ 32) with small | large
      · have start : lowerFunctions env index (function :: functions) e =
            (lowerFunction env index function >>= fun _ => do
              let rest ← lowerFunctions env (index + 1) functions
              return ⟨BitVec.ofNat 32 e.code.length, sig.params, sig.results, sig.frameSlots⟩ ::
                rest) e := by
          rw [lowerFunctions, pc_bind small, first.found]
        rw [start, bind_ne_error, lowerFunction_ne_panic envFits patchable first, FunctionsCovering,
          forall_prop_of_true small]
        refine and_congr ⟨fun covering sig' e' found => ?_, fun covering e' => ?_⟩ ?_
        · cases first.found.symm.trans found
          exact covering e'
        · exact covering sig e' first.found
        · have each {e' : Emitter} (lowered : lowerFunction env index function e = .ok ((), e')) :
              (do
                let rest ← lowerFunctions env (index + 1) functions
                return ⟨BitVec.ofNat 32 e.code.length, sig.params, sig.results, sig.frameSlots⟩ ::
                  rest : EmitM (List IrFunction)) e' ≠ .error .panic ↔
              FunctionsCovering m env e' (index + 1) functions := by
            have emits : Emits true (fun _ => True) e.code.length _ :=
              lowerFunction_emits (fun _ _ => trivial) trivial envFits first
            obtain ⟨patchable', -, -⟩ := Settles.ok emits patchable le_rfl lowered
            rw [bind_ne_error, ih patchable' rest]
            exact and_iff_left fun _ _ _ => nofun
          exact ⟨fun safe e' lowered => (each lowered).mp (safe () e' lowered),
            fun covering _ e' lowered => (each lowered).mpr (covering e' lowered)⟩
      · refine ⟨fun _ inside => absurd inside large, fun _ panicked => ?_⟩
        rw [lowerFunctions, pc_bind_error large] at panicked
        cases panicked

end

/-! ## Entry stubs -/

/-- A function that is exported has room for its parameters and results. -/
def Exportable (env : EmitterEnv) (function : ℕ) : Prop :=
  ∃ sig, env.signatures[function]? = some sig ∧ sig.params ≤ maxFrameSlots ∧
    sig.results ≤ maxFrameSlots

/-- A function without parameters and results, such as the start function. -/
def Startable (env : EmitterEnv) (function : ℕ) : Prop :=
  ∀ sig, env.signatures[function]? = some sig → sig.params = 0 ∧ sig.results = 0

section

variable {m : WasmModule} {env : EmitterEnv} {E : EmitFailure → Prop}
  (rejects : ∀ f, Rejects f → E f) {n : ℕ} {checks : Bool}

include rejects

theorem emitOutputs_emits (ctx : FunctionCtx) {sig : Signature} (results : sig.results ≤ maxFrameSlots)
    (outputs : Outputs) : Emits checks E n (emitOutputs ctx sig outputs) := by
  cases outputs with
  | results =>
      refine Settles.forM _ fun k member _ _ => ?_
      have inside := List.mem_range.mp member
      exact (slot_emits ctx (by omega)).seq fun value _ _ => (emit_emits rejects _).bind
        fun _ _ _ _ => Settles.pure fun _ _ => trivial
  | memory words =>
      have room : 1 < maxFrameSlots := by decide
      refine (slot_emits ctx (by omega)).seq fun pointer _ _ => ?_
      refine (slot_emits ctx room).seq fun word _ _ => Settles.forM _ fun k _ _ _ => ?_
      exact (emitLoad_emits rejects _ _ _ _ _ _).seq fun _ _ _ => (emit_emits rejects _).bind
        fun _ _ _ _ => Settles.pure fun _ _ => trivial

theorem emitEntryStub_emits {function : ℕ} (exportable : Exportable env function)
    {start : Option ℕ} (startable : ∀ f, start = some f → Startable env f) (outputs : Outputs) :
    Emits checks E n (emitEntryStub env function start outputs) := by
  obtain ⟨sig, found, params, results⟩ := exportable
  unfold emitEntryStub
  rw [found]
  have inFrame (ctx : FunctionCtx) (locals : ctx.sig.locals = 0) (pending : ctx.pending = []) :
      InFrame ctx.sig ctx.labels 0 ctx :=
    ⟨fun depth value found => by simp [pending] at found, rfl, rfl⟩
  have rest (ctx : FunctionCtx) (locals : ctx.sig.locals = 0) (pending : ctx.pending = []) {k : ℕ} :
      Emits checks E k (do
        (List.range sig.params).forM fun i => do
          let rd ← ctx.slot i
          let _ ← emit (JoltWasm.load rd Reg.zero (Layout.inputAddress i : ℕ))
        emitCall env ctx sig.params (.direct function)
        emitOutputs ctx sig outputs
        emitAll [.const_ Reg.t0 1, JoltWasm.store Reg.zero Reg.t0 (Layout.terminationAddr : ℕ),
          .jump IrProgram.haltPc]
        flushCold) := by
    refine Settles.seq (Settles.forM _ fun i member _ _ => ?_) fun _ _ _ => ?_
    · have inside := List.mem_range.mp member
      exact (slot_emits ctx (by omega)).seq fun rd _ _ => (emit_emits rejects _).bind
        fun _ _ _ _ => Settles.pure fun _ _ => trivial
    refine (emitCall_emits rejects env (inFrame ctx locals pending) ?_ ?_).seq fun _ _ _ => ?_
    · omega
    · intro callee eq
      cases found.symm.trans eq
      omega
    exact (emitOutputs_emits rejects ctx results outputs).seq fun _ _ _ =>
      (emitAll_emits rejects _).seq fun _ _ _ => flushCold_emits rejects
  refine (emit_emits rejects _).bind fun _ _ _ _ => (emit_emits rejects _).bind fun _ _ _ _ => ?_
  refine Settles.seq (emitAll_emits rejects _) fun _ _ _ => ?_
  cases start with
  | none => exact rest _ rfl rfl
  | some start =>
      refine (emitCall_emits rejects env (inFrame _ rfl rfl) (Nat.zero_le _) ?_).seq
        fun _ _ _ => rest _ rfl rfl
      intro callee eq
      obtain ⟨params, results⟩ := startable start rfl callee eq
      rw [params, results]
      exact ⟨le_rfl, Nat.zero_le _⟩

theorem exportOutputs_emits (m : WasmModule) (name : String) (function : ℕ) :
    Emits checks E n (exportOutputs m name function) := by
  unfold exportOutputs
  cases m.memoryOutputs.lookup name with
  | none => exact Settles.pure fun _ _ => trivial
  | some words =>
      cases m.funcType function with
      | none => exact fail_emits rejects (by simp)
      | some ty =>
          refine Settles.ite (fun _ => Settles.stop (fail_emits rejects (by simp))) fun _ => ?_
          exact Settles.ite (fun _ => Settles.stop (fail_emits rejects (by simp)))
            fun _ => Settles.pure fun _ _ => trivial

theorem lowerExports_emits {exports : List (String × ℕ)}
    (exportable : ∀ e ∈ exports, Exportable env e.2)
    (startable : ∀ f, m.start = some f → Startable env f) :
    Emits checks E n (lowerExports m env exports) := by
  induction exports generalizing n with
  | nil => exact Settles.pure fun _ _ => trivial
  | cons head exports ih =>
      obtain ⟨name, function⟩ := head
      rw [List.forall_mem_cons] at exportable
      refine (pc_emits rejects).seq fun entry _ _ => ?_
      refine (exportOutputs_emits rejects m name function).seq fun outputs _ _ => ?_
      refine (emitEntryStub_emits rejects exportable.1 startable outputs).seq fun _ _ _ => ?_
      have rest {k : ℕ} (words : ℕ) : Emits checks E k (do
          let rest ← lowerExports m env exports
          return ((name, entry) :: rest.1, (name, words) :: rest.2)) :=
        (ih exportable.2).seq fun _ _ _ => Settles.pure fun _ _ => trivial
      cases outputs with
      | memory words => exact rest words
      | results =>
          obtain ⟨sig, found, -, -⟩ := exportable.1
          simp only at found
          rw [found]
          exact rest sig.results

theorem patchCalls_emits (functions : List IrFunction) {fixups : List (ℕ × ℕ)}
    (inside : ∀ fixup ∈ fixups, fixup.1 < n) : Emits checks E n (patchCalls functions fixups) := by
  induction fixups generalizing n with
  | nil => exact Settles.pure fun _ _ => trivial
  | cons fixup fixups ih =>
      obtain ⟨at_, callee⟩ := fixup
      rw [List.forall_mem_cons] at inside
      unfold patchCalls
      cases functions[callee]? with
      | none => exact Settles.stop (fail_emits rejects (by simp))
      | some f =>
          exact (patch_emits inside.1 f.entry).seq fun _ _ grown =>
            ih fun other member => (inside.2 other member).trans_le grown

end

end Emitter

/-! ## Signatures -/

/-- The slots of a function's frame: parameters, locals and operands. -/
def WasmModule.frameSlots (m : WasmModule) (function : ℕ) : Option ℕ := do
  let f ← m.functions[function]?
  let ty ← m.types[f.typeIndex]?
  return ty.params.length + f.locals.length + f.maxHeight

/-- A lowering error for a frame that exceeds the registers. -/
def Oversized (m : WasmModule) (f : EmitFailure) : Prop :=
  ∃ function slots maxSlots real, f = .error (.frameTooLarge function slots maxSlots) ∧
    m.frameSlots function = some real ∧ maxFrameSlots < real

section

variable {m : WasmModule} {typeIds : List ℕ} {index : ℕ}

/-- The signature of a function counts its type's parameters and results, and its frame has room. -/
structure SignatureOf (m : WasmModule) (index : ℕ) (f : Function) (sig : Signature) : Prop where
  counts : ∃ ty, m.funcType index = some ty ∧ Counts sig ty
  locals : sig.locals = sig.params + f.locals.length
  fits : sig.locals + f.maxHeight ≤ maxFrameSlots

theorem functionSignature_ok {f : Function} {sig : Signature}
    (ok : functionSignature m typeIds index f = .ok sig) : SignatureOf m index f sig := by
  unfold functionSignature at ok
  cases found : m.funcType index with
  | none =>
      rw [found] at ok
      cases ok
  | some ty =>
      cases foundId : typeIds[f.typeIndex]? with
      | none =>
          rw [found, foundId] at ok
          cases ok
      | some id =>
          rw [found, foundId] at ok
          simp only at ok
          split at ok
          · cases ok
          · rename_i fits
            split at ok
            · cases ok
            · cases ok
              exact ⟨⟨ty, found, rfl, rfl⟩, rfl, Nat.not_lt.mp fits⟩

theorem functionSignature_error {f : Function} {e : EmitFailure}
    (failed : functionSignature m typeIds index f = .error e) (here : m.functions[index]? = some f) :
    Rejects e ∨ Oversized m e := by
  unfold functionSignature at failed
  cases found : m.funcType index with
  | none =>
      rw [found] at failed
      cases failed
      exact .inl ⟨_, rfl, by simp⟩
  | some ty =>
      cases foundId : typeIds[f.typeIndex]? with
      | none =>
          rw [found, foundId] at failed
          cases failed
          exact .inl ⟨_, rfl, by simp⟩
      | some id =>
          rw [found, foundId] at failed
          simp only at failed
          split at failed
          · rename_i large
            cases failed
            refine .inr ⟨_, _, _, _, rfl, ?_, large⟩
            have type : m.types[f.typeIndex]? = some ty := by
              simpa [WasmModule.funcType, here] using found
            simp [WasmModule.frameSlots, here, type]
          · split at failed
            · cases failed
              exact .inl ⟨_, rfl, by simp⟩
            · cases failed

/-- One signature for each function. -/
theorem functionSignatures_ok {functions : List Function} {sigs : List Signature}
    (ok : functionSignatures m typeIds index functions = .ok sigs) :
    sigs.length = functions.length ∧ ∀ k f, functions[k]? = some f →
      ∃ sig, sigs[k]? = some sig ∧ SignatureOf m (index + k) f sig := by
  induction functions generalizing index sigs with
  | nil =>
      cases ok
      exact ⟨rfl, nofun⟩
  | cons f functions ih =>
      obtain ⟨sig, first, rest⟩ := except_bind_eq_ok.mp ok
      obtain ⟨sigs', tail, eq⟩ := except_bind_eq_ok.mp rest
      cases eq
      obtain ⟨count, each⟩ := ih tail
      refine ⟨congrArg (· + 1) count, fun k g found => ?_⟩
      cases k with
      | zero =>
          cases found
          exact ⟨sig, rfl, functionSignature_ok first⟩
      | succ k =>
          rw [← Nat.add_assoc, Nat.add_right_comm]
          exact each k g found

theorem functionSignatures_error {functions : List Function} {e : EmitFailure}
    (failed : functionSignatures m typeIds index functions = .error e)
    (here : ∀ k f, functions[k]? = some f → m.functions[index + k]? = some f) :
    Rejects e ∨ Oversized m e := by
  induction functions generalizing index with
  | nil => cases failed
  | cons f functions ih =>
      unfold functionSignatures at failed
      cases first : functionSignature m typeIds index f with
      | error e' =>
          rw [first] at failed
          cases failed
          exact functionSignature_error first (here 0 f rfl)
      | ok sig =>
          rw [first] at failed
          cases tail : functionSignatures m typeIds (index + 1) functions with
          | error e' =>
              change Except.bind (functionSignatures m typeIds (index + 1) functions) _ = _ at failed
              rw [tail] at failed
              cases failed
              refine ih tail fun k g found => ?_
              rw [Nat.add_right_comm, Nat.add_assoc]
              exact here (k + 1) g found
          | ok sigs =>
              change Except.bind (functionSignatures m typeIds (index + 1) functions) _ = _ at failed
              rw [tail] at failed
              cases failed

theorem readModule_error {e : EmitFailure} (failed : readModule m = .error e) :
    Rejects e ∨ Oversized m e := by
  unfold readModule at failed
  cases memory : lowerMemory m with
  | error e' =>
      rw [memory] at failed
      cases failed
      unfold lowerMemory at memory
      split at memory
      · simp only at memory
        split at memory <;> cases memory
        exact .inl ⟨_, rfl, by simp⟩
      · cases memory
  | ok limits =>
      rw [memory] at failed
      simp only [bind, Except.bind] at failed
      split at failed
      · cases failed
        exact .inl ⟨_, rfl, by simp⟩
      · cases found : functionSignatures m (canonicalTypeIds [] m.types) 0 m.functions with
        | error e' =>
            rw [found] at failed
            cases failed
            refine functionSignatures_error found fun k f here => ?_
            rwa [Nat.zero_add]
        | ok sigs =>
            rw [found] at failed
            cases failed

theorem readModule_ok {read : MemoryLimits × List Signature} (ok : readModule m = .ok read) :
    read.2.length = m.functions.length ∧ ∀ k f, m.functions[k]? = some f →
      ∃ sig, read.2[k]? = some sig ∧ SignatureOf m k f sig := by
  obtain ⟨memory, -, ok⟩ := except_bind_eq_ok.mp ok
  simp only at ok
  split at ok
  · cases ok
  · obtain ⟨sigs, found, eq⟩ := except_bind_eq_ok.mp ok
    cases eq
    simpa only [Nat.zero_add] using functionSignatures_ok found

/-- The emitter's environment fits the module. -/
theorem moduleEnv_fits {read : MemoryLimits × List Signature} (ok : readModule m = .ok read) :
    EnvFits m (moduleEnv m read) := by
  obtain ⟨count, each⟩ := readModule_ok ok
  constructor
  · intro function found here
    obtain ⟨inside, -⟩ := List.getElem?_eq_some_iff.mp here
    change function < read.2.length at inside
    obtain ⟨sig, found', signature⟩ := each function _
      (List.getElem?_eq_getElem (count ▸ inside))
    cases found'.symm.trans here
    exact signature.counts
  · intro typeIndex found here
    simp only [moduleEnv, typeSignatures, List.getElem?_map, Option.map_eq_some_iff] at here
    obtain ⟨⟨ty, id⟩, zipped, rfl⟩ := here
    obtain ⟨type, -⟩ := List.getElem?_zip_eq_some.mp zipped
    exact ⟨ty, type, rfl, rfl⟩

/-- A valid function is prepared for its lowering. -/
theorem SignatureOf.prepared {f : Function} {sig : Signature} {env : EmitterEnv}
    (signature : SignatureOf m index f sig) (here : m.functions[index]? = some f)
    (found : env.signatures[index]? = some sig) (valid : f.isValid m = true) :
    Prepared m env index f sig := by
  obtain ⟨ty, type, params, results⟩ := signature.counts
  refine ⟨found, signature.fits, ?_⟩
  have foundType : m.types[f.typeIndex]? = some ty := by
    simpa [WasmModule.funcType, here] using type
  unfold Function.isValid at valid
  rw [foundType] at valid
  simp only at valid
  split at valid
  · cases valid
  · rename_i last greatest ran
    simp only [Bool.and_eq_true, List.isEmpty_iff, beq_iff_eq] at valid
    refine ⟨last, greatest, ?_, valid.1, valid.2.le⟩
    rwa [signature.locals, params, results]

end

/-! ## The module -/

theorem elementSlot_error {functions : List IrFunction} {signatures : List Signature}
    (count : functions.length = signatures.length) {element : Option ℕ} {e : EmitFailure}
    (failed : elementSlot functions signatures element = .error e) : Rejects e := by
  cases element with
  | none => cases failed
  | some function =>
      unfold elementSlot at failed
      simp only at failed
      cases found : functions[function]? with
      | none =>
          rw [found] at failed
          cases failed
          exact ⟨_, rfl, by simp⟩
      | some f =>
          obtain ⟨inside, -⟩ := List.getElem?_eq_some_iff.mp found
          rw [found, List.getElem?_eq_getElem (count ▸ inside)] at failed
          cases failed

theorem writeElements_error {functions : List IrFunction} {signatures : List Signature}
    (count : functions.length = signatures.length) {needed at_ : ℕ} {elements : List (Option ℕ)}
    {table : List (Option TableSlot)} {e : EmitFailure}
    (failed : writeElements functions signatures needed at_ elements table = .error e) :
    Rejects e := by
  induction elements generalizing at_ table with
  | nil => cases failed
  | cons element elements ih =>
      unfold writeElements at failed
      split at failed
      · cases failed
        exact ⟨_, rfl, by simp⟩
      · cases found : elementSlot functions signatures element with
        | error e' =>
            rw [found] at failed
            cases failed
            exact elementSlot_error count found
        | ok slot =>
            rw [found] at failed
            exact ih failed

theorem writeSegments_error {functions : List IrFunction} {signatures : List Signature}
    (count : functions.length = signatures.length) {segments : List ElementSegment}
    {table : List (Option TableSlot)} {e : EmitFailure}
    (failed : writeSegments functions signatures segments table = .error e) : Rejects e := by
  induction segments generalizing table with
  | nil => cases failed
  | cons segment segments ih =>
      unfold writeSegments at failed
      cases first : writeElements functions signatures (segment.offset + segment.functions.length)
        segment.offset segment.functions table with
      | error e' =>
          rw [first] at failed
          cases failed
          exact writeElements_error count first
      | ok next =>
          rw [first] at failed
          exact ih failed

theorem finishModule_error {m : WasmModule} {read : MemoryLimits × List Signature}
    {emitted : (List IrFunction × List (String × Pc) × List (String × ℕ)) × Emitter}
    (count : emitted.1.1.length = read.2.length) {e : EmitFailure}
    (failed : finishModule m read emitted = .error e) : Rejects e := by
  unfold finishModule at failed
  cases found : writeSegments emitted.1.1 read.2 m.elements
      (List.replicate ((m.table.map TableDecl.initial).getD 0) none) with
  | error e' =>
      rw [found] at failed
      cases failed
      exact writeSegments_error count found
  | ok table =>
      rw [found] at failed
      cases failed

/-- Every operator that the lowering of a module reaches is covered, or a limit is reached while it
is lowered. -/
def WasmModule.Covering (m : WasmModule) : Prop :=
  ∀ read, readModule m = .ok read →
    FunctionsCovering m (moduleEnv m read) { overflowChecks := true } 0 m.functions

/-- In either build the lowering returns a program or an error, and an error for a frame only when
the frame exceeds the registers. -/
def WasmModule.LowersSafely (m : WasmModule) : Prop :=
  ∀ checks, lower m checks ≠ .error .panic ∧
    ∀ function slots maxSlots, lower m checks = .error (.error (.frameTooLarge function slots maxSlots)) →
      ∃ real, m.frameSlots function = some real ∧ maxFrameSlots < real

section

variable {m : WasmModule} {read : MemoryLimits × List Signature}

/-- The functions of a valid module are prepared for their lowering. -/
theorem WasmModule.IsValid.prepared (valid : m.IsValid) (ok : readModule m = .ok read) (k : ℕ)
    (f : Function) (here : m.functions[k]? = some f) :
    ∃ sig, Prepared m (moduleEnv m read) (0 + k) f sig := by
  obtain ⟨sig, found, signature⟩ := (readModule_ok ok).2 k f here
  rw [Nat.zero_add]
  exact ⟨sig, signature.prepared here found (valid.functions f (List.mem_of_getElem? here))⟩

theorem WasmModule.IsValid.exportable (valid : m.IsValid) (ok : readModule m = .ok read)
    {e : String × ℕ} (member : e ∈ m.exports) : Exportable (moduleEnv m read) e.2 := by
  have here := List.getElem?_eq_getElem (valid.exports e member)
  obtain ⟨sig, found, signature⟩ := (readModule_ok ok).2 e.2 _ here
  obtain ⟨sig', prepared⟩ := valid.prepared ok e.2 _ here
  have locals := signature.locals
  have fits := signature.fits
  refine ⟨sig, found, by omega, ?_⟩
  have room := ((prepared.tracks 0).innermost rfl).room
  have same := prepared.found
  rw [Nat.zero_add] at same
  cases same.symm.trans found
  have results : sig.results ≤ _ := (Nat.le_add_left _ _).trans room
  omega

theorem WasmModule.IsValid.startable (valid : m.IsValid) (ok : readModule m = .ok read) {f : ℕ}
    (start : m.start = some f) : Startable (moduleEnv m read) f := by
  intro sig found
  obtain ⟨ty, type, params, results⟩ := valid.start f start
  obtain ⟨ty', type', counts⟩ := (moduleEnv_fits ok).functions f sig found
  cases type.symm.trans type'
  rw [counts.1, counts.2, params, results]
  exact ⟨rfl, rfl⟩

/-- What follows the functions: the entry stubs, and the calls to patch. -/
theorem stubs_emits (valid : m.IsValid) (ok : readModule m = .ok read) {E : EmitFailure → Prop}
    (rejects : ∀ f, Rejects f → E f) {n : ℕ} (functions : List IrFunction) :
    Emits true E n (do
      let (entries, outputWords) ← lowerExports m (moduleEnv m read) m.exports
      let e ← get
      patchCalls functions e.callFixups
      return (functions, entries, outputWords)) fun emitted _ => emitted.1 = functions := by
  refine (lowerExports_emits rejects (fun _ member => valid.exportable ok member)
    fun f start => valid.startable ok start).seq fun exported _ _ => ?_
  refine Settles.get.bind fun e _ _ state => ?_
  obtain ⟨patchable, rfl⟩ := state
  exact (patchCalls_emits rejects functions patchable.calls).seq fun _ _ _ =>
    Settles.pure fun _ _ => rfl

/-- A checked build emits the rows of a valid module, reaches a limit or panics. -/
theorem emitModule_emits (valid : m.IsValid) (ok : readModule m = .ok read) {E : EmitFailure → Prop}
    (rejects : ∀ f, Rejects f → E f) (panics : E .panic) {n : ℕ} :
    Emits true E n (emitModule m (moduleEnv m read)) fun emitted _ =>
      emitted.1.length = read.2.length := by
  have functions := lowerFunctions_emits (n := n) rejects panics (moduleEnv_fits ok)
    (valid.prepared ok)
  refine functions.bind fun functions _ _ count => ?_
  refine (stubs_emits valid ok rejects functions).mono (fun emitted _ _ same => ?_) fun _ => id
  rw [same, count, (readModule_ok ok).1]

/-- A checked build panics exactly at an operator that is not covered. -/
theorem lower_ne_panic (valid : m.IsValid) : lower m true ≠ .error .panic ↔ m.Covering := by
  rw [lower_eq]
  unfold WasmModule.Covering
  cases found : readModule m with
  | error e =>
      refine ⟨fun _ _ => nofun, ?_⟩
      rintro - ⟨⟩
      rcases readModule_error found with ⟨_, eq, -⟩ | ⟨_, _, _, _, eq, -⟩ <;> cases eq
  | ok read =>
      have start : Patchable true { overflowChecks := true } := ⟨rfl, nofun, nofun⟩
      have functions := lowerFunctions_ne_panic (moduleEnv_fits found) start (valid.prepared found)
      have emits : Emits true (fun _ => True) 1 (emitModule m (moduleEnv m read)) _ :=
        emitModule_emits valid found (fun _ _ => trivial) trivial
      have module : emitModule m (moduleEnv m read) { overflowChecks := true } ≠ .error .panic ↔
          FunctionsCovering m (moduleEnv m read) { overflowChecks := true } 0 m.functions := by
        rw [← functions, emitModule, bind_ne_error]
        refine and_iff_left fun lowered e ran panicked => ?_
        have lowers : Emits true (fun _ => True) 1 (lowerFunctions (moduleEnv m read) 0 m.functions) _ :=
          lowerFunctions_emits (fun _ _ => trivial) trivial (moduleEnv_fits found)
            (valid.prepared found)
        obtain ⟨patchable, -, -⟩ := Settles.ok lowers start le_rfl ran
        have stubs := stubs_emits (E := Rejects) (n := e.code.length) valid found (fun _ => id) lowered
        obtain ⟨limit, eq, -⟩ := Settles.error stubs patchable le_rfl panicked
        cases eq
      constructor
      · rintro safe _ ⟨⟩
        refine module.mp fun panicked => safe ?_
        change emitModule m (moduleEnv m read) { overflowChecks := true } >>= _ = _
        rw [panicked]
        rfl
      · intro covering failed
        have safe := module.mpr (covering read rfl)
        change emitModule m (moduleEnv m read) { overflowChecks := true } >>= _ = _ at failed
        cases emitted : emitModule m (moduleEnv m read) { overflowChecks := true } with
        | error e =>
            rw [emitted] at failed safe
            cases failed
            exact safe rfl
        | ok p =>
            obtain ⟨-, -, count⟩ := Settles.ok emits start le_rfl emitted
            rw [emitted] at failed
            obtain ⟨limit, eq, -⟩ := finishModule_error count failed
            cases eq

/-- A checked build of a valid module fails with a panic, a limit, or a frame that is too large. -/
theorem lower_error (valid : m.IsValid) {e : EmitFailure} (failed : lower m true = .error e) :
    e = .panic ∨ Rejects e ∨ Oversized m e := by
  rw [lower_eq] at failed
  cases found : readModule m with
  | error e' =>
      rw [found] at failed
      cases failed
      exact .inr (readModule_error found)
  | ok read =>
      rw [found] at failed
      have start : Patchable true { overflowChecks := true } := ⟨rfl, nofun, nofun⟩
      have emits := emitModule_emits (E := fun e => e = .panic ∨ Rejects e) (n := 1) valid found
        (fun _ => Or.inr) (Or.inl rfl)
      change emitModule m (moduleEnv m read) { overflowChecks := true } >>= _ = _ at failed
      cases emitted : emitModule m (moduleEnv m read) { overflowChecks := true } with
      | error e' =>
          rw [emitted] at failed
          cases failed
          exact (Settles.error emits start le_rfl emitted).imp_right .inl
      | ok p =>
          obtain ⟨-, -, count⟩ := Settles.ok emits start le_rfl emitted
          rw [emitted] at failed
          exact .inr (.inl (finishModule_error count failed))

end

/-- A function with a result and the body `unreachable`. -/
def deadEnd : WasmModule where
  types := [⟨[], [.i32]⟩]
  functions := [⟨0, [], [⟨.unreachable, 0⟩, ⟨.end_, 0⟩], 1⟩]

theorem deadEnd_valid : deadEnd.IsValid where
  functions := by decide
  exports := by decide
  start := nofun
  elements := nofun

/-- A function that returns a constant. -/
def liveEnd : WasmModule where
  types := [⟨[], [.i32]⟩]
  functions := [⟨0, [], [⟨.const_ .i32 7, 0⟩, ⟨.end_, 1⟩], 1⟩]

end JoltWasm
