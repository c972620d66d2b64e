import JoltWasm.Frontend.Source

/-!
# Validation

What the validator guarantees of a decoded module, in counts of operands: the control frames, the
indices, and the heights that `decode` records.  In unreachable code the operands below the frame
are of any type, and popping them leaves the height at the frame's base.
-/

namespace JoltWasm

inductive FrameKind where
  | block
  | loop
  | if_
  | else_
  deriving DecidableEq

/-- A control frame of the validator. -/
structure ControlFrame where
  kind : FrameKind
  sig : BlockSig
  /-- Operand-stack height below the frame's parameters and results. -/
  height : ℕ
  unreachable : Bool
  deriving DecidableEq

/-- Values a branch to the frame carries. -/
def ControlFrame.arity (frame : ControlFrame) : ℕ :=
  match frame.kind with
  | .loop => frame.sig.params
  | .block | .if_ | .else_ => frame.sig.results

/-- The validator's state; the innermost frame comes first. -/
structure Checker where
  frames : List ControlFrame
  height : ℕ
  deriving DecidableEq

namespace Checker

/-- Pop `n` operands. -/
def pop (c : Checker) (n : ℕ) : Option Checker :=
  match c.frames with
  | [] => none
  | frame :: _ =>
      if frame.height + n ≤ c.height then some { c with height := c.height - n }
      else if frame.unreachable then some { c with height := frame.height }
      else none

def push (c : Checker) (n : ℕ) : Checker := { c with height := c.height + n }

def popPush (c : Checker) (pops pushes : ℕ) : Option Checker :=
  (c.pop pops).map fun c => c.push pushes

/-- The rest of the frame is unreachable. -/
def setUnreachable (c : Checker) : Checker :=
  match c.frames with
  | [] => c
  | frame :: frames => ⟨{ frame with unreachable := true } :: frames, frame.height⟩

/-- Enter a block whose parameters are popped. -/
def pushFrame (c : Checker) (kind : FrameKind) (sig : BlockSig) : Checker :=
  ⟨⟨kind, sig, c.height, false⟩ :: c.frames, c.height + sig.params⟩

/-- Leave the innermost block, with its results and nothing else on its stack. -/
def popFrame (c : Checker) : Option (ControlFrame × Checker) := do
  match c.frames with
  | [] => none
  | frame :: frames => do
      let popped ← c.pop frame.sig.results
      if popped.height = frame.height then some (frame, ⟨frames, frame.height⟩) else none

/-- One operator of a body with `locals` locals and `results` results. -/
def step (m : WasmModule) (locals results : ℕ) (c : Checker) : WasmOp → Option Checker
  | .unreachable => some c.setUnreachable
  | .nop => some c
  | .block sig => (c.pop sig.params).map fun c => c.pushFrame .block sig
  | .loop sig => (c.pop sig.params).map fun c => c.pushFrame .loop sig
  | .if_ sig => (c.pop (1 + sig.params)).map fun c => c.pushFrame .if_ sig
  | .else_ => do
      let (frame, c) ← c.popFrame
      if frame.kind = .if_ then some (c.pushFrame .else_ frame.sig) else none
  | .end_ => do
      let (frame, c) ← c.popFrame
      some (c.push frame.sig.results)
  | .br depth => do
      let frame ← c.frames[depth]?
      let c ← c.pop frame.arity
      some c.setUnreachable
  | .brIf depth => do
      let frame ← c.frames[depth]?
      c.popPush (1 + frame.arity) frame.arity
  | .brTable targets default => do
      let frame ← c.frames[default]?
      if targets.all fun depth => (c.frames[depth]?).map ControlFrame.arity = some frame.arity then do
        let c ← c.pop (1 + frame.arity)
        some c.setUnreachable
      else none
  | .return_ => (c.pop results).map setUnreachable
  | .call function => do
      let ty ← m.funcType function
      c.popPush ty.params.length ty.results.length
  | .callIndirect typeIndex => do
      let ty ← m.types[typeIndex]?
      c.popPush (1 + ty.params.length) ty.results.length
  | .drop => c.pop 1
  | .select => c.popPush 3 1
  | .localGet i => if i < locals then some (c.push 1) else none
  | .localSet i => if i < locals then c.pop 1 else none
  | .localTee i => if i < locals then c.popPush 1 1 else none
  | .globalGet g => if g < m.globals.length then some (c.push 1) else none
  | .globalSet g => if g < m.globals.length then c.pop 1 else none
  | .load .. => c.popPush 1 1
  | .store .. => c.pop 2
  | .memorySize => some (c.push 1)
  | .memoryGrow => c.popPush 1 1
  | .const_ .. => some (c.push 1)
  | .unary .. => c.popPush 1 1
  | .binary .. => c.popPush 2 1
  | .convert _ => c.popPush 1 1

/-- The operators of a body, with their recorded heights: the last state and the greatest height. -/
def run (m : WasmModule) (locals results : ℕ) : Checker → List SourceOp → Option (Checker × ℕ)
  | c, [] => some (c, 0)
  | c, source :: body =>
      if source.height = c.height ∧ c.frames ≠ [] then do
        let next ← c.step m locals results source.op
        let (last, maxHeight) ← run m locals results next body
        some (last, max next.height maxHeight)
      else none

/-- The state before a body. -/
def start (results : ℕ) : Checker := ⟨[⟨.block, ⟨0, results⟩, 0, false⟩], 0⟩

end Checker

/-- A function whose body the validator accepts, with the heights it computes. -/
def Function.isValid (m : WasmModule) (f : Function) : Bool :=
  match m.types[f.typeIndex]? with
  | none => false
  | some ty =>
      match (Checker.start ty.results.length).run m (ty.params.length + f.locals.length)
          ty.results.length f.body with
      | none => false
      | some (last, maxHeight) => last.frames.isEmpty && maxHeight == f.maxHeight

/-- A module that the validator accepts. -/
structure WasmModule.IsValid (m : WasmModule) : Prop where
  functions : ∀ f ∈ m.functions, f.isValid m = true
  exports : ∀ e ∈ m.exports, e.2 < m.functions.length
  start : ∀ function, m.start = some function →
    ∃ ty, m.funcType function = some ty ∧ ty.params = [] ∧ ty.results = []
  elements : ∀ segment ∈ m.elements, ∀ function, some function ∈ segment.functions →
    function < m.functions.length

end JoltWasm
