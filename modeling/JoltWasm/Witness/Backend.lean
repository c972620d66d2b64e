import JoltWasm.Lib.Keeps
import JoltWasm.Program.Public
import JoltWasm.Program.TraceRow
import JoltWasm.Program.Transcript

/-!
# The witness backend

A proof's witness derives from the rows of a trace, padded with halt rows to the cycle domain.  Each cycle is seen
with the row after it.  A pass walks a range of cycles in buffers and hands each of them to a set of consumers; what
the consumers see does not depend on the size of the buffers, and random access to single cycles sees the same.
-/

namespace JoltWasm

open Lib

inductive WitnessError where
  | unknownOracle (label : String)
  | notServed (oracle reason : String)
  | unavailableView (label : String)
  | invalidDimensions (label reason : String)
  | invalidWitnessData (label reason : String)
  deriving DecidableEq

def joltVmLabel : String := "jolt_vm"

structure JoltVmWitnessConfig where
  logT : ℕ
  ramK : ℕ
  oneHot : FiatShamir.JoltOneHotConfig
  deriving DecidableEq

structure JoltVmWitnessInputs where
  preprocessing : WasmProgramPreprocessing
  rows : List WasmTraceRow
  io : PublicIo

structure TraceBackend where
  config : JoltVmWitnessConfig
  preprocessing : WasmProgramPreprocessing
  rows : List WasmTraceRow
  io : PublicIo

def checkedPow2 (log : ℕ) : Except WitnessError ℕ :=
  if log < 64 then .ok (2 ^ log) else .error (.invalidDimensions joltVmLabel s!"2^{log} overflows usize")

/-- The error of more rows than cycles. -/
def rowsExceed (rows cycles : ℕ) : WitnessError :=
  .invalidWitnessData joltVmLabel s!"physical trace has {rows} rows but the cycle domain has {cycles}"

/-- How a value of a cycle derives from its row and the row after it. -/
abbrev Extraction (β : Type) : Type := WasmTraceRow → Option WasmTraceRow → Except WitnessError β

/-! ## Random access -/

structure RandomAccessRows where
  rows : List WasmTraceRow
  cycles : ℕ
  padding : WasmTraceRow

namespace RandomAccessRows

def new (rows : List WasmTraceRow) (cycles : ℕ) : Except WitnessError RandomAccessRows :=
  if cycles < rows.length then .error (rowsExceed rows.length cycles) else .ok ⟨rows, cycles, .noOp⟩

/-- A bundle, with padding and one row of lookahead. -/
def window {β : Type} (access : RandomAccessRows) (fromRow : Extraction β) (index : ℕ) : Except WitnessError β :=
  fromRow (access.rows.getD index access.padding)
    (if index + 1 < access.cycles then some (access.rows.getD (index + 1) access.padding) else none)

end RandomAccessRows

/-! ## Consumers -/

/-- The callback of a walk: the state, a buffer, and the row after it. -/
abbrev ChunkVisitor (σ : Type) : Type := σ → List WasmTraceRow → Option WasmTraceRow → Except WitnessError σ

/-- One consumer of a stream of bundles. -/
structure StreamConsumer (β σ : Type) where
  fromRow : Extraction β
  consume : σ → List β → σ
  isActive : σ → Bool

namespace StreamConsumer

variable {β σ : Type}

/-- Whether a slot of a set has a consumer is known only at run time. -/
def optional (consumer : StreamConsumer β σ) : StreamConsumer β (Option σ) where
  fromRow := consumer.fromRow
  consume slot chunk := slot.map fun state => consumer.consume state chunk
  isActive slot := slot.any consumer.isActive

/-- The consumer that collects its bundles. -/
def collectBundles (fromRow : Extraction β) : StreamConsumer β (List β) where
  fromRow := fromRow
  consume rows chunk := rows ++ chunk
  isActive _ := true

/-- The bundles of a buffer. -/
def extract (fromRow : Extraction β) (rows : List WasmTraceRow) (nextAfter : Option WasmTraceRow) :
    Except WitnessError (List β) :=
  rows.zipIdx.mapM fun entry => fromRow entry.1 (rows[entry.2 + 1]?.or nextAfter)

/-- An inactive consumer is passed over before its bundles are extracted. -/
def deliver (consumer : StreamConsumer β σ) : ChunkVisitor σ := fun state rows nextAfter =>
  if consumer.isActive state then do
    let bundles ← extract consumer.fromRow rows nextAfter
    return consumer.consume state bundles
  else return state

end StreamConsumer

/-- A set of consumers, each given the buffer in turn. -/
def ChunkVisitor.and {σ τ : Type} (first : ChunkVisitor σ) (second : ChunkVisitor τ) : ChunkVisitor (σ × τ) :=
  fun states rows nextAfter => do
    let state ← first states.1 rows nextAfter
    let state' ← second states.2 rows nextAfter
    return (state, state')

/-! ## The walks -/

namespace TraceBackend

/-- A backend over the rows without the padding at their end. -/
def tryNew (config : JoltVmWitnessConfig) (inputs : JoltVmWitnessInputs) : Except WitnessError TraceBackend := do
  let cycles ← checkedPow2 config.logT
  let rows := inputs.rows.rdropWhile (· = .noOp)
  if cycles < rows.length then .error (rowsExceed rows.length cycles)
  return ⟨config, inputs.preprocessing, rows, inputs.io⟩

variable (backend : TraceBackend)

/-- The row of a cycle, the padding past the trace. -/
def rowAt (index : ℕ) : WasmTraceRow := backend.rows.getD index .noOp

def randomAccessRows : Except WitnessError RandomAccessRows := do
  let cycles ← checkedPow2 backend.config.logT
  RandomAccessRows.new backend.rows cycles

/-- One pass over the cycle domain. -/
def walkCycles {β : Type} (extraction : Extraction β) : Except WitnessError (List β) := do
  let access ← backend.randomAccessRows
  (List.range access.cycles).mapM fun index =>
    extraction (backend.rowAt index) (if index + 1 < access.cycles then some (backend.rowAt (index + 1)) else none)

/-- The buffers of a walk; its size is positive, as the walk would not end otherwise. -/
def visitFrom {σ : Type} (cycles stop : ℕ) {chunkSize : ℕ} (positive : 0 < chunkSize) (visitor : ChunkVisitor σ) (start : ℕ)
    (state : σ) : Except WitnessError σ :=
  if start < stop then do
    let last := min (start + chunkSize) stop
    let buffer := (List.range' start (last - start)).map backend.rowAt
    let nextAfter := if last < cycles then some (backend.rowAt last) else none
    let state ← visitor state buffer nextAfter
    visitFrom cycles stop positive visitor last state
  else return state
termination_by stop - start

def visitChunks {σ : Type} (start stop : ℕ) {chunkSize : ℕ} (positive : 0 < chunkSize) (visitor : ChunkVisitor σ) (state : σ) :
    Except WitnessError σ := do
  let cycles ← checkedPow2 backend.config.logT
  if cycles < stop ∨ stop < start then
    .error (.invalidDimensions joltVmLabel s!"cycle range {start}..{stop} exceeds the {cycles}-cycle domain")
  backend.visitFrom cycles stop positive visitor start state

/-- The fused pass over a range of cycles. -/
def streamWitnesses {σ : Type} (start stop chunkSize : ℕ) (consumers : ChunkVisitor σ) (state : σ) : Except WitnessError σ :=
  if positive : 0 < chunkSize then backend.visitChunks start stop positive consumers state
  else .error (.invalidDimensions joltVmLabel "pass chunk size must be nonzero")

def bundlePassChunk : ℕ := 2 ^ 12

/-- All bundles of a kind, by random access where the source has it. -/
def collectBundles {β : Type} (fromRow : Extraction β) (cycles : ℕ) : Except WitnessError (List β) :=
  let streamed := backend.streamWitnesses 0 cycles bundlePassChunk (StreamConsumer.collectBundles fromRow).deliver []
  match backend.randomAccessRows with
  | .ok access =>
      if cycles ≤ access.cycles then (List.range cycles).mapM (access.window fromRow) else streamed
  | .error _ => streamed

end TraceBackend

/-! ## Buffers of any size -/

namespace StreamConsumer

variable {β σ : Type}

theorem extract_cons (fromRow : Extraction β) (row : WasmTraceRow) (rows : List WasmTraceRow) (nextAfter : Option WasmTraceRow) :
    extract fromRow (row :: rows) nextAfter = do
      let bundle ← fromRow row (rows.head?.or nextAfter)
      let bundles ← extract fromRow rows nextAfter
      return bundle :: bundles := by
  rw [extract, List.zipIdx_cons', List.mapM_cons, List.mapM_map]
  rw [List.head?_eq_getElem?]
  rfl

/-- The bundles of two buffers, one after the other. -/
theorem extract_append {fromRow : Extraction β} {first second : List WasmTraceRow} (some_ : second ≠ [])
    {nextAfter : Option WasmTraceRow} {bundles : List β} :
    extract fromRow (first ++ second) nextAfter = .ok bundles ↔
      ∃ before after, extract fromRow first second.head? = .ok before ∧ extract fromRow second nextAfter = .ok after ∧
        bundles = before ++ after := by
  induction first generalizing bundles with
  | nil => exact ⟨fun extracted => ⟨[], bundles, rfl, extracted, rfl⟩, fun ⟨_, _, empty, extracted, same⟩ => by
      cases empty
      rwa [same]⟩
  | cons row first ih =>
      have head : ((first ++ second).head?).or nextAfter = first.head?.or second.head? := by
        obtain ⟨next, second, rfl⟩ := List.exists_cons_of_ne_nil some_
        cases first <;> rfl
      rw [List.cons_append, extract_cons, extract_cons, head]
      constructor
      · intro extracted
        obtain ⟨bundle, here, extracted⟩ := except_bind_eq_ok.mp extracted
        obtain ⟨rest, later, extracted⟩ := except_bind_eq_ok.mp extracted
        cases extracted
        obtain ⟨before, after, front, back, rfl⟩ := ih.mp later
        exact ⟨bundle :: before, after, except_bind_eq_ok.mpr ⟨_, here, except_bind_eq_ok.mpr ⟨_, front, rfl⟩⟩, back, rfl⟩
      · rintro ⟨before, after, front, back, rfl⟩
        obtain ⟨bundle, here, front⟩ := except_bind_eq_ok.mp front
        obtain ⟨rest, later, front⟩ := except_bind_eq_ok.mp front
        cases front
        exact except_bind_eq_ok.mpr ⟨_, here, except_bind_eq_ok.mpr ⟨_, ih.mpr ⟨_, _, later, back, rfl⟩, rfl⟩⟩

/-- A consumer that takes two chunks as it takes them joined, and whose presence its chunks do not change. -/
structure Lawful (consumer : StreamConsumer β σ) : Prop where
  consume : ∀ state before after, consumer.consume (consumer.consume state before) after = consumer.consume state (before ++ after)
  isActive : ∀ state chunk, consumer.isActive (consumer.consume state chunk) = consumer.isActive state

theorem collectBundles_lawful (fromRow : Extraction β) : (collectBundles fromRow).Lawful :=
  ⟨fun _ _ _ => List.append_assoc _ _ _, fun _ _ => rfl⟩

theorem Lawful.optional {consumer : StreamConsumer β σ} (lawful : consumer.Lawful) : consumer.optional.Lawful := by
  constructor
  · intro slot before after
    cases slot with
    | none => rfl
    | some state => exact congrArg some (lawful.consume state before after)
  · intro slot chunk
    cases slot with
    | none => rfl
    | some state => exact lawful.isActive state chunk

end StreamConsumer

namespace ChunkVisitor

/-- The sets of lawful consumers. -/
inductive ConsumerSet : {σ : Type} → ChunkVisitor σ → Prop where
  | one {β σ : Type} {consumer : StreamConsumer β σ} (lawful : consumer.Lawful) : ConsumerSet consumer.deliver
  | and {σ τ : Type} {first : ChunkVisitor σ} {second : ChunkVisitor τ} (left : ConsumerSet first) (right : ConsumerSet second) :
      ConsumerSet (first.and second)

variable {σ : Type} {visitor : ChunkVisitor σ}

/-- A set takes a buffer exactly when it takes its parts one after the other, and ends in the same state. -/
theorem ConsumerSet.append (set : ConsumerSet visitor) {state result : σ} {first second : List WasmTraceRow}
    (some_ : second ≠ []) {nextAfter : Option WasmTraceRow} :
    visitor state (first ++ second) nextAfter = .ok result ↔
      ∃ between, visitor state first second.head? = .ok between ∧ visitor between second nextAfter = .ok result := by
  induction set with
  | @one β σ consumer lawful =>
      have stays (chunk : List β) := lawful.isActive state chunk
      simp only [StreamConsumer.deliver]
      cases active : consumer.isActive state with
      | false =>
          simp only [Bool.false_eq_true, if_false]
          constructor
          · rintro ⟨⟩
            exact ⟨state, rfl, by rw [active]; rfl⟩
          · rintro ⟨between, ⟨⟩, later⟩
            rwa [active, if_neg Bool.false_ne_true] at later
      | true =>
          simp only [if_true]
          constructor
          · intro delivered
            obtain ⟨bundles, extracted, delivered⟩ := except_bind_eq_ok.mp delivered
            cases delivered
            obtain ⟨before, after, front, back, rfl⟩ := (StreamConsumer.extract_append some_).mp extracted
            refine ⟨consumer.consume state before, except_bind_eq_ok.mpr ⟨before, front, rfl⟩, ?_⟩
            rw [stays, active, if_pos rfl]
            exact except_bind_eq_ok.mpr ⟨after, back, congrArg Except.ok (lawful.consume state before after)⟩
          · rintro ⟨between, early, late⟩
            obtain ⟨before, front, early⟩ := except_bind_eq_ok.mp early
            cases early
            rw [stays, active, if_pos rfl] at late
            obtain ⟨after, back, late⟩ := except_bind_eq_ok.mp late
            cases late
            exact except_bind_eq_ok.mpr ⟨before ++ after, (StreamConsumer.extract_append some_).mpr ⟨before, after, front, back, rfl⟩,
              congrArg Except.ok (lawful.consume state before after).symm⟩
  | and left right first_ second_ =>
      obtain ⟨state, state'⟩ := state
      constructor
      · intro delivered
        obtain ⟨result, one, delivered⟩ := except_bind_eq_ok.mp delivered
        obtain ⟨result', other, delivered⟩ := except_bind_eq_ok.mp delivered
        cases delivered
        obtain ⟨between, early, late⟩ := first_.mp one
        obtain ⟨between', early', late'⟩ := second_.mp other
        exact ⟨(between, between'), except_bind_eq_ok.mpr ⟨_, early, except_bind_eq_ok.mpr ⟨_, early', rfl⟩⟩,
          except_bind_eq_ok.mpr ⟨_, late, except_bind_eq_ok.mpr ⟨_, late', rfl⟩⟩⟩
      · rintro ⟨between, early, late⟩
        obtain ⟨one, first', early⟩ := except_bind_eq_ok.mp early
        obtain ⟨other, second', early⟩ := except_bind_eq_ok.mp early
        cases early
        obtain ⟨result, first'', late⟩ := except_bind_eq_ok.mp late
        obtain ⟨result', second'', late⟩ := except_bind_eq_ok.mp late
        cases late
        exact except_bind_eq_ok.mpr ⟨_, first_.mpr ⟨_, first', first''⟩,
          except_bind_eq_ok.mpr ⟨_, second_.mpr ⟨_, second', second''⟩, rfl⟩⟩

end ChunkVisitor

namespace TraceBackend

variable (backend : TraceBackend)

/-- The rows of a range. -/
def rowsFrom (start stop : ℕ) : List WasmTraceRow := (List.range' start (stop - start)).map backend.rowAt

/-- The row after a range of the cycle domain. -/
def rowAfter (stop : ℕ) : Option WasmTraceRow := if stop < 2 ^ backend.config.logT then some (backend.rowAt stop) else none

variable {backend} {σ : Type} {visitor : ChunkVisitor σ}

theorem rowsFrom_ne_nil {start stop : ℕ} (less : start < stop) : backend.rowsFrom start stop ≠ [] := by
  rw [rowsFrom, Ne, List.map_eq_nil_iff, List.range'_eq_nil_iff]
  omega

theorem rowsFrom_append {start mid stop : ℕ} (low : start ≤ mid) (high : mid ≤ stop) :
    backend.rowsFrom start stop = backend.rowsFrom start mid ++ backend.rowsFrom mid stop := by
  have split := List.range'_append_1 (s := start) (m := mid - start) (n := stop - mid)
  rw [show start + (mid - start) = mid by omega, show mid - start + (stop - mid) = stop - start by omega] at split
  rw [rowsFrom, rowsFrom, rowsFrom, ← List.map_append, split]

theorem rowsFrom_head {start stop : ℕ} (less : start < stop) : (backend.rowsFrom start stop).head? = some (backend.rowAt start) := by
  obtain ⟨more, length⟩ := Nat.exists_eq_succ_of_ne_zero (Nat.sub_pos_of_lt less).ne'
  rw [rowsFrom, length, List.range'_succ]
  rfl

/-- The buffers of a walk, one after the other, are the range in one buffer. -/
theorem visitFrom_eq_ok (set : visitor.ConsumerSet) {chunkSize : ℕ} (positive : 0 < chunkSize) {start stop : ℕ} (less : start < stop)
    (within : stop ≤ 2 ^ backend.config.logT) {state result : σ} :
    backend.visitFrom (2 ^ backend.config.logT) stop positive visitor start state = .ok result ↔
      visitor state (backend.rowsFrom start stop) (backend.rowAfter stop) = .ok result := by
  generalize length : stop - start = n
  induction n using Nat.strong_induction_on generalizing start state with
  | _ n ih =>
      rw [visitFrom, if_pos less]
      simp only
      rcases Nat.lt_or_ge (start + chunkSize) stop with more | last
      · rw [Nat.min_eq_left more.le, rowsFrom_append (Nat.le_add_right start chunkSize) more.le,
          set.append (rowsFrom_ne_nil more), rowsFrom_head more, if_pos (more.trans_le within), except_bind_eq_ok]
        exact exists_congr fun between => and_congr_right fun _ => ih _ (by omega) more rfl
      · rw [Nat.min_eq_right last]
        have done (state : σ) : backend.visitFrom (2 ^ backend.config.logT) stop positive visitor stop state = .ok state := by
          rw [visitFrom, if_neg (lt_irrefl stop)]
          rfl
        simp only [done]
        rw [except_bind_eq_ok]
        exact ⟨fun visited => by obtain ⟨between, here, ⟨⟩⟩ := visited; exact here, fun here => ⟨result, here, rfl⟩⟩

/-- The pass over a range of the cycle domain is the range in one buffer. -/
theorem streamWitnesses_eq_ok (set : visitor.ConsumerSet) (small : backend.config.logT < 64) {start stop chunkSize : ℕ}
    (positive : 0 < chunkSize) (less : start < stop) (within : stop ≤ 2 ^ backend.config.logT) {state result : σ} :
    backend.streamWitnesses start stop chunkSize visitor state = .ok result ↔
      visitor state (backend.rowsFrom start stop) (backend.rowAfter stop) = .ok result := by
  have inside : ¬(2 ^ backend.config.logT < stop ∨ stop < start) := by omega
  have checked : backend.visitChunks start stop positive visitor state =
      backend.visitFrom (2 ^ backend.config.logT) stop positive visitor start state := by
    rw [visitChunks, checkedPow2, if_pos small]
    exact if_neg inside
  rw [streamWitnesses, dif_pos positive, checked]
  exact visitFrom_eq_ok set positive less within

/-- A pass over no cycles leaves its state. -/
theorem streamWitnesses_empty (small : backend.config.logT < 64) {start chunkSize : ℕ} (positive : 0 < chunkSize)
    (within : start ≤ 2 ^ backend.config.logT) (state : σ) :
    backend.streamWitnesses start start chunkSize visitor state = .ok state := by
  have inside : ¬(2 ^ backend.config.logT < start ∨ start < start) := by omega
  rw [streamWitnesses, dif_pos positive, visitChunks, checkedPow2, if_pos small]
  refine (if_neg inside).trans ?_
  rw [visitFrom, if_neg (lt_irrefl start)]
  rfl

/-! ## Random access -/

/-- Entries that are dropped from the end read as the padding. -/
theorem getD_trimmed {α : Type} [DecidableEq α] (padding : α) (rows : List α) (j : ℕ) :
    (rows.rdropWhile (· = padding)).getD j padding = rows.getD j padding := by
  have split := List.rdropWhile_append_rtakeWhile (p := fun row : α => decide (row = padding)) (l := rows)
  generalize dropped : rows.rtakeWhile (fun row => decide (row = padding)) = last at split
  conv_rhs => rw [← split]
  rw [List.getD_eq_getElem?_getD, List.getD_eq_getElem?_getD]
  rcases Nat.lt_or_ge j (rows.rdropWhile fun row => decide (row = padding)).length with kept | past
  · rw [List.getElem?_append_left kept]
  · rw [List.getElem?_eq_none past, List.getElem?_append_right past]
    cases found : last[j - (rows.rdropWhile fun row => decide (row = padding)).length]? with
    | none => rfl
    | some row =>
        have member := List.mem_of_getElem? found
        rw [← dropped] at member
        have same : decide (row = padding) = true := List.mem_rtakeWhile_imp (p := fun row => decide (row = padding)) member
        exact (of_decide_eq_true same).symm

theorem tryNew_ok {config : JoltVmWitnessConfig} {inputs : JoltVmWitnessInputs} (made : tryNew config inputs = .ok backend) :
    backend.config = config ∧ backend.preprocessing = inputs.preprocessing ∧ backend.io = inputs.io ∧ config.logT < 64 ∧
      backend.rows.length ≤ 2 ^ config.logT ∧ ∀ j, backend.rowAt j = inputs.rows.getD j .noOp := by
  obtain ⟨cycles, counted, made⟩ := except_bind_eq_ok.mp made
  obtain ⟨fits, made⟩ := except_check_eq_ok.mp made
  cases made
  unfold checkedPow2 at counted
  split at counted
  · next small =>
      cases counted
      exact ⟨rfl, rfl, rfl, small, Nat.not_lt.mp fits, getD_trimmed _ _⟩
  · cases counted

variable {β : Type}

/-- The bundles of a range, cycle by cycle. -/
theorem extract_rowsFrom (fromRow : Extraction β) {start stop : ℕ} (ordered : start ≤ stop)
    (within : stop ≤ 2 ^ backend.config.logT) :
    StreamConsumer.extract fromRow (backend.rowsFrom start stop) (backend.rowAfter stop) =
      (List.range' start (stop - start)).mapM fun j => fromRow (backend.rowAt j) (backend.rowAfter (j + 1)) := by
  generalize length : stop - start = n
  induction n generalizing start with
  | zero => rw [rowsFrom, length]; rfl
  | succ n ih =>
      have more : start + 1 ≤ stop := by omega
      have head : ((backend.rowsFrom (start + 1) stop).head?).or (backend.rowAfter stop) = backend.rowAfter (start + 1) := by
        rcases Nat.lt_or_eq_of_le more with less | rfl
        · rw [rowsFrom_head less]
          exact (if_pos (less.trans_le within)).symm
        · rw [rowsFrom, Nat.sub_self]
          rfl
      have tail := ih more (by omega)
      rw [rowsFrom, length, List.range'_succ, List.map_cons, StreamConsumer.extract_cons, List.mapM_cons]
      rw [rowsFrom, show stop - (start + 1) = n by omega] at head tail
      rw [head, tail]

/-- Random access sees each cycle with its padding and the row after it. -/
theorem collectBundles_eq (small : backend.config.logT < 64) (fits : backend.rows.length ≤ 2 ^ backend.config.logT)
    (fromRow : Extraction β) {cycles : ℕ} (within : cycles ≤ 2 ^ backend.config.logT) :
    backend.collectBundles fromRow cycles =
      (List.range cycles).mapM fun j => fromRow (backend.rowAt j) (backend.rowAfter (j + 1)) := by
  have access : backend.randomAccessRows = .ok ⟨backend.rows, 2 ^ backend.config.logT, .noOp⟩ := by
    rw [randomAccessRows, checkedPow2, if_pos small]
    exact if_neg (Nat.not_lt.mpr fits)
  rw [collectBundles, access]
  exact if_pos within

section

variable {τ : Type} {other : ChunkVisitor τ} (set : visitor.ConsumerSet) (set' : other.ConsumerSet)
  (small : backend.config.logT < 64) {start stop chunkSize : ℕ} (ordered : start ≤ stop)
  (within : stop ≤ 2 ^ backend.config.logT) (positive : 0 < chunkSize)

include set small ordered within positive

/-- What a pass leaves does not depend on the size of its buffers. -/
theorem streamWitnesses_chunkSize {chunkSize' : ℕ} (positive' : 0 < chunkSize') {state result : σ} :
    backend.streamWitnesses start stop chunkSize visitor state = .ok result ↔
      backend.streamWitnesses start stop chunkSize' visitor state = .ok result := by
  rcases Nat.eq_or_lt_of_le ordered with rfl | less
  · rw [streamWitnesses_empty small positive within, streamWitnesses_empty small positive' within]
  · rw [streamWitnesses_eq_ok set small positive less within, streamWitnesses_eq_ok set small positive' less within]

include set'

/-- One walk feeds each consumer as a walk of its own would. -/
theorem streamWitnesses_and {state result : σ} {state' result' : τ} :
    backend.streamWitnesses start stop chunkSize (visitor.and other) (state, state') = .ok (result, result') ↔
      backend.streamWitnesses start stop chunkSize visitor state = .ok result ∧
        backend.streamWitnesses start stop chunkSize other state' = .ok result' := by
  rcases Nat.eq_or_lt_of_le ordered with rfl | less
  · rw [streamWitnesses_empty small positive within, streamWitnesses_empty small positive within,
      streamWitnesses_empty small positive within]
    simp only [Except.ok.injEq, Prod.mk.injEq]
  · rw [streamWitnesses_eq_ok (set.and set') small positive less within, streamWitnesses_eq_ok set small positive less within,
      streamWitnesses_eq_ok set' small positive less within]
    constructor
    · intro delivered
      obtain ⟨left, first, delivered⟩ := except_bind_eq_ok.mp delivered
      obtain ⟨right, second, delivered⟩ := except_bind_eq_ok.mp delivered
      cases delivered
      exact ⟨first, second⟩
    · rintro ⟨first, second⟩
      exact except_bind_eq_ok.mpr ⟨result, first, except_bind_eq_ok.mpr ⟨result', second, rfl⟩⟩

end

/-- A collector sees what random access shows. -/
theorem streamWitnesses_collects (small : backend.config.logT < 64) (fits : backend.rows.length ≤ 2 ^ backend.config.logT)
    {stop chunkSize : ℕ} (within : stop ≤ 2 ^ backend.config.logT) (positive : 0 < chunkSize) (fromRow : Extraction β)
    {bundles : List β} :
    backend.streamWitnesses 0 stop chunkSize (StreamConsumer.collectBundles fromRow).deliver [] = .ok bundles ↔
      backend.collectBundles fromRow stop = .ok bundles := by
  rw [collectBundles_eq small fits fromRow within]
  rcases Nat.eq_zero_or_pos stop with rfl | some_
  · rw [streamWitnesses_empty small positive within]
    rfl
  · rw [streamWitnesses_eq_ok (.one (StreamConsumer.collectBundles_lawful fromRow)) small positive some_ within,
      StreamConsumer.deliver]
    have rows : StreamConsumer.extract fromRow (backend.rowsFrom 0 stop) (backend.rowAfter stop) = _ :=
      extract_rowsFrom fromRow (Nat.zero_le stop) within
    rw [Nat.sub_zero, ← List.range_eq_range'] at rows
    have active : (StreamConsumer.collectBundles fromRow).isActive [] = true := rfl
    rw [if_pos active, ← rows, except_bind_eq_ok]
    constructor
    · rintro ⟨collected, extracted, ⟨⟩⟩
      exact extracted
    · intro extracted
      exact ⟨bundles, extracted, rfl⟩

end TraceBackend

end JoltWasm
