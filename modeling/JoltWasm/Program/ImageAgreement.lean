import Mathlib.Data.List.GetD
import JoltWasm.Frontend.WellFormed
import JoltWasm.Program.Image

/-!
# The image and the interpreter's memory

The sparse image and the memory of a machine before a run hold the same words, unless globals past
their region hold values or share words with the table or with linear memory.
-/

namespace JoltWasm

open Layout Lib

/-! ## Words of the map -/

namespace WordMap

theorem setEach_append (address : ℕ → ℕ) (words : WordMap) (i : ℕ) (first second : List U64) :
    setEach address words i (first ++ second) =
      setEach address (setEach address words i first) (i + first.length) second := by
  induction first generalizing words i with
  | nil => rfl
  | cons value first ih =>
      rw [List.cons_append, setEach, setEach, ih, List.length_cons, Nat.add_right_comm, Nat.add_assoc]

/-- The table is written word by word. -/
theorem setTable_eq (words : WordMap) (i : ℕ) (slots : List (Option TableSlot)) :
    setTable words i slots =
      setEach (fun k => tableBase + 8 * k) words (2 * i) (slots.flatMap TableSlot.words) := by
  induction slots generalizing words i with
  | nil => rfl
  | cons slot slots ih =>
      have slotWords : setEach (fun word => tableSlotAddress i + 8 * word) words 0
          (TableSlot.words slot) = setEach (fun k => tableBase + 8 * k) words (2 * i)
            (TableSlot.words slot) := by
        have first : tableSlotAddress i + 8 * 0 = tableBase + 8 * (2 * i) := by
          simp only [tableSlotAddress, tableSlotBytes, wordBytes]
          omega
        have second : tableSlotAddress i + 8 * (0 + 1) = tableBase + 8 * (2 * i + 1) := by
          simp only [tableSlotAddress, tableSlotBytes, wordBytes]
          omega
        cases slot <;> simp only [TableSlot.words, setEach, first, second]
      have length : (TableSlot.words slot).length = 2 := by cases slot <;> rfl
      rw [setTable, ih, slotWords, List.flatMap_cons, setEach_append, length]
      rfl

/-- Consecutive words from an aligned base. -/
theorem getD_setEach_linear (words : WordMap) {base : ℕ} (aligned : base % 8 = 0)
    (values : List U64) {x : ℕ} (word : x % 8 = 0) :
    (setEach (fun k => base + 8 * k) words 0 values).getD x 0 =
      if base ≤ x ∧ (x - base) / 8 < values.length then values.getD ((x - base) / 8) 0
      else words.getD x 0 := by
  split
  · next inside =>
      have at_ : base + 8 * (0 + (x - base) / 8) = x := by omega
      have found := getD_setEach (show ∀ i, (base + 8 * i) % 8 = 0 from fun i => by omega)
        (fun i j same => by simpa using same) words (i := 0) inside.2
      rw [show base + 8 * (0 + (x - base) / 8) = x from at_] at found
      rw [found, List.getD_eq_getElem?_getD, List.getElem?_eq_getElem inside.2]
      rfl
  · next outside =>
      refine getD_setEach_of_ne (fun i => by omega) words fun j small same => outside ?_
      omega

end WordMap

theorem getD_tableWords (table : List (Option TableSlot)) (k : ℕ) :
    (table.flatMap TableSlot.words).getD k 0 =
      (TableSlot.words (table.getD (k / 2) none)).getD (k % 2) 0 := by
  induction table generalizing k with
  | nil =>
      have : k % 2 = 0 ∨ k % 2 = 1 := by omega
      rcases this with even | odd
      · simp [TableSlot.words, even]
      · simp [TableSlot.words, odd]
  | cons slot table ih =>
      match k with
      | 0 => cases slot <;> rfl
      | 1 => cases slot <;> rfl
      | k + 2 =>
          have := ih k
          cases slot <;>
            simpa [TableSlot.words, Nat.add_div_right, Nat.add_mod_right] using this

/-! ## Data segments -/

/-- Linear memory with the bytes at `offset`. -/
def putBytes (linear : ℕ → BitVec 8) (offset : ℕ) (bytes : List (BitVec 8)) (i : ℕ) : BitVec 8 :=
  if offset ≤ i ∧ i < offset + bytes.length then bytes.getD (i - offset) 0 else linear i

theorem putBytes_cons (linear : ℕ → BitVec 8) (offset : ℕ) (byte : BitVec 8)
    (bytes : List (BitVec 8)) :
    putBytes linear offset (byte :: bytes) =
      putBytes (Function.update linear offset byte) (offset + 1) bytes := by
  funext i
  unfold putBytes
  rw [List.length_cons]
  by_cases first : i = offset
  · subst first
    rw [if_pos ⟨le_rfl, by omega⟩, if_neg (by omega), Function.update_self]
    simp
  · rw [Function.update_of_ne first]
    by_cases inside : offset ≤ i ∧ i < offset + (bytes.length + 1)
    · rw [if_pos inside, if_pos (by omega), show i - offset = i - (offset + 1) + 1 by omega,
        List.getD_cons_succ]
    · rw [if_neg inside, if_neg (by omega)]

theorem getLsbD_cellAt (linear : ℕ → BitVec 8) (start : ℕ) {i : ℕ} (small : i < 32) :
    (cellAt linear start).getLsbD i = (linear (start + i / 8)).getLsbD (i % 8) := by
  unfold cellAt
  rw [BitVec.getLsbD_append, BitVec.getLsbD_append, BitVec.getLsbD_append]
  have : i / 8 = 0 ∨ i / 8 = 1 ∨ i / 8 = 2 ∨ i / 8 = 3 := by omega
  rcases this with byte | byte | byte | byte
  · rw [if_pos (by omega), byte, show i % 8 = i by omega]
    rfl
  · rw [if_neg (by omega), if_pos (by omega), byte, show i % 8 = i - 8 by omega]
  · rw [if_neg (by omega), if_neg (by omega), if_pos (by omega), byte,
      show i % 8 = i - 8 - 8 by omega]
  · rw [if_neg (by omega), if_neg (by omega), if_neg (by omega), byte,
      show i % 8 = i - 8 - 8 - 8 by omega]

/-- The image holds the cells of linear memory, and nothing below them. -/
structure HoldsCells (words : WordMap) (linear : ℕ → BitVec 8) : Prop where
  cell : ∀ j, words.getD (linearMemoryBase + 8 * j) 0 = (cellAt linear (4 * j)).setWidth 64
  below : ∀ x < linearMemoryBase, words.getD x 0 = 0

/-- Setting a byte of a segment sets the byte of linear memory. -/
theorem HoldsCells.setByte {words : WordMap} {linear : ℕ → BitVec 8} (holds : HoldsCells words linear)
    (a : ℕ) (byte : BitVec 8) :
    HoldsCells (words.setByte (linearAddress (a - a % wasmWordBytes) + a % wasmWordBytes) byte)
      (Function.update linear a byte) := by
  have address : linearAddress (a - a % wasmWordBytes) + a % wasmWordBytes =
      linearMemoryBase + 8 * (a / 4) + a % 4 := by
    simp only [linearAddress, linearCellBytes, wasmWordBytes, wordBytes]
    omega
  have base : linearMemoryBase % 8 = 0 := rfl
  have offset : (linearMemoryBase + 8 * (a / 4) + a % 4) % 8 = a % 4 := by omega
  have word : linearMemoryBase + 8 * (a / 4) + a % 4 - a % 4 = linearMemoryBase + 8 * (a / 4) := by
    omega
  constructor
  · intro j
    rw [address, WordMap.getD_setByte, offset, word, holds.cell]
    refine BitVec.eq_of_getLsbD_eq fun i small => ?_
    rw [BitVec.getLsbD_setWidth]
    by_cases here : j = a / 4
    · rw [if_pos (by rw [here]), WordMap.getLsbD_putByte small, BitVec.getLsbD_setWidth]
      by_cases low : i < 32
      · rw [getLsbD_cellAt _ _ low, getLsbD_cellAt _ _ low]
        by_cases same : i / 8 = a % 4
        · rw [if_pos same, show 4 * j + i / 8 = a by omega, Function.update_self]
          simp [small]
        · rw [if_neg same, Function.update_of_ne (by omega)]
      · rw [if_neg (by omega), BitVec.getLsbD_of_ge _ _ (by omega),
          BitVec.getLsbD_of_ge _ _ (by omega)]
    · rw [if_neg (by omega), BitVec.getLsbD_setWidth]
      by_cases low : i < 32
      · rw [getLsbD_cellAt _ _ low, getLsbD_cellAt _ _ low, Function.update_of_ne (by omega)]
      · rw [BitVec.getLsbD_of_ge _ _ (by omega), BitVec.getLsbD_of_ge _ _ (by omega)]
  · intro x low
    rw [address, WordMap.getD_setByte, offset, word, if_neg (by omega), holds.below x low]

theorem HoldsCells.setSegment {words : WordMap} {linear : ℕ → BitVec 8}
    (holds : HoldsCells words linear) (offset : ℕ) (bytes : List (BitVec 8)) :
    HoldsCells (words.setSegment offset bytes) (putBytes linear offset bytes) := by
  induction bytes generalizing words linear offset with
  | nil =>
      have : putBytes linear offset [] = linear := by
        funext i
        rw [putBytes, if_neg (by simp)]
      rwa [this]
  | cons byte bytes ih =>
      rw [WordMap.setSegment, putBytes_cons]
      exact ih (holds.setByte offset byte) (offset + 1)

/-- Linear memory is zero from `size` on. -/
def ZeroFrom (linear : ℕ → BitVec 8) (size : ℕ) : Prop := ∀ i, size ≤ i → linear i = 0

/-- Loading the data segments writes the image's cells. -/
theorem initData_holdsCells {data : List DataSegment} {m next : Memory} {words : WordMap}
    (loaded : Machine.initData data m = .ok next) (holds : HoldsCells words m.linear)
    (zero : ZeroFrom m.linear m.sizeBytes) :
    (∃ linear, next = { m with linear := linear }) ∧ ZeroFrom next.linear m.sizeBytes ∧
      HoldsCells (data.foldl (fun words segment => words.setSegment segment.offset segment.bytes)
        words) next.linear := by
  induction data generalizing m words with
  | nil =>
      cases loaded
      exact ⟨⟨_, rfl⟩, zero, holds⟩
  | cons segment data ih =>
      obtain ⟨mid, first, loaded⟩ := except_bind_eq_ok.mp loaded
      unfold Memory.initLinear at first
      split at first
      · cases first
      next inside =>
        cases first
        obtain ⟨⟨linear, rfl⟩, zero, holds⟩ := ih loaded
          (holds.setSegment segment.offset segment.bytes) (fun i high => by
            change m.sizeBytes ≤ i at high
            exact (if_neg (by omega)).trans (zero i high))
        exact ⟨⟨linear, rfl⟩, zero, holds⟩

/-! ## The interpreter's memory -/

/-- The bytes of the program's linear memory before a run. -/
def IrProgram.initialBytes (program : IrProgram) : ℕ := program.memory.initialPages * pageSize

/-- A new machine's memory: only linear memory depends on the data segments. -/
theorem new_memory {program : IrProgram} (wellFormed : program.WellFormed) {machine : Machine}
    (created : Machine.new program = .ok machine) :
    ∃ linear, machine.memory =
        { Memory.new program.memory program.globals program.table with linear := linear } ∧
      ZeroFrom linear program.initialBytes ∧
      HoldsCells (program.data.foldl
        (fun words segment => words.setSegment segment.offset segment.bytes) ∅) linear := by
  obtain ⟨memory, loaded, created⟩ := except_bind_eq_ok.mp created
  cases created
  have size : (Memory.new program.memory program.globals program.table).sizeBytes =
      program.initialBytes := by
    have pages := wellFormed.memory
    have small : program.memory.initialPages * pageSize < 2 ^ 64 := by
      unfold maxPages at pages
      unfold pageSize
      omega
    exact (BitVec.toNat_ofNat _ _).trans (Nat.mod_eq_of_lt small)
  cases data : Machine.initData program.data
      (Memory.new program.memory program.globals program.table) with
  | error trap =>
      rw [data] at loaded
      cases loaded
  | ok memory' =>
      rw [data] at loaded
      cases loaded
      obtain ⟨⟨linear, rfl⟩, zero, holds⟩ := initData_holdsCells data
        (show HoldsCells ∅ _ from ⟨fun j => by simp [Memory.new, cellAt], fun x _ => by simp⟩) fun i _ => rfl
      exact ⟨linear, rfl, size ▸ zero, holds⟩

/-- The regions in address order. -/
theorem Region.bases : Region.base = fun
    | .system => 0x90000000 | .inputs => 0x90001000 | .outputs => 0x90002000 | .shadow => 0x90003000
    | .globals => 0x90104000 | .table => 0x90114000 := by
  funext region
  cases region <;> rfl

theorem Region.sizes : Region.size = fun
    | .system | .inputs | .outputs => 0x1000 | .shadow => 0x100000
    | .globals | .table => 0x10000 := by
  funext region
  cases region <;> rfl

theorem linearMemoryBase_eq : linearMemoryBase = 0x90124000 := rfl

/-- The cascade of regions, from the top of the address space down. -/
theorem Memory.locate_eq (m : Memory) {x : ℕ} (fits : x < 2 ^ 64) (aligned : x % 8 = 0) :
    m.locate (BitVec.ofNat 64 x) =
      if 0x90124000 ≤ x then
        if m.linearLen < (x - 0x90124000) / 8 * 4 + 4 then
          .error (.outOfBoundsMemory (BitVec.ofNat 64 x) 8)
        else .ok (.cell ((x - 0x90124000) / 8 * 4))
      else if 0x90114000 ≤ x then locateWord (BitVec.ofNat 64 x) .table
      else if 0x90104000 ≤ x then locateWord (BitVec.ofNat 64 x) .globals
      else if 0x90103000 ≤ x then .error .callStackExhausted
      else if 0x90003000 ≤ x then locateWord (BitVec.ofNat 64 x) .shadow
      else if 0x90002000 ≤ x then locateWord (BitVec.ofNat 64 x) .outputs
      else if 0x90001000 ≤ x then locateWord (BitVec.ofNat 64 x) .inputs
      else if 0x90000000 ≤ x then locateWord (BitVec.ofNat 64 x) .system
      else .error (.outOfBoundsMemory (BitVec.ofNat 64 x) 8) := by
  have value : (BitVec.ofNat 64 x).toNat = x := by
    rw [BitVec.toNat_ofNat, Nat.mod_eq_of_lt fits]
  unfold Memory.locate
  rw [value, if_neg (by simpa [wordBytes] using aligned)]
  rfl

section

variable (m : Memory) {x : ℕ} (fits : x < 2 ^ 64) (aligned : x % 8 = 0)

include fits aligned

/-- A word of a region below linear memory is located in it. -/
theorem Memory.locate_word {region : Region} (above : region.base ≤ x)
    (below : x < region.base + region.size) :
    m.locate (BitVec.ofNat 64 x) = .ok (.word region ((x - region.base) / 8)) := by
  have word : locateWord (BitVec.ofNat 64 x) region =
      .ok (.word region ((x - region.base) / 8)) := by
    unfold locateWord
    rw [BitVec.toNat_ofNat, Nat.mod_eq_of_lt fits, if_neg]
    rw [Region.bases] at *
    rw [Region.sizes] at *
    cases region <;> simp only at above below ⊢ <;> omega
  rw [m.locate_eq fits aligned]
  rw [Region.bases] at above below
  rw [Region.sizes] at below
  cases region with
  | table => simp only at above below; rw [if_neg (by omega), if_pos above, word]
  | globals =>
      simp only at above below
      rw [if_neg (by omega), if_neg (by omega), if_pos above, word]
  | shadow =>
      simp only at above below
      rw [if_neg (by omega), if_neg (by omega), if_neg (by omega), if_neg (by omega), if_pos above,
        word]
  | outputs =>
      simp only at above below
      rw [if_neg (by omega), if_neg (by omega), if_neg (by omega), if_neg (by omega),
        if_neg (by omega), if_pos above, word]
  | inputs =>
      simp only at above below
      rw [if_neg (by omega), if_neg (by omega), if_neg (by omega), if_neg (by omega),
        if_neg (by omega), if_neg (by omega), if_pos above, word]
  | system =>
      simp only at above below
      rw [if_neg (by omega), if_neg (by omega), if_neg (by omega), if_neg (by omega),
        if_neg (by omega), if_neg (by omega), if_neg (by omega), if_pos above, word]

/-- The words of the interpreter's memory, by region. -/
theorem Memory.wordOf_region {region : Region} (above : region.base ≤ x)
    (below : x < region.base + region.size) :
    m.wordOf x = m.words region ((x - region.base) / 8) := by
  unfold Memory.wordOf Memory.readWord
  rw [if_pos fits, m.locate_word fits aligned above below]
  rfl

theorem Memory.wordOf_cell (inside : linearMemoryBase ≤ x) :
    m.wordOf x = if m.linearLen < (x - linearMemoryBase) / 8 * 4 + 4 then 0
      else (cellAt m.linear ((x - linearMemoryBase) / 8 * 4)).setWidth 64 := by
  unfold Memory.wordOf Memory.readWord
  rw [linearMemoryBase_eq] at *
  rw [if_pos fits, m.locate_eq fits aligned, if_pos inside]
  by_cases outside : m.linearLen < (x - 0x90124000) / 8 * 4 + 4
  · rw [if_pos outside, if_pos outside]
    rfl
  · rw [if_neg outside, if_neg outside]
    rfl

/-- Below the first region and in the guard page there is no word. -/
theorem Memory.wordOf_none
    (outside : x < 0x90000000 ∨ 0x90103000 ≤ x ∧ x < 0x90104000) : m.wordOf x = 0 := by
  unfold Memory.wordOf Memory.readWord
  rw [if_pos fits, m.locate_eq fits aligned, if_neg (by omega), if_neg (by omega), if_neg (by omega)]
  rcases outside with below | ⟨above, -⟩
  · rw [if_neg (by omega), if_neg (by omega), if_neg (by omega), if_neg (by omega),
      if_neg (by omega)]
    rfl
  · rw [if_pos above]
    rfl

end

/-- The memory after the inputs are written. -/
def Memory.withInputs (m : Memory) (i : ℕ) (inputs : List U64) : Memory :=
  { m with
    words := fun r k =>
      if r = .inputs ∧ i ≤ k ∧ k < i + inputs.length then inputs.getD (k - i) 0 else m.words r k }

theorem Memory.withInputs_other (m : Memory) {i k : ℕ} {inputs : List U64} {region : Region}
    (other : region ≠ .inputs) : (m.withInputs i inputs).words region k = m.words region k :=
  if_neg fun both => other both.1

theorem Memory.withInputs_nil (m : Memory) (i : ℕ) : m.withInputs i [] = m := by
  unfold Memory.withInputs
  congr 1
  funext r k
  rw [if_neg (by simp)]

/-- Inputs that fit are written to the input words. -/
theorem writeInputs_eq (m : Memory) {i : ℕ} {inputs : List U64}
    (fits : i + inputs.length ≤ maxInputWords) :
    Machine.writeInputs i inputs m = .ok (m.withInputs i inputs) := by
  induction inputs generalizing m i with
  | nil =>
      rw [m.withInputs_nil]
      rfl
  | cons input inputs ih =>
      have small : i < 512 := by
        have : i + (inputs.length + 1) ≤ 512 := fits
        omega
      have located : m.locate (BitVec.ofNat 64 (inputAddress i)) = .ok (.word .inputs i) := by
        have address : inputAddress i = 0x90001000 + 8 * i := rfl
        rw [m.locate_word (by omega) (by omega)
          (show Region.inputs.base ≤ _ by change 0x90001000 ≤ _; omega)
          (by change _ < 0x90001000 + 0x1000; omega)]
        congr 2
        change (inputAddress i - 0x90001000) / 8 = i
        omega
      have other : BitVec.ofNat 64 (inputAddress i) ≠ BitVec.ofNat 64 memorySizeAddr := by
        intro same
        have := congrArg BitVec.toNat same
        rw [BitVec.toNat_ofNat, BitVec.toNat_ofNat] at this
        change (0x90001000 + 8 * i) % 2 ^ 64 = 0x90000000 % 2 ^ 64 at this
        omega
      have write : m.writeWord (BitVec.ofNat 64 (inputAddress i)) input =
          .ok (m.words .inputs i, m.setWord .inputs i input) := by
        unfold Memory.writeWord
        rw [located]
        simp only [bind, Except.bind, pure, Except.pure]
        rw [if_neg other]
      unfold Machine.writeInputs
      rw [write]
      change Machine.writeInputs (i + 1) inputs (m.setWord .inputs i input) = _
      rw [ih _ (by rw [List.length_cons] at fits; omega)]
      unfold Memory.withInputs Memory.setWord
      congr 2
      funext r k
      simp only [List.length_cons]
      by_cases first : r = .inputs ∧ k = i
      · rw [if_neg (by omega), if_pos first, if_pos ⟨first.1, by omega⟩, first.2, Nat.sub_self]
        rfl
      · by_cases inside : r = .inputs ∧ i ≤ k ∧ k < i + (inputs.length + 1)
        · have : k ≠ i := fun same => first ⟨inside.1, same⟩
          rw [if_pos ⟨inside.1, by omega⟩, if_pos inside, show k - i = k - (i + 1) + 1 by omega,
            List.getD_cons_succ]
        · rw [if_neg (fun later => inside ⟨later.1, by omega⟩), if_neg first, if_neg inside]

/-! ## The two images, word by word -/

/-- The words before a run, by region. -/
def IrProgram.initialWord (program : IrProgram) (inputs : List U64) : Region → ℕ → U64
  | .inputs, i => inputs.getD i 0
  | .system, 0 => BitVec.ofNat 64 program.initialBytes
  | .globals, i => program.globals.getD i 0
  | .table, i => (program.table.flatMap TableSlot.words).getD i 0
  | _, _ => 0

/-- The interpreter's words. -/
theorem withInputs_words (program : IrProgram) (inputs : List U64) (linear : ℕ → BitVec 8) :
    (Memory.withInputs { Memory.new program.memory program.globals program.table with
      linear := linear } 0 inputs).words = program.initialWord inputs := by
  funext region i
  cases region with
  | inputs =>
      by_cases inside : i < inputs.length
      · exact (if_pos ⟨rfl, Nat.zero_le i, by omega⟩).trans rfl
      · refine (if_neg (by omega)).trans ?_
        exact (List.getD_eq_default _ _ (Nat.not_lt.mp inside)).symm
  | table =>
      rw [Memory.withInputs_other _ (show Region.table ≠ .inputs from nofun)]
      exact (getD_tableWords program.table i).symm
  | system =>
      rw [Memory.withInputs_other _ (show Region.system ≠ .inputs from nofun)]
      cases i <;> rfl
  | globals =>
      rw [Memory.withInputs_other _ (show Region.globals ≠ .inputs from nofun)]
      rfl
  | shadow =>
      rw [Memory.withInputs_other _ (show Region.shadow ≠ .inputs from nofun)]
      rfl
  | outputs =>
      rw [Memory.withInputs_other _ (show Region.outputs ≠ .inputs from nofun)]
      rfl

theorem length_tableWords (table : List (Option TableSlot)) :
    (table.flatMap TableSlot.words).length = 2 * table.length := by
  induction table with
  | nil => rfl
  | cons slot table ih =>
      have : (TableSlot.words slot).length = 2 := by cases slot <;> rfl
      rw [List.flatMap_cons, List.length_append, ih, this, List.length_cons]
      omega

/-- The words of the image, last writer first. -/
theorem getD_initialWordMap (program : IrProgram) (inputs : List U64) {x : ℕ} (aligned : x % 8 = 0) :
    (initialWordMap program inputs).getD x 0 =
      if inputsBase ≤ x ∧ (x - inputsBase) / 8 < inputs.length then
        inputs.getD ((x - inputsBase) / 8) 0
      else if x = memorySizeAddr then BitVec.ofNat 64 program.initialBytes
      else if tableBase ≤ x ∧ (x - tableBase) / 8 < 2 * program.table.length then
        (program.table.flatMap TableSlot.words).getD ((x - tableBase) / 8) 0
      else if globalsBase ≤ x ∧ (x - globalsBase) / 8 < program.globals.length then
        program.globals.getD ((x - globalsBase) / 8) 0
      else (program.data.foldl
        (fun words segment => words.setSegment segment.offset segment.bytes) ∅ : WordMap).getD x 0 := by
  unfold initialWordMap
  simp only
  rw [show inputAddress = fun k => inputsBase + 8 * k from rfl,
    show globalWordAddress = fun k => globalsBase + 8 * k from rfl,
    WordMap.getD_setEach_linear _ rfl _ aligned, WordMap.getD_setBytes _ rfl, WordMap.setTable_eq,
    WordMap.getD_setEach_linear _ rfl _ aligned, length_tableWords,
    WordMap.getD_setEach_linear _ rfl _ aligned]
  rfl

/-- Number of words of the globals region, and of the table region. -/
def regionWords : ℕ := globalsSize / wordBytes

/-- The globals past their region hold zero and reach neither a table slot nor linear memory. -/
def IrProgram.GlobalsFit (program : IrProgram) : Prop :=
  ∀ i value, regionWords ≤ i → program.globals[i]? = some value →
    value = 0 ∧ 2 * program.table.length ≤ i - regionWords ∧ i < 2 * regionWords

theorem regionWords_eq : regionWords = 8192 := rfl

section

variable {program : IrProgram} {inputs : List U64} {linear : ℕ → BitVec 8}

/-- Past its region a global that fits is zero. -/
theorem IrProgram.GlobalsFit.getD (fit : program.GlobalsFit) {i : ℕ} (past : 8192 ≤ i) :
    program.globals.getD i 0 = 0 := by
  rw [List.getD_eq_getElem?_getD]
  cases found : program.globals[i]? with
  | none => rfl
  | some value => exact (fit i value past found).1

/-- The image's words agree with the interpreter's when the globals fit. -/
theorem getD_eq_wordOf (wellFormed : program.WellFormed)
    (zero : ZeroFrom linear program.initialBytes)
    (holds : HoldsCells (program.data.foldl
      (fun words segment => words.setSegment segment.offset segment.bytes) ∅) linear)
    (fit : program.GlobalsFit) (fits : inputs.length ≤ maxInputWords) {x : ℕ} (aligned : x % 8 = 0) :
    (initialWordMap program inputs).getD x 0 =
      (Memory.withInputs { Memory.new program.memory program.globals program.table with
        linear := linear } 0 inputs).wordOf x := by
  set m := Memory.withInputs { Memory.new program.memory program.globals program.table with
    linear := linear } 0 inputs with shape
  have words : m.words = program.initialWord inputs := withInputs_words program inputs linear
  have inputsFit : inputs.length ≤ 512 := fits
  have tableFit : program.table.length ≤ 4096 := wellFormed.table
  have bytes : program.initialBytes ≤ 4294967296 := by
    have pages := wellFormed.memory
    have : program.memory.initialPages ≤ 65536 := pages.1.trans pages.2
    unfold IrProgram.initialBytes pageSize
    omega
  have globalsFit : program.globals.length ≤ 16384 := by
    by_contra long
    have last := fit 16384 program.globals[16384] (by decide)
      (List.getElem?_eq_getElem (Nat.not_le.mp long))
    exact absurd last.2.2 (by decide)
  have sizeAddr : memorySizeAddr = 0x90000000 := rfl
  have inputsBase_ : inputsBase = 0x90001000 := rfl
  have globalsBase_ : globalsBase = 0x90104000 := rfl
  have tableBase_ : tableBase = 0x90114000 := rfl
  rw [getD_initialWordMap program inputs aligned, sizeAddr, inputsBase_, globalsBase_, tableBase_]
  by_cases cells : 0x90124000 ≤ x
  · rw [if_neg (by omega), if_neg (by omega), if_neg (by omega), if_neg (by omega)]
    have at_ : x = linearMemoryBase + 8 * ((x - linearMemoryBase) / 8) := by
      rw [linearMemoryBase_eq]
      omega
    have image := holds.cell ((x - linearMemoryBase) / 8)
    rw [← at_] at image
    rw [image, Nat.mul_comm 4]
    have high (far : program.initialBytes ≤ (x - linearMemoryBase) / 8 * 4) :
        cellAt linear ((x - linearMemoryBase) / 8 * 4) = 0 := by
      unfold cellAt
      rw [zero _ far, zero _ (by omega), zero _ (by omega), zero _ (by omega)]
      rfl
    by_cases word : x < 2 ^ 64
    · rw [m.wordOf_cell word aligned cells]
      have len : m.linearLen = program.initialBytes + 4 := rfl
      rw [len]
      split
      · rw [high (by omega)]
        rfl
      · rfl
    · rw [high (by rw [linearMemoryBase_eq]; omega), Memory.wordOf, if_neg word]
      rfl
  have word : x < 2 ^ 64 := by omega
  have below : (program.data.foldl
      (fun words segment => words.setSegment segment.offset segment.bytes) ∅ : WordMap).getD x 0 =
      0 := holds.below x (by rw [linearMemoryBase_eq]; omega)
  rw [below]
  have inRegion (region : Region) (base size : ℕ) (starts : region.base = base)
      (bytes : region.size = size) (above : base ≤ x) (below : x < base + size) :
      m.wordOf x = program.initialWord inputs region ((x - base) / 8) := by
    subst starts bytes
    rw [m.wordOf_region word aligned above below, words]
  by_cases table : 0x90114000 ≤ x
  · rw [inRegion .table 0x90114000 0x10000 rfl rfl table (by omega), if_neg (by omega), if_neg (by omega)]
    split
    · rfl
    · next past =>
        refine Eq.trans ?_ (List.getD_eq_default _ _ (by rw [length_tableWords]; omega)).symm
        rw [fit.getD (by omega), ite_self]
  by_cases globals : 0x90104000 ≤ x
  · rw [inRegion .globals 0x90104000 0x10000 rfl rfl globals (by omega), if_neg (by omega), if_neg (by omega),
      if_neg (by omega)]
    split
    · rfl
    · exact (List.getD_eq_default _ _ (by omega)).symm
  by_cases guard : 0x90103000 ≤ x
  · rw [m.wordOf_none word aligned (.inr ⟨guard, by omega⟩), if_neg (by omega), if_neg (by omega),
      if_neg (by omega), if_neg (by omega)]
  by_cases outputs : 0x90002000 ≤ x
  · rw [if_neg (by omega), if_neg (by omega), if_neg (by omega), if_neg (by omega)]
    by_cases shadow : 0x90003000 ≤ x
    · rw [inRegion .shadow 0x90003000 0x100000 rfl rfl shadow (by omega)]
      rfl
    · rw [inRegion .outputs 0x90002000 0x1000 rfl rfl outputs (by omega)]
      rfl
  by_cases input : 0x90001000 ≤ x
  · rw [inRegion .inputs 0x90001000 0x1000 rfl rfl input (by omega)]
    split
    · rfl
    · rw [if_neg (by omega), if_neg (by omega), if_neg (by omega)]
      exact (List.getD_eq_default _ _ (by omega)).symm
  rw [if_neg (by omega)]
  by_cases size : x = 0x90000000
  · rw [if_pos size, inRegion .system 0x90000000 0x1000 rfl rfl (by omega) (by omega), size]
    rfl
  rw [if_neg size, if_neg (by omega), if_neg (by omega)]
  by_cases system : 0x90000000 ≤ x
  · rw [inRegion .system 0x90000000 0x1000 rfl rfl system (by omega)]
    cases index : (x - 0x90000000) / 8 with
    | zero => omega
    | succ i => rfl
  · rw [m.wordOf_none word aligned (.inl (by omega))]

end

/-! ## Lists of words -/

section

variable {words words' : List MemoryWord} {x : ℕ}

theorem wordOf_absent (absent : ∀ word ∈ words, word.address ≠ x) : wordOf words x = 0 := by
  unfold wordOf
  rw [List.find?_eq_none.mpr fun word member => by simpa using absent word member]
  rfl

theorem wordOf_mem (nodup : (words.map MemoryWord.address).Nodup) {value : U64}
    (member : ⟨x, value⟩ ∈ words) : wordOf words x = value := by
  unfold wordOf
  cases found : words.find? fun word => word.address == x with
  | none => simpa using List.find?_eq_none.mp found _ member
  | some word =>
      have same : word.address = x := by simpa using List.find?_some found
      have := List.inj_on_of_nodup_map nodup (List.mem_of_find?_eq_some found) member same
      rw [this]
      rfl

/-- The words of a list do not depend on its order. -/
theorem wordOf_perm (nodup : (words.map MemoryWord.address).Nodup) (perm : words.Perm words') :
    wordOf words' x = wordOf words x := by
  have nodup' : (words'.map MemoryWord.address).Nodup := (perm.map _).nodup_iff.mp nodup
  by_cases present : ∃ value, ⟨x, value⟩ ∈ words
  · obtain ⟨value, member⟩ := present
    rw [wordOf_mem nodup member, wordOf_mem nodup' (perm.mem_iff.mp member)]
  · have absent (list : List MemoryWord) (same : list.Perm words) :
        ∀ word ∈ list, word.address ≠ x := by
      rintro ⟨address, value⟩ member rfl
      exact present ⟨value, same.mem_iff.mp member⟩
    rw [wordOf_absent (absent words (.refl _)), wordOf_absent (absent words' perm.symm)]

end

section

variable (program : IrProgram) (inputs : List U64)

theorem mem_initialMemoryWords {x : ℕ} {value : U64} :
    ⟨x, value⟩ ∈ initialMemoryWords program inputs ↔
      value ≠ 0 ∧ (initialWordMap program inputs)[x]? = some value := by
  unfold initialMemoryWords
  rw [List.mem_map]
  constructor
  · rintro ⟨⟨address, found⟩, member, same⟩
    cases same
    rw [List.mem_filter, Std.TreeMap.mem_toList_iff_getElem?_eq_some] at member
    exact ⟨by simpa using member.2, member.1⟩
  · rintro ⟨nonzero, found⟩
    refine ⟨(x, value), ?_, rfl⟩
    rw [List.mem_filter, Std.TreeMap.mem_toList_iff_getElem?_eq_some]
    exact ⟨found, by simpa using nonzero⟩

/-- No address occurs twice. -/
theorem nodup_initialMemoryWords :
    ((initialMemoryWords program inputs).map MemoryWord.address).Nodup := by
  unfold initialMemoryWords
  rw [List.map_map]
  have keys : (initialWordMap program inputs).toList.Pairwise fun a b => a.1 ≠ b.1 :=
    (Std.TreeMap.distinct_keys_toList (t := initialWordMap program inputs)).imp
      fun {a b} different same => different (compare_eq_iff_eq.mpr same)
  exact List.pairwise_map.mpr (keys.filter _)

theorem wordOf_initialMemoryWords (x : ℕ) :
    wordOf (initialMemoryWords program inputs) x = (initialWordMap program inputs).getD x 0 := by
  rw [Std.TreeMap.getD_eq_getD_getElem?]
  cases found : (initialWordMap program inputs)[x]? with
  | none =>
      refine wordOf_absent ?_
      rintro ⟨address, value⟩ member rfl
      have := ((mem_initialMemoryWords program inputs).mp member).2
      rw [found] at this
      cases this
  | some value =>
      by_cases zero : value = 0
      · subst zero
        refine wordOf_absent ?_
        rintro ⟨address, value⟩ member rfl
        have := (mem_initialMemoryWords program inputs).mp member
        rw [found] at this
        exact absurd (Option.some.inj this.2).symm this.1
      · exact wordOf_mem (nodup_initialMemoryWords program inputs)
          ((mem_initialMemoryWords program inputs).mpr ⟨zero, found⟩)

/-- The non-zero inputs, at their addresses. -/
def inputWords : List MemoryWord :=
  (inputs.zipIdx.filter fun entry => entry.1 ≠ 0).map fun (value, i) => ⟨inputAddress i, value⟩

theorem inputAddress_injective : Function.Injective inputAddress := by
  intro i j same
  unfold inputAddress wordBytes at same
  omega

theorem mem_inputWords {x : ℕ} {value : U64} :
    ⟨x, value⟩ ∈ inputWords inputs ↔
      value ≠ 0 ∧ ∃ i, inputs[i]? = some value ∧ x = inputAddress i := by
  unfold inputWords
  rw [List.mem_map]
  constructor
  · rintro ⟨⟨found, i⟩, member, same⟩
    cases same
    rw [List.mem_filter, List.mem_zipIdx_iff_getElem?] at member
    exact ⟨by simpa using member.2, i, member.1, rfl⟩
  · rintro ⟨nonzero, i, found, rfl⟩
    refine ⟨(value, i), ?_, rfl⟩
    rw [List.mem_filter, List.mem_zipIdx_iff_getElem?]
    exact ⟨found, by simpa using nonzero⟩

theorem nodup_inputWords : ((inputWords inputs).map MemoryWord.address).Nodup := by
  have indices : ((inputs.zipIdx.filter fun entry => entry.1 ≠ 0).map Prod.snd).Nodup :=
    ((List.filter_sublist).map Prod.snd).nodup (by
      rw [List.zipIdx_map_snd]
      exact List.nodup_range')
  have same : (inputWords inputs).map MemoryWord.address =
      ((inputs.zipIdx.filter fun entry => entry.1 ≠ 0).map Prod.snd).map inputAddress := by
    unfold inputWords
    rw [List.map_map, List.map_map]
    rfl
  rw [same]
  exact indices.map inputAddress_injective

/-- The program image holds nothing at the input addresses. -/
theorem getD_inputAddress {i : ℕ} (small : i < maxInputWords) {linear : ℕ → BitVec 8}
    (holds : HoldsCells (program.data.foldl
      (fun words segment => words.setSegment segment.offset segment.bytes) ∅) linear) :
    (initialWordMap program []).getD (inputAddress i) 0 = 0 := by
  have address : inputAddress i = 0x90001000 + 8 * i := rfl
  have small' : i < 512 := small
  have sizeAddr : memorySizeAddr = 0x90000000 := rfl
  have globalsBase_ : globalsBase = 0x90104000 := rfl
  have tableBase_ : tableBase = 0x90114000 := rfl
  rw [getD_initialWordMap program [] (by omega), if_neg (fun both => absurd both.2 (Nat.not_lt_zero _)),
    if_neg (by omega), if_neg (by omega), if_neg (by omega)]
  exact holds.below _ (by rw [linearMemoryBase_eq]; omega)

variable {program inputs}

/-- What preprocessing takes of the program's memory. -/
theorem preprocessed_memory {preprocessing : WasmProgramPreprocessing} {maxTraceLength : ℕ}
    (preprocessed : WasmProgramPreprocessing.new program maxTraceLength = .ok preprocessing) :
    preprocessing.programMemory = initialMemoryWords program [] ∧
      preprocessing.memory = program.memory := by
  obtain ⟨bytecode, -, preprocessed⟩ := except_bind_eq_ok.mp preprocessed
  cases preprocessed
  dsimp only
  exact ⟨rfl, rfl⟩

/-- The preprocessed program words and the inputs are the words of the image. -/
theorem initialMemory_words {linear : ℕ → BitVec 8}
    (holds : HoldsCells (program.data.foldl
      (fun words segment => words.setSegment segment.offset segment.bytes) ∅) linear)
    (fits : inputs.length ≤ maxInputWords) {preprocessing : WasmProgramPreprocessing}
    {maxTraceLength : ℕ}
    (preprocessed : WasmProgramPreprocessing.new program maxTraceLength = .ok preprocessing) :
    ((preprocessing.initialMemory inputs).map MemoryWord.address).Nodup ∧
      ∀ x, wordOf (preprocessing.initialMemory inputs) x =
        (initialWordMap program inputs).getD x 0 := by
  have memory := (preprocessed_memory preprocessed).1
  have perm : (initialMemoryWords program [] ++ inputWords inputs).Perm
      (preprocessing.initialMemory inputs) := by
    unfold WasmProgramPreprocessing.initialMemory
    rw [memory]
    exact (List.mergeSort_perm _ _).symm
  have index {i : ℕ} {value : U64} (found : inputs[i]? = some value) : i < inputs.length :=
    (List.getElem?_eq_some_iff.mp found).1
  have nodup : ((initialMemoryWords program [] ++ inputWords inputs).map
      MemoryWord.address).Nodup := by
    rw [List.map_append]
    refine (nodup_initialMemoryWords program []).append (nodup_inputWords inputs) ?_
    intro address left right
    obtain ⟨⟨_, value⟩, member, rfl⟩ := List.mem_map.mp left
    obtain ⟨⟨address, value'⟩, member', same⟩ := List.mem_map.mp right
    obtain ⟨-, i, found, at_⟩ := (mem_inputWords inputs).mp member'
    obtain ⟨nonzero, present⟩ := (mem_initialMemoryWords program []).mp member
    have zero := getD_inputAddress program ((index found).trans_le fits) holds
    rw [← at_, show address = _ from same, Std.TreeMap.getD_eq_getD_getElem?, present] at zero
    exact nonzero zero
  refine ⟨(perm.map _).nodup_iff.mp nodup, fun x => ?_⟩
  rw [wordOf_perm nodup perm]
  have image : initialWordMap program inputs =
    WordMap.setEach inputAddress (initialWordMap program []) 0 inputs := rfl
  have aligned (i : ℕ) : inputAddress i % 8 = 0 := by
    have : inputAddress i = 0x90001000 + 8 * i := rfl
    omega
  by_cases input : ∃ i < inputs.length, x = inputAddress i
  · obtain ⟨i, small, rfl⟩ := input
    have value := WordMap.getD_setEach aligned inputAddress_injective (initialWordMap program [])
      (i := 0) small
    rw [Nat.zero_add] at value
    rw [image, value]
    by_cases zero : inputs[i] = 0
    · rw [zero]
      refine wordOf_absent ?_
      rintro ⟨address, word⟩ member same
      rcases List.mem_append.mp member with member | member
      · obtain ⟨nonzero, present⟩ := (mem_initialMemoryWords program []).mp member
        have zero := getD_inputAddress program (small.trans_le fits) holds
        rw [← same, Std.TreeMap.getD_eq_getD_getElem?, present] at zero
        exact nonzero zero
      · obtain ⟨nonzero, j, found, at_⟩ := (mem_inputWords inputs).mp member
        obtain rfl : j = i := inputAddress_injective (at_.symm.trans same)
        rw [List.getElem?_eq_getElem small] at found
        exact nonzero ((Option.some.inj found).symm.trans zero)
    · refine wordOf_mem nodup (List.mem_append_right _ ?_)
      exact (mem_inputWords inputs).mpr ⟨zero, i, List.getElem?_eq_getElem small, rfl⟩
  · rw [image, WordMap.getD_setEach_of_ne aligned _ fun j small same =>
      input ⟨j, small, by rwa [Nat.zero_add] at same⟩, ← wordOf_initialMemoryWords]
    by_cases present : ∃ value, ⟨x, value⟩ ∈ initialMemoryWords program []
    · obtain ⟨value, member⟩ := present
      rw [wordOf_mem (nodup_initialMemoryWords program []) member,
        wordOf_mem nodup (List.mem_append_left _ member)]
    · rw [wordOf_absent (show ∀ word ∈ initialMemoryWords program [], word.address ≠ x by
        rintro ⟨address, value⟩ member rfl
        exact present ⟨value, member⟩)]
      refine wordOf_absent ?_
      rintro ⟨address, value⟩ member rfl
      rcases List.mem_append.mp member with member | member
      · exact present ⟨value, member⟩
      · obtain ⟨-, i, found, at_⟩ := (mem_inputWords inputs).mp member
        exact input ⟨i, index found, at_⟩

end

/-! ## Agreement -/

/-- A list of words agrees with the interpreter's memory, and has no address twice. -/
structure ImageAgrees (words : List MemoryWord) (m : Memory) : Prop where
  nodup : (words.map MemoryWord.address).Nodup
  word : ∀ x, x % wordBytes = 0 → wordOf words x = m.wordOf x

/-- What the initial memory holds a word for. -/
inductive ImageItem where
  | size
  | termination
  | input (i : ℕ)
  | global (i : ℕ)
  | tableWord (slot word : ℕ)
  | cell (j : ℕ)

namespace ImageItem

/-- The guest address of an item's word. -/
def address : ImageItem → ℕ
  | size => memorySizeAddr
  | termination => terminationAddr
  | input i => inputAddress i
  | global i => globalWordAddress i
  | tableWord slot word => tableSlotAddress slot + 8 * word
  | cell j => linearAddress (wasmWordBytes * j)

/-- The items of a program and its inputs; linear memory may grow over all its cells. -/
def Of (program : IrProgram) (inputs : List U64) : ImageItem → Prop
  | size | termination | cell _ => True
  | input i => i < inputs.length
  | global i => i < program.globals.length
  | tableWord slot word => slot < program.table.length ∧ word < 2

end ImageItem

theorem ImageItem.address_eq (item : ImageItem) : item.address =
    match item with
    | size => 0x90000000
    | termination => 0x90000008
    | input i => 0x90001000 + 8 * i
    | global i => 0x90104000 + 8 * i
    | tableWord slot word => 0x90114000 + 16 * slot + 8 * word
    | cell j => 0x90124000 + 8 * j := by
  cases item with
  | cell j =>
      have : linearAddress (wasmWordBytes * j) = linearMemoryBase + 2 * (4 * j) := rfl
      change linearAddress (wasmWordBytes * j) = 0x90124000 + 8 * j
      rw [this, linearMemoryBase_eq]
      omega
  | _ => rfl

/-- Distinct items have distinct words. -/
def ItemsDistinct (program : IrProgram) (inputs : List U64) : Prop :=
  ∀ a b : ImageItem, a.Of program inputs → b.Of program inputs → a.address = b.address → a = b

section

variable {program : IrProgram} {inputs : List U64}

theorem itemsDistinct (fit : program.GlobalsFit) (tableFits : program.table.length ≤ maxTableSlots)
    (fits : inputs.length ≤ maxInputWords) : ItemsDistinct program inputs := by
  have inputsFit : inputs.length ≤ 512 := fits
  have tableFit : program.table.length ≤ 4096 := tableFits
  have globalFits {i : ℕ} (small : i < program.globals.length) :
      i < 8192 ∨ 2 * program.table.length ≤ i - 8192 ∧ i < 16384 := by
    by_cases inside : i < 8192
    · exact .inl inside
    · exact .inr (fit i _ (Nat.not_lt.mp inside) (List.getElem?_eq_getElem small)).2
  intro a b ofA ofB same
  rw [ImageItem.address_eq, ImageItem.address_eq] at same
  cases a with
  | global i =>
      have := globalFits ofA
      cases b <;> simp only [ImageItem.Of, ImageItem.global.injEq, reduceCtorEq] at ofB same ⊢ <;>
        omega
  | _ =>
      cases b with
      | global i =>
          have := globalFits ofB
          simp only [ImageItem.Of, reduceCtorEq] at ofA same ⊢
          omega
      | _ =>
          simp only [ImageItem.Of, ImageItem.input.injEq, ImageItem.tableWord.injEq,
            ImageItem.cell.injEq, reduceCtorEq] at ofA ofB same ⊢ <;> omega

/-- The image agrees with the memory and no two items share a word: then the globals fit. -/
theorem globalsFit_of_agrees (wellFormed : program.WellFormed) {linear : ℕ → BitVec 8}
    (fits : inputs.length ≤ maxInputWords)
    (agrees : ImageAgrees (initialMemoryWords program inputs)
      (Memory.withInputs { Memory.new program.memory program.globals program.table with
        linear := linear } 0 inputs))
    (distinct : ItemsDistinct program inputs) : program.GlobalsFit := by
  intro i value past found
  have declared : i < program.globals.length := (List.getElem?_eq_some_iff.mp found).1
  have past' : 8192 ≤ i := past
  have tableFit : program.table.length ≤ 4096 := wellFormed.table
  have inputsFit : inputs.length ≤ 512 := fits
  have address : globalWordAddress i = 0x90104000 + 8 * i := ImageItem.address_eq (.global i)
  -- The word of a cell or of a table slot is no global's word.
  have low : i < 16384 := by
    by_contra high
    have := distinct (.global i) (.cell (i - 16384)) declared trivial (by
      rw [ImageItem.address_eq, ImageItem.address_eq]
      simp only
      omega)
    cases this
  have free : 2 * program.table.length ≤ i - 8192 := by
    by_contra taken
    have := distinct (.global i) (.tableWord ((i - 8192) / 2) ((i - 8192) % 2)) declared
      ⟨by omega, by omega⟩ (by
        rw [ImageItem.address_eq, ImageItem.address_eq]
        simp only
        omega)
    cases this
  refine ⟨?_, free, low⟩
  have same := agrees.word (globalWordAddress i) (by rw [address, wordBytes]; omega)
  rw [wordOf_initialMemoryWords, getD_initialWordMap program inputs (by omega),
    Memory.wordOf_region _ (by omega) (by omega)
      (show Region.table.base ≤ _ by rw [address]; change 0x90114000 ≤ _; omega)
      (by rw [address]; change _ < 0x90114000 + 0x10000; omega), withInputs_words] at same
  have inputsBase_ : inputsBase = 0x90001000 := rfl
  have sizeAddr : memorySizeAddr = 0x90000000 := rfl
  have tableBase_ : tableBase = 0x90114000 := rfl
  have globalsBase_ : globalsBase = 0x90104000 := rfl
  have index : (globalWordAddress i - globalsBase) / 8 = i := by omega
  rw [inputsBase_, sizeAddr, tableBase_, if_neg (by omega), if_neg (by omega), if_neg (by omega),
    index, if_pos ⟨by omega, declared⟩, List.getD_eq_getElem?_getD, found] at same
  have empty : program.initialWord inputs .table ((globalWordAddress i - Region.table.base) / 8) =
      0 := by
    refine List.getD_eq_default _ _ ?_
    change _ ≤ (globalWordAddress i - 0x90114000) / 8
    rw [length_tableWords]
    omega
  exact same.trans empty

/-- The images of a program's initial memory agree with the interpreter's, and no two items share a
word, exactly when the globals fit. -/
theorem initialMemory_agrees_iff {module : WasmModule} (lowered : lower module = .ok program)
    {machine : Machine} (created : Machine.new program = .ok machine)
    (fits : inputs.length ≤ maxInputWords) :
    ∃ memory, Machine.writeInputs 0 inputs machine.memory = .ok memory ∧
      (ImageAgrees (initialMemoryWords program inputs) memory ∧
        (∀ preprocessing maxTraceLength,
          WasmProgramPreprocessing.new program maxTraceLength = .ok preprocessing →
          ImageAgrees (preprocessing.initialMemory inputs) memory) ∧
        ItemsDistinct program inputs ↔ program.GlobalsFit) := by
  have wellFormed := lower_wellFormed lowered
  obtain ⟨linear, shape, zero, holds⟩ := new_memory wellFormed created
  refine ⟨machine.memory.withInputs 0 inputs, writeInputs_eq _ (by rwa [Nat.zero_add]), ?_⟩
  rw [shape]
  constructor
  · rintro ⟨agrees, -, distinct⟩
    exact globalsFit_of_agrees wellFormed fits agrees distinct
  · intro fit
    have same {x : ℕ} (aligned : x % wordBytes = 0) :=
      getD_eq_wordOf wellFormed zero holds fit fits aligned
    refine ⟨⟨nodup_initialMemoryWords program inputs, fun x aligned => ?_⟩,
      fun preprocessing maxTraceLength preprocessed => ?_,
      itemsDistinct fit wellFormed.table fits⟩
    · rw [wordOf_initialMemoryWords, same aligned]
    · obtain ⟨nodup, words⟩ := initialMemory_words holds fits preprocessed
      exact ⟨nodup, fun x aligned => by rw [words, same aligned]⟩

end

/-- A module with a data segment, a global and a table. -/
def imageModule : WasmModule where
  globals := [⟨.i64, true, 0x1122334455667788⟩]
  memory := some ⟨1, none⟩
  data := [⟨5, [1, 2, 3, 4, 5]⟩, ⟨7, [9]⟩]
  table := some ⟨2, none⟩

theorem initialMemory_agrees_imageModule : ∃ program machine memory,
    lower imageModule = .ok program ∧ Machine.new program = .ok machine ∧
      Machine.writeInputs 0 [7, 8] machine.memory = .ok memory ∧
      (ImageAgrees (initialMemoryWords program [7, 8]) memory ∧
        (∀ preprocessing maxTraceLength,
          WasmProgramPreprocessing.new program maxTraceLength = .ok preprocessing →
          ImageAgrees (preprocessing.initialMemory [7, 8]) memory) ∧
        ItemsDistinct program [7, 8] ↔ program.GlobalsFit) := by
  obtain ⟨memory, agrees⟩ := initialMemory_agrees_iff (show lower imageModule = .ok _ from rfl)
    (show Machine.new _ = .ok _ from rfl) (show [(7 : U64), 8].length ≤ maxInputWords by decide)
  exact ⟨_, _, memory, rfl, rfl, agrees⟩

/-- A module whose last global lies past the globals region. -/
def globalsModule : WasmModule where
  globals := List.replicate regionWords ⟨.i32, false, 0⟩ ++ [⟨.i32, false, 7⟩]

/-- The image of the program holds seven at the first word of the table; the interpreter, zero. -/
theorem initialMemory_not_agrees : ∃ program machine memory,
    lower globalsModule = .ok program ∧ Machine.new program = .ok machine ∧
      Machine.writeInputs 0 [] machine.memory = .ok memory ∧
      ¬ (ImageAgrees (initialMemoryWords program []) memory ∧ ItemsDistinct program []) := by
  have lowered : lower globalsModule = .ok
      { code := [.halt], functions := [], exports := [], entries := [], outputWords := [],
        memory := ⟨0, 0⟩, globals := globalsModule.globals.map Global.init, data := [],
        table := [] } := rfl
  refine ⟨_, _, _, lowered, rfl, rfl, fun ⟨agrees, distinct⟩ => ?_⟩
  obtain ⟨linear, shape, -, -⟩ := new_memory (lower_wellFormed lowered) rfl
  rw [← Memory.withInputs_nil (Machine.memory _) 0, shape] at agrees
  have fit := globalsFit_of_agrees (lower_wellFormed lowered) (Nat.zero_le _) agrees distinct
  have last : (globalsModule.globals.map Global.init)[regionWords]? = some 7 := by
    unfold globalsModule
    rw [List.map_append, List.getElem?_append_right (by simp)]
    simp
  exact absurd (fit regionWords 7 le_rfl last).1 (by decide)

end JoltWasm
