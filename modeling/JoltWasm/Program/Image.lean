import Mathlib.Tactic.Translate.GuessName
import JoltWasm.Backend.Run
import JoltWasm.Ir.Bytecode

/-!
# The public initial memory

The non-zero words of guest memory before execution, as the RAM argument reads them: data segments,
globals, the function table, the size word and the inputs, written byte by byte into a sparse map of
words.
-/

namespace JoltWasm

open Layout

/-- One initial memory word at an aligned guest address. -/
structure MemoryWord where
  address : ℕ
  value : U64
  deriving DecidableEq

/-- The sparse memory image. -/
abbrev WordMap := Std.TreeMap ℕ U64

/-- `to_le_bytes` of a word. -/
def toLeBytes (v : U64) : List (BitVec 8) := (List.range 8).map fun b => v.extractLsb' (8 * b) 8

namespace WordMap

/-- The word with byte `b` in place of its byte `k`. -/
def putByte (word : U64) (k : ℕ) (byte : BitVec 8) : U64 :=
  (word &&& ~~~((0xFF : U64) <<< (k * 8))) ||| (byte.setWidth 64 <<< (k * 8))

def setByte (words : WordMap) (address : ℕ) (byte : BitVec 8) : WordMap :=
  let wordAddress := address - address % 8
  words.insert wordAddress (putByte (words.getD wordAddress 0) (address % 8) byte)

/-- Set consecutive bytes. -/
def setBytes (words : WordMap) (address : ℕ) : List (BitVec 8) → WordMap
  | [] => words
  | byte :: bytes => setBytes (setByte words address byte) (address + 1) bytes

/-- Write the bytes of a data segment from linear-memory byte `a` on, each into its cell. -/
def setSegment (words : WordMap) (a : ℕ) : List (BitVec 8) → WordMap
  | [] => words
  | byte :: bytes =>
      let cell := linearAddress (a - a % wasmWordBytes)
      setSegment (setByte words (cell + a % wasmWordBytes) byte) (a + 1) bytes

/-- Write the bytes of the words at the addresses of the indices from `i` on. -/
def setEach (address : ℕ → ℕ) (words : WordMap) (i : ℕ) : List U64 → WordMap
  | [] => words
  | value :: values => setEach address (setBytes words (address i) (toLeBytes value)) (i + 1) values

/-- Write the two words of the table slots from slot `i` on. -/
def setTable (words : WordMap) (i : ℕ) : List (Option TableSlot) → WordMap
  | [] => words
  | slot :: slots =>
      setTable (setEach (fun word => tableSlotAddress i + 8 * word) words 0 (TableSlot.words slot))
        (i + 1) slots

end WordMap

/-- Address of global `i`. -/
def globalWordAddress (i : ℕ) : ℕ := globalsBase + 8 * i

open WordMap in
/-- The map that `initial_memory_words` builds. -/
def initialWordMap (program : IrProgram) (inputs : List U64) : WordMap :=
  let words := program.data.foldl (fun words segment => setSegment words segment.offset segment.bytes)
    (∅ : WordMap)
  let words := setEach globalWordAddress words 0 program.globals
  let words := setTable words 0 program.table
  let size := program.memory.initialPages * pageSize
  let words := setBytes words memorySizeAddr (toLeBytes (BitVec.ofNat 64 size))
  setEach inputAddress words 0 inputs

/-- The non-zero initial words, in increasing address order. -/
def initialMemoryWords (program : IrProgram) (inputs : List U64) : List MemoryWord :=
  ((initialWordMap program inputs).toList.filter fun entry => entry.2 ≠ 0).map
    fun (address, value) => ⟨address, value⟩

/-- What prover and verifier agree on about a program before any execution. -/
structure WasmProgramPreprocessing where
  bytecode : WasmBytecode
  /-- Non-zero program memory words. -/
  programMemory : List MemoryWord
  memory : MemoryLimits
  maxTraceLength : ℕ

namespace WasmProgramPreprocessing

def new (program : IrProgram) (maxTraceLength : ℕ) :
    Except PreprocessingError WasmProgramPreprocessing := do
  let bytecode ← WasmBytecode.preprocess program
  return ⟨bytecode, initialMemoryWords program [], program.memory, maxTraceLength⟩

/-- The program words and the non-zero inputs, in increasing address order. -/
def initialMemory (preprocessing : WasmProgramPreprocessing) (inputs : List U64) :
    List MemoryWord :=
  let inputWords : List MemoryWord := (inputs.zipIdx.filter fun entry => entry.1 ≠ 0).map
    fun (value, i) => ⟨inputAddress i, value⟩
  (preprocessing.programMemory ++ inputWords).mergeSort fun a b => decide (a.address ≤ b.address)

end WasmProgramPreprocessing

/-! ## Words of the image -/

/-- The word a list of words gives an address; absent words are zero. -/
def wordOf (words : List MemoryWord) (address : ℕ) : U64 :=
  ((words.find? fun word => word.address == address).map MemoryWord.value).getD 0

/-- The word of the interpreter's memory at an address; there is none outside the regions. -/
def Memory.wordOf (m : Memory) (address : ℕ) : U64 :=
  if address < 2 ^ 64 then
    match m.readWord (BitVec.ofNat 64 address) with
    | .ok value => value
    | .error _ => 0
  else 0

namespace WordMap

theorem getLsbD_putByte {word : U64} {k : ℕ} {byte : BitVec 8} {i : ℕ} (small : i < 64) :
    (putByte word k byte).getLsbD i =
      if i / 8 = k then byte.getLsbD (i % 8) else word.getLsbD i := by
  have mask : (0xFF : U64).getLsbD (i - k * 8) = decide (i - k * 8 < 8) := by
    change (BitVec.ofNat 64 (2 ^ 8 - 1)).getLsbD (i - k * 8) = _
    rw [BitVec.getLsbD_ofNat, Nat.testBit_two_pow_sub_one]
    rw [Bool.and_eq_right_iff_imp]
    intro low
    have := of_decide_eq_true low
    exact decide_eq_true (by omega)
  unfold putByte
  rw [BitVec.getLsbD_or, BitVec.getLsbD_and, BitVec.getLsbD_not, BitVec.getLsbD_shiftLeft,
    BitVec.getLsbD_shiftLeft, mask, BitVec.getLsbD_setWidth]
  by_cases here : i / 8 = k
  · have : i - k * 8 = i % 8 := by omega
    have : ¬ i < k * 8 := by omega
    have : i % 8 < 64 := by omega
    have : i % 8 < 8 := by omega
    simp [*]
  · rw [if_neg here]
    by_cases before : i < k * 8
    · simp [before, small]
    · have : ¬ i - k * 8 < 8 := by omega
      have : byte.getLsbD (i - k * 8) = false := BitVec.getLsbD_of_ge _ _ (by omega)
      simp [*]

theorem getD_setByte (words : WordMap) (address : ℕ) (byte : BitVec 8) (x : ℕ) :
    (setByte words address byte).getD x 0 =
      if x = address - address % 8 then putByte (words.getD x 0) (address % 8) byte
      else words.getD x 0 := by
  unfold setByte
  rw [Std.TreeMap.getD_insert]
  by_cases here : x = address - address % 8
  · subst here
    simp
  · rw [if_neg here, if_neg]
    simpa [compare_eq_iff_eq] using Ne.symm here

/-- Setting the bytes of a word from byte `k` on, bit by bit. -/
theorem getLsbD_setBytes_from (value : U64) {address : ℕ} (aligned : address % 8 = 0) (n k : ℕ)
    (end_ : k + n = 8) (words : WordMap) (x : ℕ) {i : ℕ} (small : i < 64) :
    ((setBytes words (address + k)
      ((List.range' k n).map fun b => value.extractLsb' (8 * b) 8)).getD x 0).getLsbD i =
      if x = address ∧ k ≤ i / 8 then value.getLsbD i else (words.getD x 0).getLsbD i := by
  induction n generalizing k words with
  | zero =>
      rw [if_neg (by omega)]
      rfl
  | succ n ih =>
      have offset : (address + k) % 8 = k := by omega
      have word : address + k - k = address := by omega
      rw [List.range'_succ, List.map_cons, setBytes, Nat.add_assoc, ih (k + 1) (by omega),
        getD_setByte, offset, word]
      by_cases here : x = address
      · rw [if_pos here, getLsbD_putByte small]
        rcases lt_trichotomy k (i / 8) with before | rfl | after
        · rw [if_pos ⟨here, before⟩, if_pos ⟨here, before.le⟩]
        · have bit : i = 8 * (i / 8) + i % 8 := (Nat.div_add_mod i 8).symm
          rw [if_neg (by omega), if_pos rfl, if_pos ⟨here, le_rfl⟩, BitVec.getLsbD_extractLsb',
            ← bit]
          have : i % 8 < 8 := by omega
          simp [this]
        · rw [if_neg (by omega), if_neg (by omega), if_neg (by omega)]
      · rw [if_neg here, if_neg (by tauto), if_neg (by tauto)]

/-- Setting the bytes of a word sets the word. -/
theorem getD_setBytes (words : WordMap) {address : ℕ} (aligned : address % 8 = 0) (value : U64)
    (x : ℕ) : (setBytes words address (toLeBytes value)).getD x 0 =
      if x = address then value else words.getD x 0 := by
  refine BitVec.eq_of_getLsbD_eq fun i small => ?_
  have := getLsbD_setBytes_from value aligned 8 0 rfl words x small
  rw [Nat.add_zero, ← List.range_eq_range'] at this
  rw [toLeBytes, this]
  by_cases here : x = address
  · rw [if_pos ⟨here, Nat.zero_le _⟩, if_pos here]
  · rw [if_neg (by tauto), if_neg here]

section

variable {address : ℕ → ℕ} (aligned : ∀ i, address i % 8 = 0)

include aligned

/-- Words at other addresses stay. -/
theorem getD_setEach_of_ne {values : List U64} (words : WordMap) {i x : ℕ}
    (other : ∀ j < values.length, x ≠ address (i + j)) :
    (setEach address words i values).getD x 0 = words.getD x 0 := by
  induction values generalizing words i with
  | nil => rfl
  | cons value values ih =>
      rw [setEach, ih, getD_setBytes words (aligned i), if_neg]
      · exact other 0 (Nat.zero_lt_succ _)
      · intro j small
        rw [Nat.add_right_comm, Nat.add_assoc]
        exact other (j + 1) (Nat.succ_lt_succ small)

/-- Each index's address holds its value. -/
theorem getD_setEach (injective : Function.Injective address) {values : List U64}
    (words : WordMap) {i j : ℕ} (small : j < values.length) :
    (setEach address words i values).getD (address (i + j)) 0 = values[j] := by
  induction values generalizing words i j with
  | nil => exact absurd small (Nat.not_lt_zero j)
  | cons value values ih =>
      rw [setEach]
      cases j with
      | zero =>
          rw [getD_setEach_of_ne aligned, getD_setBytes words (aligned i)]
          · simp
          · intro j _ same
            have := injective same
            omega
      | succ j =>
          rw [show i + (j + 1) = i + 1 + j by omega, ih _ (Nat.lt_of_succ_lt_succ small)]
          rfl

end

end WordMap

end JoltWasm
