import JoltWasm.Kernels.Folds
import JoltWasm.Kernels.LazyRa
import JoltWasm.Lib.OneHot

/-!
# Chunks of an address

A committed column is one-hot at one chunk of the accessed address.  Folded by the weights of its chunk of a
point it is a lookup in the table of these weights, which is how the lazy columns are built.
-/

namespace JoltWasm

open Lib Finset

variable {F : Type} [Field F]

/-- `committed_address_chunks`: the first chunk is filled up with zeros. -/
def committedAddressChunks (rAddress : List F) (chunkBits : ℕ) : List (List F) :=
  if chunkBits = 0 then []
  else
    let padding := (rAddress.length + chunkBits - 1) / chunkBits * chunkBits - rAddress.length
    chunks chunkBits (List.replicate padding 0 ++ rAddress)

/-- The number of chunks of an address. -/
def chunkCount (width bits : ℕ) : ℕ := (width + bits - 1) / bits

/-- Chunk `i` of an index of 128 bits, the most significant first. -/
def chunkOf (count chunkBits i index : ℕ) : Option ℕ :=
  let shift := (count - 1 - i) * chunkBits
  let mask := 1 <<< chunkBits - 1
  if shift < 128 then some (index >>> shift &&& mask) else none

/-- The digit that the chunk is. -/
def chunkDigit (count chunkBits i index : ℕ) : ℕ := index / 2 ^ ((count - 1 - i) * chunkBits) % 2 ^ chunkBits

theorem chunkOf_eq {count chunkBits : ℕ} (narrow : (count - 1) * chunkBits < 128) (i index : ℕ) :
    chunkOf count chunkBits i index = some (chunkDigit count chunkBits i index) := by
  have shift : (count - 1 - i) * chunkBits < 128 := (Nat.mul_le_mul_right _ (Nat.sub_le _ _)).trans_lt narrow
  rw [chunkOf]
  simp only [if_pos shift]
  rw [Nat.one_shiftLeft, Nat.and_two_pow_sub_one_eq_mod, Nat.shiftRight_eq_div_pow, chunkDigit]

theorem chunkDigit_lt (count chunkBits i index : ℕ) : chunkDigit count chunkBits i index < 2 ^ chunkBits :=
  Nat.mod_lt _ (Nat.two_pow_pos _)

/-! ## The chunks of a point -/

/-- The point filled up to whole chunks. -/
def paddedAddress (rAddress : List F) (chunkBits : ℕ) : List F :=
  List.replicate ((rAddress.length + chunkBits - 1) / chunkBits * chunkBits - rAddress.length) 0 ++ rAddress

/-- Chunk `i` of a point. -/
def chunkPoint (rAddress : List F) (chunkBits i : ℕ) : List F :=
  ((paddedAddress rAddress chunkBits).drop (i * chunkBits)).take chunkBits

theorem length_paddedAddress (rAddress : List F) {chunkBits : ℕ} (positive : 0 < chunkBits) :
    (paddedAddress rAddress chunkBits).length = (rAddress.length + chunkBits - 1) / chunkBits * chunkBits := by
  have covers : rAddress.length ≤ (rAddress.length + chunkBits - 1) / chunkBits * chunkBits := by
    have := Nat.div_add_mod' (rAddress.length + chunkBits - 1) chunkBits
    have := Nat.mod_lt (rAddress.length + chunkBits - 1) positive
    omega
  rw [paddedAddress, List.length_append, List.length_replicate]
  omega

theorem length_chunkPoint (rAddress : List F) {chunkBits i : ℕ} (positive : 0 < chunkBits)
    (inside : i < (rAddress.length + chunkBits - 1) / chunkBits) : (chunkPoint rAddress chunkBits i).length = chunkBits := by
  have room : (i + 1) * chunkBits ≤ (rAddress.length + chunkBits - 1) / chunkBits * chunkBits := Nat.mul_le_mul_right _ inside
  rw [chunkPoint, List.length_take, List.length_drop, length_paddedAddress rAddress positive]
  rw [Nat.succ_mul] at room
  omega

theorem committedAddressChunks_eq (rAddress : List F) {chunkBits : ℕ} (positive : 0 < chunkBits) :
    committedAddressChunks rAddress chunkBits =
      (List.range ((rAddress.length + chunkBits - 1) / chunkBits)).map (chunkPoint rAddress chunkBits) := by
  have whole (count : ℕ) : (count * chunkBits + chunkBits - 1) / chunkBits = count := by
    rw [Nat.add_sub_assoc positive, Nat.mul_comm, Nat.mul_add_div positive, Nat.div_eq_of_lt (by omega), Nat.add_zero]
  rw [committedAddressChunks, if_neg positive.ne']
  change chunks chunkBits (paddedAddress rAddress chunkBits) = _
  rw [chunks, length_paddedAddress rAddress positive, whole]
  rfl

/-- The chunks of a point and of an index make up its weight. -/
theorem prod_chunks (bits : ℕ) {count : ℕ} {point : List F} (length : point.length = count * bits) (k : ℕ) :
    ∏ i ∈ range count, eqWeight ((point.drop (i * bits)).take bits) (k / 2 ^ ((count - 1 - i) * bits)) = eqWeight point k := by
  induction count generalizing point k with
  | zero =>
      rw [Nat.zero_mul, List.length_eq_zero_iff] at length
      rw [length, prod_range_zero, eqWeight]
  | succ count ih =>
      rw [Nat.succ_mul] at length
      have high : (point.take (count * bits)).length = count * bits := by
        rw [List.length_take]
        omega
      have low : (point.drop (count * bits)).length = bits := by
        rw [List.length_drop]
        omega
      have last : (point.drop (count * bits)).take bits = point.drop (count * bits) := List.take_of_length_le low.le
      have earlier : ∀ i ∈ range count, eqWeight ((point.drop (i * bits)).take bits) (k / 2 ^ ((count + 1 - 1 - i) * bits)) =
          eqWeight (((point.take (count * bits)).drop (i * bits)).take bits) (k / 2 ^ bits / 2 ^ ((count - 1 - i) * bits)) := by
        intro i member
        have inside := mem_range.mp member
        have room : (i + 1) * bits ≤ count * bits := Nat.mul_le_mul_right _ inside
        rw [Nat.succ_mul] at room
        have shift : (count + 1 - 1 - i) * bits = bits + (count - 1 - i) * bits := by
          have step : count + 1 - 1 - i = (count - 1 - i) + 1 := by omega
          rw [step, Nat.succ_mul, Nat.add_comm]
        have within : ((point.take (count * bits)).drop (i * bits)).take bits = (point.drop (i * bits)).take bits := by
          rw [List.drop_take, List.take_take, Nat.min_eq_left (by omega)]
        rw [shift, pow_add, ← Nat.div_div_eq_div_mul, within]
      have zero : (count + 1 - 1 - count) * bits = 0 := by
        rw [Nat.add_sub_cancel, Nat.sub_self, Nat.zero_mul]
      rw [prod_range_succ, prod_congr rfl earlier, ih high, last, zero, pow_zero, Nat.div_one]
      conv_rhs => rw [← List.take_append_drop (count * bits) point, eqWeight_append, low]

/-- Zeros in front weigh a small index like the point itself. -/
theorem eqWeight_zeros (zeros : ℕ) (point : List F) {k : ℕ} (inside : k < 2 ^ point.length) :
    eqWeight (List.replicate zeros 0 ++ point) k = eqWeight point k := by
  induction zeros with
  | zero => rfl
  | succ zeros ih =>
      have more : point.length ≤ (List.replicate zeros (0 : F) ++ point).length := by
        rw [List.length_append]
        omega
      rw [List.replicate_succ, List.cons_append, eqWeight_cons_low _ _ (inside.trans_le (Nat.pow_le_pow_right two_pos more)),
        sub_zero, one_mul, ih]

/-- The chunks of an address and of a place below its size make up the weight of the place. -/
theorem prod_chunkPoint (rAddress : List F) {bits : ℕ} (positive : 0 < bits) {k : ℕ} (inside : k < 2 ^ rAddress.length) :
    ∏ i ∈ range ((rAddress.length + bits - 1) / bits), eqWeight (chunkPoint rAddress bits i)
      (chunkDigit ((rAddress.length + bits - 1) / bits) bits i k) = eqWeight rAddress k := by
  rw [← eqWeight_zeros ((rAddress.length + bits - 1) / bits * bits - rAddress.length) rAddress inside]
  change _ = eqWeight (paddedAddress rAddress bits) k
  rw [← prod_chunks bits (length_paddedAddress rAddress positive) k]
  refine prod_congr rfl fun i member => ?_
  have length := length_chunkPoint rAddress positive (mem_range.mp member)
  have reduced := eqWeight_mod (chunkPoint rAddress bits i) (k / 2 ^ (((rAddress.length + bits - 1) / bits - 1 - i) * bits))
  rw [length] at reduced
  exact reduced

/-! ## The lazy columns -/

/-- No challenge is bound yet. -/
theorem LazyFoldedRa.bound_fresh (tables : List (List F)) (source : ChunkIndexSource) (columns : ℕ → ℕ → F) (n : ℕ) :
    Bound tables source columns n [] (.lazy tables 1 source) := by
  have fresh : Bound tables source columns n [] (.lazy (tables.map fun table => branches table []) (2 ^ ([] : List F).length) source) :=
    .lazy (Nat.zero_lt_succ 3)
  simpa only [branches_nil, List.map_id', List.length_nil, pow_zero] using fresh

section

variable {tables : List (List F)} {source : ChunkIndexSource} {columns : ℕ → ℕ → F} {n m : ℕ} {low : List F}
  {state : LazyFoldedRa F}

/-- The pair of a column that a round reads of a row. -/
theorem sumcheckEvalPair_row (f : List F → F) {row : ℕ} (inside : row < 2 ^ m) (low : List F) :
    (tabulatedPolynomial f (m + 1) low).sumcheckEvalPair row .lowToHigh =
      (f (bitPoint F m row ++ 0 :: low), f (bitPoint F m row ++ 1 :: low)) := by
  have before : 2 * row + 1 < 2 ^ (m + 1) := by
    rw [pow_succ]
    omega
  obtain ⟨even, odd⟩ := bitPoint_double (F := F) m row
  rw [LazyFoldedRa.sumcheckEvalPair_tabulated _ _ before, even, odd, List.append_assoc, List.append_assoc]
  rfl

theorem length_row {row : ℕ} (inside : row < 2 ^ m) (f : List F → F) (low : List F) :
    2 * row + 1 < (tabulatedPolynomial f (m + 1) low).evals.length := by
  rw [tabulatedPolynomial, length_tabulated, pow_succ]
  omega

theorem LazyFoldedRa.Bound.reads (bound : Bound tables source columns (m + 1) low state)
    (holds : Columns tables source columns n) (lengths : m + 1 + low.length = n) {row : ℕ} (inside : row < 2 ^ m) :
    state.loHiAll row = some ((List.range tables.length).map fun i =>
      (extension (columns i) (bitPoint F m row ++ 0 :: low), extension (columns i) (bitPoint F m row ++ 1 :: low))) := by
  rw [(bound.agrees holds lengths).loHiAll row, boundColumns, List.map_map]
  · exact congrArg some (List.map_congr_left fun i _ => sumcheckEvalPair_row _ inside low)
  · intro poly member
    obtain ⟨i, -, rfl⟩ := List.mem_map.mp member
    exact length_row inside _ low

theorem LazyFoldedRa.Bound.reads_one (bound : Bound tables source columns (m + 1) low state)
    (holds : Columns tables source columns n) (lengths : m + 1 + low.length = n) {row : ℕ} (inside : row < 2 ^ m) {i : ℕ}
    (listed : i < tables.length) : state.loHi i row =
      some (extension (columns i) (bitPoint F m row ++ 0 :: low), extension (columns i) (bitPoint F m row ++ 1 :: low)) := by
  have there : (boundColumns tables.length columns (m + 1) low)[i]? =
      some (tabulatedPolynomial (extension (columns i)) (m + 1) low) := by
    rw [boundColumns, List.getElem?_map, List.getElem?_range listed]
    rfl
  rw [(bound.agrees holds lengths).loHi i row _ there (length_row inside _ low), sumcheckEvalPair_row _ inside]

end

/-- All variables are bound. -/
theorem LazyFoldedRa.Bound.finalValues_eq {tables : List (List F)} {source : ChunkIndexSource} {columns : ℕ → ℕ → F}
    {point : List F} {state : LazyFoldedRa F} (bound : Bound tables source columns 0 point state)
    (holds : Columns tables source columns point.length) :
    state.finalValues = some ((List.range tables.length).map fun i => extension (columns i) point) := by
  rw [finalValues, bound.numPolys_eq]
  refine UnivariatePoly.mapM_some fun i member => ?_
  exact bound.value_eq holds (Nat.zero_add _) (List.mem_range.mp member) Nat.one_pos

/-- The tables of scaled weights of some points, where every cycle is hot inside or cold. -/
theorem LazyFoldedRa.columns_of_hot {source : ChunkIndexSource} {n : ℕ} (cycles : source.cycles = 2 ^ n) (count : ℕ)
    (scale : ℕ → F) (points : ℕ → List F) (hot : ℕ → ℕ → Option ℕ)
    (indexed : ∀ i < count, ∀ j < 2 ^ n, source.index i j = some (hot i j))
    (inside : ∀ i < count, ∀ j < 2 ^ n, ∀ k ∈ hot i j, k < 2 ^ (points i).length) :
    Columns ((List.range count).map fun i => EqPolynomial.table (scale i) (points i)) source
      (fun i j => scale i * hotAt (points i) (hot i) j) n where
  cycles := cycles
  cells i table found j below := by
    rw [List.getElem?_map] at found
    obtain ⟨listed, rfl⟩ : i < count ∧ EqPolynomial.table (scale i) (points i) = table := by
      by_cases listed : i < count
      · rw [List.getElem?_range listed] at found
        exact ⟨listed, Option.some.inj found⟩
      · rw [List.getElem?_eq_none (by rw [List.length_range]; exact Nat.not_lt.mp listed)] at found
        cases found
    rw [cell, indexed i listed j below, Option.bind_eq_bind, Option.bind_some]
    cases here : hot i j with
    | none => rw [lookupEntry, hotAt_cold _ here, mul_zero]
    | some k =>
        have small := inside i listed j below k here
        have length := EqPolynomial.length_table (scale i) (points i)
        rw [lookupEntry, Nat.zero_add, hotAt_hot here small, List.getElem?_eq_getElem (length ▸ small),
          ← List.getD_eq_getElem _ 0, EqPolynomial.getD_table _ _ small]

end JoltWasm
