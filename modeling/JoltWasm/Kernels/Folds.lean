import JoltWasm.Field.Element
import JoltWasm.Kernels.Support
import JoltWasm.Kernels.ProductUniskip
import JoltWasm.Lib.Suffixes

/-!
# Folds of raw columns

Vectors that are filled chunk by chunk, sums of products over the pairs of two tables, and columns of 64-bit
values that are folded by a table of field elements in two halves.
-/

namespace JoltWasm

open Lib Mont Finset

open SpartanProduct (Scalar fmaddU64)

/-- A vector of rows of `rowBytes` bytes each: an allocation has at most `isize::MAX` bytes. -/
structure RowVec (rowBytes : ℕ) (Row : Type) where
  rows : List Row
  fits : rowBytes * rows.length < 2 ^ 63

/-- `Vec::new`. -/
def RowVec.new {rowBytes : ℕ} {Row : Type} : RowVec rowBytes Row := ⟨[], Nat.two_pow_pos 63⟩

/-- The rows of an allocation, of a word at least, leave room for sixty variables at most. -/
theorem RowVec.few {rowBytes n : ℕ} {Row : Type} (vec : RowVec rowBytes Row) (wide : 8 ≤ rowBytes)
    (all : vec.rows.length = 2 ^ n) : n < 60 := by
  have fits := (Nat.mul_le_mul_right _ wide).trans_lt vec.fits
  rw [all] at fits
  by_contra many
  have large : 2 ^ 60 ≤ 2 ^ n := Nat.pow_le_pow_right two_pos (not_lt.mp many)
  omega

/-! ## Chunks -/

section

variable {α β : Type}

/-- `chunks(size)`; the last may be shorter. -/
def chunks (size : ℕ) (l : List α) : List (List α) :=
  (List.range ((l.length + size - 1) / size)).map fun index => (l.drop (index * size)).take size

/-- `chunks_mut(size).enumerate()`: every chunk is filled on its own, by its index and its length. -/
def fillChunks (size len : ℕ) (fill : ℕ → ℕ → Option (List α)) : Option (List α) := do
  let chunks ← (List.range ((len + size - 1) / size)).mapM fun index => fill index (min size (len - index * size))
  return chunks.flatten

/-- The indices, chunk by chunk. -/
theorem range_chunks {size : ℕ} (positive : 0 < size) (len : ℕ) : List.range len =
    (List.range ((len + size - 1) / size)).flatMap fun index =>
      (List.range (min size (len - index * size))).map fun i => index * size + i := by
  obtain ⟨count, rest, small, rfl⟩ : ∃ count rest, rest < size ∧ len = count * size + rest :=
    ⟨len / size, len % size, Nat.mod_lt _ positive, (Nat.div_add_mod' len size).symm⟩
  have whole : (List.range count).flatMap (fun index => (List.range (min size (count * size + rest - index * size))).map
      fun i => index * size + i) = List.range (count * size) := by
    rw [range_blocks]
    refine List.flatMap_congr fun index member => ?_
    have below := Nat.mul_le_mul_right size (Nat.succ_le_of_lt (List.mem_range.mp member))
    rw [Nat.succ_mul] at below
    rw [min_eq_left (by omega)]
  rcases Nat.eq_zero_or_pos rest with rfl | some_
  · have number : (count * size + 0 + size - 1) / size = count := by
      rw [Nat.add_zero, Nat.add_sub_assoc positive, Nat.mul_comm, Nat.mul_add_div positive,
        Nat.div_eq_of_lt (by omega), Nat.add_zero]
    rw [number, whole, Nat.add_zero]
  · have number : (count * size + rest + size - 1) / size = count + 1 := by
      have split : count * size + rest + size - 1 = size * (count + 1) + (rest - 1) := by
        rw [Nat.mul_add, Nat.mul_one, Nat.mul_comm]
        omega
      rw [split, Nat.mul_add_div positive, Nat.div_eq_of_lt (by omega), Nat.add_zero]
    rw [number, List.range_succ, List.flatMap_append, whole, List.flatMap_singleton, Nat.add_sub_cancel_left,
      min_eq_right small.le, List.range_add]

/-- Chunks that hold their part of a vector fill the vector. -/
theorem fillChunks_eq {size : ℕ} (positive : 0 < size) {len : ℕ} {fill : ℕ → ℕ → Option (List α)} {g : ℕ → α}
    (each : ∀ index n, index * size + n ≤ len → n ≤ size →
      fill index n = some ((List.range n).map fun i => g (index * size + i))) :
    fillChunks size len fill = some ((List.range len).map g) := by
  have inside (index : ℕ) (member : index ∈ List.range ((len + size - 1) / size)) : index * size < len := by
    have below := (Nat.le_div_iff_mul_le positive).mp (Nat.succ_le_of_lt (List.mem_range.mp member))
    rw [Nat.succ_mul] at below
    omega
  rw [fillChunks, UnivariatePoly.mapM_some fun index member => each index _
    (by have := inside index member; omega) (min_le_left _ _)]
  simp only [Option.bind_eq_bind, Option.bind_some, Option.pure_def]
  refine congrArg some ?_
  rw [range_chunks positive len, List.map_flatMap, ← List.flatMap_def]
  simp only [List.map_map]
  rfl

theorem take_drop_eq_map (default : α) {l : List α} {start count : ℕ} (inside : start + count ≤ l.length) :
    (l.drop start).take count = (List.range count).map fun k => l.getD (start + k) default := by
  refine List.ext_getElem (by rw [List.length_take, List.length_drop, List.length_map, List.length_range]; omega)
    fun k _ below => ?_
  rw [List.length_map, List.length_range] at below
  rw [List.getElem_take, List.getElem_drop, List.getElem_map, List.getElem_range, List.getD_eq_getElem _ _ (by omega)]

/-- A loop that updates every slot of a list in each step. -/
theorem foldlM_slots {ι A : Type} (slots : List ι) (update : β → ι → A → A) {step : List A → β → Option (List A)}
    (bs : List β) (steps : ∀ b ∈ bs, ∀ state : ι → A,
      step (slots.map state) b = some (slots.map fun i => update b i (state i))) (state : ι → A) :
    bs.foldlM step (slots.map state) = some (slots.map fun i => bs.foldl (fun x b => update b i x) (state i)) := by
  induction bs generalizing state with
  | nil => rfl
  | cons b bs ih =>
      rw [List.foldlM_cons, steps b List.mem_cons_self, Option.bind_eq_bind, Option.bind_some,
        ih fun b member => steps b (List.mem_cons_of_mem _ member)]
      rfl

theorem zipIdx_map_range (count : ℕ) (g : ℕ → α) :
    ((List.range count).map g).zipIdx = (List.range count).map fun i => (g i, i) :=
  List.ext_getElem (by simp) fun i _ _ => by simp

/-- Chunks of a power of two. -/
theorem chunks_eq {a b : ℕ} {l : List α} (all : l.length = 2 ^ (a + b)) :
    chunks (2 ^ b) l = (List.range (2 ^ a)).map fun index => (l.drop (index * 2 ^ b)).take (2 ^ b) := by
  have positive := Nat.two_pow_pos b
  rw [chunks, all, pow_add, Nat.add_sub_assoc positive, Nat.mul_comm, Nat.mul_add_div positive,
    Nat.div_eq_of_lt (by omega), Nat.add_zero]

end

/-! ## Sums of products -/

section

variable (ark : ArkFr)

/-- `fmadd` on the accumulator of products. -/
def fmadd (accumulator : Slots) (a b : Scalar) : Slots :=
  (WideAccumulator.accumulator ark).fmadd accumulator (.ofValue a) (.ofValue b)

/-- Products that are accumulated two at a time: one pair in each of two accumulators. -/
def fmaddBoth (accumulators : Slots × Slots) (first second : Scalar × Scalar) : Slots × Slots :=
  (fmadd ark accumulators.1 first.1 first.2, fmadd ark accumulators.2 second.1 second.2)

/-- `Accumulator::default` twice. -/
def bothDefault : Slots × Slots := ((WideAccumulator.accumulator ark).default, (WideAccumulator.accumulator ark).default)

/-- `reduce` of both. -/
def bothReduce (accumulators : Slots × Slots) : Option (Scalar × Scalar) := do
  return (← WideAccumulator.result ark accumulators.1, ← WideAccumulator.result ark accumulators.2)

/-- The calls of these products. -/
def fmaddCalls (products : List (Scalar × Scalar)) : List Op := products.map fun p => .fmadd (.ofValue p.1) (.ofValue p.2)

theorem foldl_fmadd (products : List (Scalar × Scalar)) :
    products.foldl (fun accumulator p => fmadd ark accumulator p.1 p.2) (WideAccumulator.accumulator ark).default =
      (History.ofCalls (fmaddCalls products)).run (WideAccumulator.accumulator ark) := by
  induction products using List.reverseRecOn with
  | nil => rfl
  | append_singleton products p ih =>
      have calls : fmaddCalls (products ++ [p]) = fmaddCalls products ++ [.fmadd (.ofValue p.1) (.ofValue p.2)] :=
        List.map_append
      rw [List.foldl_append, ih, List.foldl_cons, List.foldl_nil, calls, History.run_ofCalls_concat]
      rfl

theorem result_fmaddCalls {products : List (Scalar × Scalar)} (few : products.length ≤ 2 ^ 61) :
    WideAccumulator.result ark ((History.ofCalls (fmaddCalls products)).run (WideAccumulator.accumulator ark)) =
      some (products.map fun p => p.1 * p.2).sum := by
  rw [WideAccumulator.result_ofCalls ark (by rwa [fmaddCalls, List.length_map]), fmaddCalls, List.map_map]
  refine congrArg (fun l : List Scalar => some l.sum) (List.map_congr_left fun p _ => ?_)
  rw [Function.comp_apply, Op.value, Fr.value_ofValue, Fr.value_ofValue]

/-- Both sums of products. -/
theorem bothReduce_foldl {γ : Type} {terms : List γ} (few : terms.length ≤ 2 ^ 61) (first second : γ → Scalar × Scalar) :
    bothReduce ark (terms.foldl (fun accumulators x => fmaddBoth ark accumulators (first x) (second x)) (bothDefault ark)) =
      some ((terms.map fun x => (first x).1 * (first x).2).sum, (terms.map fun x => (second x).1 * (second x).2).sum) := by
  have apart (accumulators : Slots × Slots) :
      terms.foldl (fun accumulators x => fmaddBoth ark accumulators (first x) (second x)) accumulators =
        ((terms.map first).foldl (fun accumulator p => fmadd ark accumulator p.1 p.2) accumulators.1,
          (terms.map second).foldl (fun accumulator p => fmadd ark accumulator p.1 p.2) accumulators.2) := by
    clear few
    induction terms generalizing accumulators with
    | nil => rfl
    | cons x terms ih => rw [List.foldl_cons, ih, List.map_cons, List.map_cons, List.foldl_cons, List.foldl_cons, fmaddBoth]
  rw [apart, bothDefault, foldl_fmadd, foldl_fmadd, bothReduce, result_fmaddCalls ark (by rwa [List.length_map]),
    result_fmaddCalls ark (by rwa [List.length_map]), List.map_map, List.map_map]
  rfl

/-! ## Half words -/

/-- `value >> 32`. -/
def highHalf (value : Mont.U64) : Mont.U64 := ⟨value.val / 2 ^ 32, by have := value.isLt; omega⟩

/-- `value & 0xFFFFFFFF`. -/
def lowHalf (value : Mont.U64) : Mont.U64 := ⟨value.val % 2 ^ 32, by omega⟩

theorem highHalf_lt (value : Mont.U64) : (highHalf value).val < 2 ^ 32 := by
  have := value.isLt
  change value.val / 2 ^ 32 < 2 ^ 32
  omega

theorem lowHalf_lt (value : Mont.U64) : (lowHalf value).val < 2 ^ 32 := Nat.mod_lt _ (Nat.two_pow_pos 32)

/-- `fmadd_u64_split`; `eqShifted` is `eq * 2 ^ 32`. -/
def fmaddU64Split (accumulator : FrSmallScalarAccumulator) (eq eqShifted : Scalar) (value : Mont.U64) :
    FrSmallScalarAccumulator :=
  fmaddU64 ark (fmaddU64 ark accumulator eqShifted (highHalf value)) eq (lowHalf value)

/-- `mul_pow_2(32)`. -/
def shifted (eq : Scalar) : Scalar := eq * 2 ^ 32

/-- The two products of a term. -/
def halves (term : Scalar × Mont.U64) : List (Scalar × Mont.U64) :=
  [(shifted term.1, highHalf term.2), (term.1, lowHalf term.2)]

theorem sum_halves (term : Scalar × Mont.U64) :
    ((halves term).map fun p => p.1 * (p.2.val : Scalar)).sum = term.1 * (term.2.val : Scalar) := by
  have whole : (term.2.val : Scalar) = ((term.2.val / 2 ^ 32 : ℕ) : Scalar) * 2 ^ 32 + ((term.2.val % 2 ^ 32 : ℕ) : Scalar) := by
    have split := congrArg (Nat.cast (R := Scalar)) (Nat.div_add_mod' term.2.val (2 ^ 32)).symm
    push_cast at split
    exact split
  rw [halves, List.map_cons, List.map_cons, List.map_nil, List.sum_cons, List.sum_cons, List.sum_nil, whole, highHalf,
    lowHalf, shifted]
  ring

/-- A half word times a canonical element. -/
theorem half_le (e : Scalar) {half : ℕ} (small : half < 2 ^ 32) : montgomeryForm e * half ≤ 2 ^ 286 :=
  have below : montgomeryForm e < 2 ^ 254 := (montgomeryForm_lt e).trans (by norm_num [Mont.order])
  ((Nat.mul_lt_mul'' below small).trans_eq (Nat.pow_add 2 254 32).symm).le

theorem rawSum_cons (e : Scalar) (scalar : Mont.U64) (products : List (Scalar × Mont.U64)) :
    rawSum ((e, scalar) :: products) = montgomeryForm e * scalar.val + rawSum products := by
  rw [rawSum, List.map_cons, List.sum_cons, ← rawSum]

theorem rawSum_halves_le (terms : List (Scalar × Mont.U64)) :
    rawSum (terms.flatMap halves) ≤ terms.length * 2 ^ 287 := by
  induction terms with
  | nil => exact Nat.zero_le _
  | cons term terms ih =>
      have high := half_le (shifted term.1) (highHalf_lt term.2)
      have low := half_le term.1 (lowHalf_lt term.2)
      have both : 2 ^ 286 + (2 ^ 286 + terms.length * 2 ^ 287) = (terms.length + 1) * 2 ^ 287 := by
        rw [Nat.pow_succ 2 286]
        ring
      rw [List.flatMap_cons, halves, List.cons_append, List.cons_append, List.nil_append, rawSum_cons, rawSum_cons,
        List.length_cons, ← both]
      exact Nat.add_le_add high (Nat.add_le_add low ih)

/-- A term of a folded column. -/
def splitStep (accumulator : FrSmallScalarAccumulator) (term : Scalar × Mont.U64) : FrSmallScalarAccumulator :=
  fmaddU64Split ark accumulator term.1 (shifted term.1) term.2

theorem foldl_splitStep (terms : List (Scalar × Mont.U64)) :
    terms.foldl (splitStep ark) (FrSmallScalarAccumulator.accumulator ark).default =
      (History.ofCalls (productCalls (terms.flatMap halves))).run (FrSmallScalarAccumulator.accumulator ark) := by
  induction terms using List.reverseRecOn with
  | nil => rfl
  | append_singleton terms term ih =>
      have calls : productCalls ((terms ++ [term]).flatMap halves) = productCalls (terms.flatMap halves) ++
          [.fmaddU64 (.ofValue (shifted term.1)) (highHalf term.2)] ++ [.fmaddU64 (.ofValue term.1) (lowHalf term.2)] := by
        rw [List.flatMap_append, List.flatMap_singleton, halves, productCalls, List.map_append, ← productCalls,
          List.append_assoc]
        rfl
      rw [List.foldl_append, ih, List.foldl_cons, List.foldl_nil, calls, History.run_ofCalls_concat,
        History.run_ofCalls_concat]
      rfl

/-- A column of fewer than `2 ^ 31` values is folded exactly. -/
theorem result_splitStep {terms : List (Scalar × Mont.U64)} (few : terms.length < 2 ^ 31) :
    (terms.foldl (splitStep ark) (FrSmallScalarAccumulator.accumulator ark).default).result ark =
      (terms.map fun term => term.1 * (term.2.val : Scalar)).sum := by
  have small : rawSum (terms.flatMap halves) < 2 ^ 318 :=
    calc rawSum (terms.flatMap halves) ≤ terms.length * 2 ^ 287 := rawSum_halves_le terms
      _ < 2 ^ 31 * 2 ^ 287 := Nat.mul_lt_mul_of_pos_right few (Nat.two_pow_pos 287)
      _ = 2 ^ 318 := (Nat.pow_add 2 31 287).symm
  rw [foldl_splitStep, FrSmallScalarAccumulator.result_productCalls ark small]
  clear small few
  induction terms with
  | nil => rfl
  | cons term terms ih => rw [List.flatMap_cons, List.map_append, List.sum_append, ih, sum_halves, List.map_cons, List.sum_cons]

/-! ## Folded columns -/

theorem zip_shifted {α : Type} (rows : List α) (e : List Scalar) :
    rows.zip (e.zip (e.map shifted)) = (rows.zip e).map fun p => (p.1, p.2, shifted p.2) := by
  induction rows generalizing e with
  | nil => rfl
  | cons row rows ih =>
      cases e with
      | nil => rfl
      | cons e es => rw [List.map_cons, List.zip_cons_cons, List.zip_cons_cons, ih, List.zip_cons_cons, List.map_cons]

/-- A chunk of a column, under the equality table of a point. -/
theorem fold_chunk {α : Type} (default : α) (value : α → Mont.U64) {all : List α} {low : List Scalar} {start : ℕ}
    (inside : start + 2 ^ low.length ≤ all.length) (few : low.length < 31) :
    (((((all.drop start).take (2 ^ low.length)).zip
        ((EqPolynomial.table 1 low).zip ((EqPolynomial.table 1 low).map shifted))).foldl
      (fun fold entry => fmaddU64Split ark fold entry.2.1 entry.2.2 (value entry.1))
      (FrSmallScalarAccumulator.accumulator ark).default).result ark) =
      extension (fun k => ((value (all.getD (start + k) default)).val : Scalar)) low := by
  have terms : ((all.drop start).take (2 ^ low.length)).zip (EqPolynomial.table 1 low) =
      (List.range (2 ^ low.length)).map fun k => (all.getD (start + k) default, 1 * eqWeight low k) := by
    rw [take_drop_eq_map default inside, EqPolynomial.table, List.zip_map']
  have steps := @result_splitStep ark ((List.range (2 ^ low.length)).map fun k =>
    (1 * eqWeight low k, value (all.getD (start + k) default)))
    (by rw [List.length_map, List.length_range]; exact Nat.pow_lt_pow_right one_lt_two few)
  rw [List.foldl_map] at steps
  rw [zip_shifted, terms, List.map_map, List.foldl_map]
  refine Eq.trans steps ?_
  rw [List.map_map]
  refine congrArg List.sum (List.map_congr_left fun k _ => ?_)
  rw [Function.comp_apply, one_mul, mul_comm]

end

/-! ## Pairs of a table -/

section

variable {F : Type} [Field F]

/-- The two entries that a round reads, and the value at two. -/
theorem pair_tabulated {f : List F → F} (hf : Multilinear f) {m y : ℕ} (inside : y < 2 ^ m) (low : List F) :
    (tabulated f [] (m + 1) low).getD (2 * y) 0 = f (bitPoint F m y ++ 0 :: low) ∧
    (tabulated f [] (m + 1) low).getD (2 * y + 1) 0 + (tabulated f [] (m + 1) low).getD (2 * y + 1) 0 -
      (tabulated f [] (m + 1) low).getD (2 * y) 0 = f (bitPoint F m y ++ 2 :: low) := by
  obtain ⟨even, odd⟩ := bitPoint_double (F := F) m y
  have before : 2 * y + 1 < 2 ^ (m + 1) := by rw [pow_succ]; omega
  rw [getD_tabulated _ _ _ (by omega), getD_tabulated _ _ _ before, even, odd, List.nil_append, List.nil_append,
    List.append_assoc, List.append_assoc, List.singleton_append, List.singleton_append, hf.at_two]
  exact ⟨rfl, rfl⟩

end

/-! ## The products of pairs of tables -/

section

variable (ark : ArkFr)

/-- The two tables at zero and at two, row by row. -/
def fmaddPairs (accumulators : Slots × Slots) (tables : List Scalar × List Scalar) : Slots × Slots :=
  (List.range (tables.1.length / 2)).foldl (fun accumulators y =>
    let (p0, p1) := (tables.1.getD (2 * y) 0, tables.1.getD (2 * y + 1) 0)
    let (q0, q1) := (tables.2.getD (2 * y) 0, tables.2.getD (2 * y + 1) 0)
    fmaddBoth ark accumulators (p0, q0) (p1 + p1 - p0, q1 + q1 - q0)) accumulators

/-- The values at zero and two of the products of pairs of tables. -/
def evalPairs (pairs : List (List Scalar × List Scalar)) : Option (Scalar × Scalar) :=
  bothReduce ark (pairs.foldl (fmaddPairs ark) (bothDefault ark))

/-- The values of a round, where the tables are those of multilinear functions. -/
theorem evalPairs_eq {count m : ℕ} {P Q : Fin count → List Scalar → Scalar} (hP : ∀ i, Multilinear (P i))
    (hQ : ∀ i, Multilinear (Q i)) (low : List Scalar) (few : count * 2 ^ m ≤ 2 ^ 61) :
    evalPairs ark ((List.finRange count).map fun i =>
        (tabulated (P i) [] (m + 1) low, tabulated (Q i) [] (m + 1) low)) =
      some (restSum (fun x => ∑ i, P i x * Q i x) m (0 :: low), restSum (fun x => ∑ i, P i x * Q i x) m (2 :: low)) := by
  have terms : (List.finRange count).foldl (fun accumulators i =>
        fmaddPairs ark accumulators (tabulated (P i) [] (m + 1) low, tabulated (Q i) [] (m + 1) low)) (bothDefault ark) =
      ((List.finRange count).flatMap fun i => (List.range (2 ^ m)).map fun y => (i, bitPoint Scalar m y)).foldl
        (fun accumulators p => fmaddBoth ark accumulators (P p.1 (p.2 ++ 0 :: low), Q p.1 (p.2 ++ 0 :: low))
          (P p.1 (p.2 ++ 2 :: low), Q p.1 (p.2 ++ 2 :: low))) (bothDefault ark) := by
    rw [List.foldl_flatMap]
    refine List.foldl_ext _ _ _ fun accumulators i _ => ?_
    rw [List.foldl_map, fmaddPairs, length_tabulated, half_pow_succ]
    refine List.foldl_ext _ _ _ fun accumulators y member => ?_
    have inside := List.mem_range.mp member
    obtain ⟨p0, p2⟩ := pair_tabulated (hP i) inside low
    obtain ⟨q0, q2⟩ := pair_tabulated (hQ i) inside low
    dsimp only
    rw [p2, q2, p0, q0]
  have count_ : ((List.finRange count).flatMap fun i =>
      (List.range (2 ^ m)).map fun y => (i, bitPoint Scalar m y)).length = count * 2 ^ m := by
    simp [List.length_flatMap]
  have total (point : List Scalar) : (((List.finRange count).flatMap fun i => (List.range (2 ^ m)).map fun y =>
      (i, bitPoint Scalar m y)).map fun p => P p.1 (p.2 ++ point) * Q p.1 (p.2 ++ point)).sum =
        restSum (fun x => ∑ i, P i x * Q i x) m point := by
    rw [restSum, cubeSum_eq_sum, sum_comm, Fin.sum_univ_def, List.map_flatMap, List.flatMap_def, List.sum_flatten,
      List.map_map]
    refine congrArg List.sum (List.map_congr_left fun i _ => ?_)
    rw [Function.comp_apply, List.map_map]
    rfl
  rw [evalPairs, List.foldl_map, terms, bothReduce_foldl ark (count_.trans_le few)]
  exact congrArg some (Prod.ext (total (0 :: low)) (total (2 :: low)))

end

end JoltWasm
