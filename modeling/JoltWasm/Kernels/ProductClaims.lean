import JoltWasm.Kernels.ProductRemainder

/-!
# The output claims of the product remainder

The four columns at the bound point are summed in blocks of cycles, from the rows and not from the tables.
-/

namespace JoltWasm

open Lib Mont Finset

namespace SpartanProduct

/-! ## Blocks of a range -/

/-- A sum in blocks, the last of which may be short. -/
theorem sum_blocks {size : ℕ} (positive : 0 < size) (total : ℕ) (g : ℕ → Scalar) :
    ∑ index ∈ range ((total + size - 1) / size),
        ∑ i ∈ range (min (index * size + size) total - index * size), g (index * size + i) =
      ∑ t ∈ range total, g t := by
  have upTo (count : ℕ) : ∑ index ∈ range count,
      ∑ i ∈ range (min (index * size + size) total - index * size), g (index * size + i) =
      ∑ t ∈ range (min (count * size) total), g t := by
    induction count with
    | zero => simp
    | succ count ih =>
        rw [sum_range_succ, ih, Nat.succ_mul]
        rcases Nat.le_total (count * size) total with below | past
        · have whole : min (count * size + size) total =
              count * size + (min (count * size + size) total - count * size) := by omega
          conv_rhs => rw [whole, sum_range_add]
          rw [min_eq_left below]
        · rw [min_eq_right past, min_eq_right (by omega), Nat.sub_eq_zero_of_le past, range_zero, sum_empty, add_zero]
  rw [upTo, min_eq_right]
  have enough := Nat.lt_div_mul_add (a := total + size - 1) positive
  omega

/-! ## One block -/

/-- The words of a row, by slot. -/
def wordAt (row : SpartanProductRow) : ℕ → Mont.U64
  | 0 => row.leftInstructionInput
  | 1 => row.rightInstructionInput
  | _ => row.lookupOutput

/-- The columns, by slot. -/
def column (rows : List SpartanProductRow) : ℕ → ℕ → Scalar
  | 0 => leftInput rows
  | 1 => rightInput rows
  | 2 => lookup rows
  | _ => branch rows

variable (ark : ArkFr) {rows : List SpartanProductRow}

/-- The call of an entry on a slot's accumulator. -/
def wordCall (rows : List SpartanProductRow) (entry : ℕ × Scalar) (slot : ℕ) : Op :=
  .fmaddS256 (.ofValue entry.2) (.fromU64 (wordAt (rowAt rows entry.1) slot))

/-- The product of an entry with the flag. -/
def branchProduct (rows : List SpartanProductRow) (entry : ℕ × Scalar) : Scalar × Mont.U64 :=
  (entry.2, flagU64 (rowAt rows entry.1).branchFlag)

theorem claimStep_eq {entry : ℕ × Scalar} (inside : entry.1 < rows.length) (calls : ℕ → List Op)
    (products : List (Scalar × Mont.U64)) :
    ProductRemainderKernel.claimStep ark rows
        ((List.range 3).map fun slot => (History.ofCalls (calls slot)).run (FrSignedProductAccumulator.accumulator ark),
          (History.ofCalls (productCalls products)).run (FrSmallScalarAccumulator.accumulator ark)) entry =
      some ((List.range 3).map fun slot =>
          (History.ofCalls (calls slot ++ [wordCall rows entry slot])).run (FrSignedProductAccumulator.accumulator ark),
        (History.ofCalls (productCalls (products ++ [branchProduct rows entry]))).run
          (FrSmallScalarAccumulator.accumulator ark)) := by
  obtain ⟨t, e⟩ := entry
  have concat : productCalls (products ++ [branchProduct rows (t, e)]) =
      productCalls products ++ [.fmaddU64 (.ofValue e) (branchProduct rows (t, e)).2] := by
    rw [productCalls, List.map_append]
    rfl
  rw [concat]
  simp only [ProductRemainderKernel.claimStep, getElem?_rowAt inside, Option.bind_eq_bind, Option.bind_some,
    Option.pure_def, History.run_ofCalls_concat]
  rfl

theorem foldlM_claimStep {entries : List (ℕ × Scalar)} (inside : ∀ entry ∈ entries, entry.1 < rows.length)
    (calls : ℕ → List Op) (products : List (Scalar × Mont.U64)) :
    entries.foldlM (ProductRemainderKernel.claimStep ark rows)
        ((List.range 3).map fun slot => (History.ofCalls (calls slot)).run (FrSignedProductAccumulator.accumulator ark),
          (History.ofCalls (productCalls products)).run (FrSmallScalarAccumulator.accumulator ark)) =
      some ((List.range 3).map fun slot => (History.ofCalls (calls slot ++ entries.map (wordCall rows · slot))).run
          (FrSignedProductAccumulator.accumulator ark),
        (History.ofCalls (productCalls (products ++ entries.map (branchProduct rows)))).run
          (FrSmallScalarAccumulator.accumulator ark)) := by
  induction entries generalizing calls products with
  | nil => simp
  | cons entry entries ih =>
      rw [List.foldlM_cons, claimStep_eq ark (inside entry List.mem_cons_self), Option.bind_eq_bind, Option.bind_some,
        ih (fun entry member => inside entry (List.mem_cons_of_mem _ member)) fun slot => calls slot ++ [wordCall rows entry slot]]
      simp only [List.append_assoc, List.singleton_append, List.map_cons]

theorem toInt_word (word : Mont.U64) : (SignedBigInt.fromU64 word.val : S256).toInt Limbs.toNat = (word.val : ℤ) := by
  rw [Signed.toInt, SignedBigInt.fromU64, SignedBigInt.fromU64WithSign, Limbs.toNat_fromU64 (by decide) word.isLt]
  rfl

theorem value_wordCall (entry : ℕ × Scalar) (slot : ℕ) :
    (wordCall rows entry slot).value = entry.2 * ((wordAt (rowAt rows entry.1) slot).val : Scalar) := by
  rw [wordCall, Op.value, Fr.value_ofValue, toInt_word, Int.cast_natCast]

/-- A block is short, so its flags add up below what the Barrett step reads. -/
theorem rawSum_branch_lt {entries : List (ℕ × Scalar)} (short : entries.length ≤ 2 ^ 12) :
    rawSum (entries.map (branchProduct rows)) < 2 ^ 318 := by
  have term : ∀ x ∈ (entries.map (branchProduct rows)).map fun p => montgomeryForm p.1 * p.2.val, x ≤ 2 ^ 254 := by
    intro x member
    obtain ⟨p, there, rfl⟩ := List.mem_map.mp member
    obtain ⟨entry, -, rfl⟩ := List.mem_map.mp there
    have flag : (flagU64 (rowAt rows entry.1).branchFlag).val ≤ 1 := by
      rw [val_flagU64]
      exact Bool.toNat_le _
    calc _ ≤ montgomeryForm entry.2 * 1 := Nat.mul_le_mul_left _ flag
      _ ≤ 2 ^ 254 := by
        have := montgomeryForm_lt entry.2
        simp only [Mont.order] at this
        omega
  have total := List.sum_le_card_nsmul _ _ term
  rw [List.length_map, List.length_map, smul_eq_mul] at total
  calc rawSum (entries.map (branchProduct rows)) ≤ entries.length * 2 ^ 254 := total
    _ ≤ 2 ^ 12 * 2 ^ 254 := Nat.mul_le_mul_right _ short
    _ = 2 ^ (12 + 254) := (Nat.pow_add 2 12 254).symm
    _ < 2 ^ 318 := Nat.pow_lt_pow_right one_lt_two (by decide)

/-- The entries of a block of the table. -/
theorem block_entries (point : List Scalar) {start len : ℕ} (inside : start + len ≤ 2 ^ point.length) :
    (List.range' start len).zip (((EqPolynomial.table 1 point).drop start).take len) =
      (List.range len).map fun i => (start + i, eqWeight point (start + i)) := by
  refine List.ext_getElem (by simp; omega) fun i below below' => ?_
  rw [List.length_map, List.length_range] at below'
  have here : start + i < (EqPolynomial.table 1 point).length := by
    rw [EqPolynomial.length_table]
    omega
  have entry : (EqPolynomial.table 1 point)[start + i] = eqWeight point (start + i) := by
    rw [← List.getD_eq_getElem _ 0, EqPolynomial.getD_table 1 point (by omega), one_mul]
  rw [List.getElem_zip, List.getElem_range', List.getElem_take, List.getElem_drop, List.getElem_map, List.getElem_range,
    entry, one_mul]

/-- A column's sum over one block. -/
theorem sum_wordCalls (point : List Scalar) (start len : ℕ) (slot : ℕ) :
    ((((List.range len).map fun i => (start + i, eqWeight point (start + i))).map (wordCall rows · slot)).map Op.value).sum =
      ∑ i ∈ range len, eqWeight point (start + i) * ((wordAt (rowAt rows (start + i)) slot).val : Scalar) := by
  simp only [List.map_map, Function.comp_def, value_wordCall]
  rfl

theorem sum_branchProducts (point : List Scalar) (start len : ℕ) :
    ((((List.range len).map fun i => (start + i, eqWeight point (start + i))).map (branchProduct rows)).map
      fun p => p.1 * (p.2.val : Scalar)).sum =
      ∑ i ∈ range len, eqWeight point (start + i) * branch rows (start + i) := by
  simp only [List.map_map, Function.comp_def, branchProduct, val_flagU64]
  rfl

theorem claimedInputs_eq {kernel : ProductRemainderKernel} {point : List Scalar} (witness : kernel.rows = rows)
    (bound : kernel.challenges.challenges.reverse = point) (all : rows.length = 2 ^ point.length) :
    kernel.claimedInputs ark = some ((List.range 4).map fun slot => extension (column rows slot) point) := by
  rw [ProductRemainderKernel.claimedInputs, bound, witness, EqPolynomial.evals_eq, Option.getD_none]
  simp only [EqPolynomial.length_table]
  rw [tryParSumVecs_eq (List.length_range (n := 4)) fun index slot =>
    ∑ i ∈ range (min (index * 2 ^ 12 + 2 ^ 12) (2 ^ point.length) - index * 2 ^ 12),
      eqWeight point (index * 2 ^ 12 + i) * column rows slot (index * 2 ^ 12 + i)]
  · refine congrArg some (List.map_congr_left fun slot _ => ?_)
    rw [extension]
    refine (sum_blocks (by norm_num) (2 ^ point.length) fun t => eqWeight point t * column rows slot t).trans ?_
    exact sum_congr rfl fun t _ => mul_comm _ _
  · intro index inside
    have reach : index * 2 ^ 12 ≤ 2 ^ point.length := by
      have := (Nat.lt_div_iff_mul_lt (by norm_num : 0 < 2 ^ 12)).mp inside
      omega
    obtain ⟨start, startIs⟩ : ∃ start, index * 2 ^ 12 = start := ⟨_, rfl⟩
    obtain ⟨len, lenIs⟩ : ∃ len, min (start + 2 ^ 12) (2 ^ point.length) - start = len := ⟨_, rfl⟩
    have within : start + len ≤ 2 ^ point.length := by omega
    have short : len ≤ 2 ^ 12 := by omega
    simp only [show 1 <<< 12 = 2 ^ 12 from rfl, startIs, lenIs, block_entries point within]
    have fresh : (List.replicate 3 (FrSignedProductAccumulator.accumulator ark).default,
        (FrSmallScalarAccumulator.accumulator ark).default) =
        ((List.range 3).map fun _ => (History.ofCalls []).run (FrSignedProductAccumulator.accumulator ark),
          (History.ofCalls (productCalls [])).run (FrSmallScalarAccumulator.accumulator ark)) := rfl
    rw [fresh, @foldlM_claimStep ark rows]
    · simp only [Option.bind_eq_bind, Option.bind_some, List.mapM_map, List.nil_append]
      have words := UnivariatePoly.mapM_some (l := List.range 3)
        (f := FrSignedProductAccumulator.result ark ∘ fun slot => (History.ofCalls
          (((List.range len).map fun i => (start + i, eqWeight point (start + i))).map (wordCall rows · slot))).run
            (FrSignedProductAccumulator.accumulator ark))
        (g := fun slot => ∑ i ∈ range len, eqWeight point (start + i) * ((wordAt (rowAt rows (start + i)) slot).val : Scalar))
        fun slot _ => by
          rw [Function.comp_apply, FrSignedProductAccumulator.result_ofCalls ark, sum_wordCalls]
          rw [List.length_map, List.length_map, List.length_range]
          omega
      rw [words, FrSmallScalarAccumulator.result_productCalls ark (rawSum_branch_lt (by simpa using short)),
        sum_branchProducts]
      rfl
    · intro entry member
      obtain ⟨i, below, rfl⟩ := List.mem_map.mp member
      have := List.mem_range.mp below
      rw [all]
      omega

end SpartanProduct

end JoltWasm
