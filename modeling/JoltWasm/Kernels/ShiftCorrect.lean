import Mathlib.Data.Fin.VecNotation
import JoltWasm.Kernels.SpartanShift

/-!
# The rounds of the shift kernel

The weight of the next cycle is a sum of two products, of a factor of the last coordinates by a factor of the
first.  Before the transition the tables are those of the factors of the last coordinates, and of the pc
summed against the factors of the first; after it, those of the weight and of the pc themselves.
-/

namespace JoltWasm

open Lib Mont Finset

open SpartanProduct (Scalar)

open EqPlusOnePrefixSuffix (new)

namespace SpartanShift

/-- The pc column in the field. -/
def pcAt (rows : List SpartanShiftRow) (cycle : ℕ) : Scalar := ((rows.getD cycle default).pc.val : Scalar)

/-- The weight of the next cycle times the pc. -/
def summand (rOuter : List Scalar) (rows : List SpartanShiftRow) (x : List Scalar) : Scalar :=
  follows rOuter x * extension (pcAt rows) x

/-! ## The two factors -/

section

variable (r : List Scalar)

def prefixPart : Fin 2 → List Scalar → Scalar :=
  ![extension fun j => (new r).prefix0.getD j 0, extension fun j => (new r).prefix1.getD j 0]

def suffixPart : Fin 2 → List Scalar → Scalar :=
  ![extension fun j => (new r).suffix0.getD j 0, extension fun j => (new r).suffix1.getD j 0]

theorem multilinear_prefixPart (i : Fin 2) : Multilinear (prefixPart r i) := by
  fin_cases i <;> exact multilinear_extension _

theorem splits : Splits univ (prefixPart r) (suffixPart r) (r.length / 2) (r.length - r.length / 2) (follows r) where
  split := fun high low size size' => by
    rw [Fin.sum_univ_two, ← EqPlusOnePrefixSuffix.decomposes r size size', mul_comm (prefixPart r 0 low),
      mul_comm (prefixPart r 1 low)]
    rfl

/-- A table is that of its extension. -/
theorem tabulated_extension {v : List Scalar} {n : ℕ} (length : v.length = 2 ^ n) :
    tabulated (extension fun j => v.getD j 0) [] n [] = v := by
  rw [tabulated_nil, eq_listed length]
  refine listed_congr fun i inside => ?_
  rw [extension_bitPoint _ inside, ← eq_listed length]

theorem prefix_tables : (new r).prefix0 = tabulated (prefixPart r 0) [] (r.length - r.length / 2) [] ∧
    (new r).prefix1 = tabulated (prefixPart r 1) [] (r.length - r.length / 2) [] := by
  obtain ⟨first, -, second, -⟩ := EqPlusOnePrefixSuffix.lengths r
  exact ⟨(tabulated_extension first).symm, (tabulated_extension second).symm⟩

end

/-! ## The tables of the first rounds -/

section

variable (ark : ArkFr) {rows : List SpartanShiftRow} {a b : ℕ}

theorem qStep_eq (all : rows.length = 2 ^ (a + b)) {start len : ℕ} (inside : start + len ≤ 2 ^ b) (s : Scalar × Scalar)
    {xHi : ℕ} (below : xHi < 2 ^ a) (state : ℕ → Slots × Slots) :
    ShiftKernel.qStep ark rows b start ((List.range len).map state) (s, xHi) =
      some ((List.range len).map fun i => fmaddBoth ark (state i)
        (pcAt rows (xHi * 2 ^ b + (start + i)), s.1) (pcAt rows (xHi * 2 ^ b + (start + i)), s.2)) := by
  rw [ShiftKernel.qStep, zipIdx_map_range, List.mapM_map]
  refine UnivariatePoly.mapM_some fun i member => ?_
  have there : xHi * 2 ^ b + (start + i) < rows.length := by
    have room := Nat.mul_le_mul_right (2 ^ b) (Nat.succ_le_of_lt below)
    have offset := List.mem_range.mp member
    rw [Nat.succ_mul, ← pow_add] at room
    rw [all]
    omega
  rw [Function.comp_apply, Nat.shiftLeft_eq, List.getElem?_eq_getElem there, pcAt, List.getD_eq_getElem _ _ there]
  rfl

/-- The sums of a block of the tables. -/
theorem buildQBlock_eq (all : rows.length = 2 ^ (a + b)) (few : a ≤ 61) (s : ℕ → Scalar × Scalar) {blockIndex len : ℕ}
    (inside : blockIndex * block + len ≤ 2 ^ b) :
    ShiftKernel.buildQBlock ark ((List.range (2 ^ a)).map s) rows b blockIndex len =
      some ((List.range len).map fun i =>
        (∑ xHi ∈ range (2 ^ a), pcAt rows (xHi * 2 ^ b + (blockIndex * block + i)) * (s xHi).1,
          ∑ xHi ∈ range (2 ^ a), pcAt rows (xHi * 2 ^ b + (blockIndex * block + i)) * (s xHi).2)) := by
  have start : List.replicate len (bothDefault ark) = (List.range len).map fun _ => bothDefault ark := by
    rw [List.map_const', List.length_range]
  have folded := @foldlM_slots _ _ _ (List.range len) (fun (suffix : (Scalar × Scalar) × ℕ) i fold => fmaddBoth ark fold
    (pcAt rows (suffix.2 * 2 ^ b + (blockIndex * block + i)), suffix.1.1)
    (pcAt rows (suffix.2 * 2 ^ b + (blockIndex * block + i)), suffix.1.2))
    (ShiftKernel.qStep ark rows b (blockIndex * block)) ((List.range (2 ^ a)).map fun xHi => (s xHi, xHi))
    (fun suffix member state => by
      obtain ⟨xHi, below, rfl⟩ := List.mem_map.mp member
      exact qStep_eq ark all inside (s xHi) (List.mem_range.mp below) state) fun _ => bothDefault ark
  rw [ShiftKernel.buildQBlock, zipIdx_map_range, start, folded, Option.bind_eq_bind, Option.bind_some, List.mapM_map]
  refine UnivariatePoly.mapM_some fun i _ => ?_
  rw [Function.comp_apply, List.foldl_map, bothReduce_foldl ark (by
    rw [List.length_range]
    exact Nat.pow_le_pow_right two_pos few)]
  rfl

/-- The tables of the pc, summed against the suffixes. -/
theorem qRows_eq {r : List Scalar} (all : rows.length = 2 ^ r.length) (few : r.length ≤ 61) :
    ∃ qRows, fillChunks block (1 <<< (r.length - r.length / 2)) (ShiftKernel.buildQBlock ark
        ((List.range (new r).suffix0.length).map fun xHi => ((new r).suffix0.getD xHi 0, (new r).suffix1.getD xHi 0))
        rows (r.length - r.length / 2)) = some qRows ∧
      qRows.map Prod.fst = tabulated (suffixSum (r.length / 2) (suffixPart r 0) (extension (pcAt rows))) []
        (r.length - r.length / 2) [] ∧
      qRows.map Prod.snd = tabulated (suffixSum (r.length / 2) (suffixPart r 1) (extension (pcAt rows))) []
        (r.length - r.length / 2) [] := by
  obtain ⟨-, size, -, -⟩ := EqPlusOnePrefixSuffix.lengths r
  have split : r.length = r.length / 2 + (r.length - r.length / 2) := by omega
  let column (i : Fin 2) (y : ℕ) : Scalar :=
    suffixSum (r.length / 2) (suffixPart r i) (extension (pcAt rows)) (bitPoint Scalar (r.length - r.length / 2) y)
  have sums (g : ℕ → Scalar) {y : ℕ} (inside : y < 2 ^ (r.length - r.length / 2)) :
      ∑ xHi ∈ range (2 ^ (r.length / 2)), pcAt rows (xHi * 2 ^ (r.length - r.length / 2) + y) * g xHi =
        suffixSum (r.length / 2) (extension g) (extension (pcAt rows)) (bitPoint Scalar (r.length - r.length / 2) y) := by
    rw [suffixSum_bits _ _ _ inside]
    refine sum_congr rfl fun xHi member => ?_
    rw [extension_bitPoint _ (mem_range.mp member), mul_comm]
  refine ⟨(List.range (2 ^ (r.length - r.length / 2))).map fun y => (column 0 y, column 1 y), ?_, ?_, ?_⟩
  · rw [Nat.one_shiftLeft]
    refine fillChunks_eq (by decide) fun index n inside _ => ?_
    rw [size, buildQBlock_eq ark (all.trans (congrArg _ split)) (by omega) _ inside]
    refine congrArg some (List.map_congr_left fun i member => ?_)
    have offset := List.mem_range.mp member
    exact Prod.ext (sums _ (by omega)) (sums _ (by omega))
  · rw [List.map_map, tabulated_nil]
    rfl
  · rw [List.map_map, tabulated_nil]
    rfl

/-! ## The state in step with the challenges -/

/-- The coordinates `low` are bound, and `m` are free. -/
structure Good (r : List Scalar) (rows : RowVec 8 SpartanShiftRow) (kernel : ShiftKernel) (m : ℕ) (low : List Scalar) :
    Prop where
  free : m + low.length = r.length
  rOuter : kernel.rOuter = r
  challenges : kernel.challenges = ⟨low.reverse, r.length⟩
  phase : (∃ k, m = r.length / 2 + (k + 1) ∧ kernel.rows = rows ∧ kernel.phase = .prefixSuffix
      (tabulated (prefixPart r 0) [] (k + 1) low,
        tabulated (suffixSum (r.length / 2) (suffixPart r 0) (extension (pcAt rows.rows))) [] (k + 1) low)
      (tabulated (prefixPart r 1) [] (k + 1) low,
        tabulated (suffixSum (r.length / 2) (suffixPart r 1) (extension (pcAt rows.rows))) [] (k + 1) low)) ∨
    m ≤ r.length / 2 ∧ kernel.phase =
      .dense (tabulated (follows r) [] m low) (tabulated (extension (pcAt rows.rows)) [] m low)

variable {r : List Scalar} {rows : RowVec 8 SpartanShiftRow}

theorem prepare_eq (all : rows.rows.length = 2 ^ r.length) (positive : 0 < r.length) :
    ∃ kernel, ShiftKernel.prepare ark r.length r rows = .ok kernel ∧ Good r rows kernel r.length [] := by
  obtain ⟨qRows, filled, first, second⟩ := qRows_eq ark all ((rows.few (le_refl 8) all).le.trans (by decide))
  obtain ⟨size, -, -, -⟩ := EqPlusOnePrefixSuffix.lengths r
  obtain ⟨table, table'⟩ := prefix_tables r
  refine ⟨⟨r.length, r, rows, .prefixSuffix ((new r).prefix0, qRows.map Prod.fst) ((new r).prefix1, qRows.map Prod.snd),
    .new r.length⟩, ?_, rfl, rfl, rfl, .inl ⟨r.length - r.length / 2 - 1, by omega, rfl, ?_⟩⟩
  · rw [ShiftKernel.prepare, if_neg positive.ne', if_neg (not_not.mpr rfl)]
    simp only [size, trailingZeros_pow, filled, KernelStop.orPanic_some, KernelStop.ok_bind]
    rfl
  · rw [first, second, table, table', Nat.sub_add_cancel (by omega)]

/-- The chunks of the pc column, folded. -/
theorem foldChunk_eq {low : List Scalar} {a : ℕ} (all : rows.rows.length = 2 ^ (a + low.length)) (few : low.length < 31) :
    (chunks (EqPolynomial.evals low none).length rows.rows).map (ShiftKernel.foldChunk ark (EqPolynomial.evals low none)) =
      tabulated (extension (pcAt rows.rows)) [] a low := by
  rw [EqPolynomial.evals_eq, Option.getD_none, EqPolynomial.length_table, chunks_eq all, List.map_map, tabulated, listed]
  refine List.map_congr_left fun i member => ?_
  have below := List.mem_range.mp member
  have room := Nat.mul_le_mul_right (2 ^ low.length) (Nat.succ_le_of_lt below)
  rw [Nat.succ_mul, ← pow_add] at room
  rw [Function.comp_apply, ShiftKernel.foldChunk, List.nil_append, extension_chunk _ below]
  exact fold_chunk ark default SpartanShiftRow.pc (room.trans_eq all.symm) few

/-- The weights of the next cycle, from the two factors. -/
theorem eqPlusOneOuter_eq {low : List Scalar} (bound : low.length = r.length - r.length / 2) :
    List.zipWith (fun suffix0 suffix1 => prefixPart r 0 low * suffix0 + prefixPart r 1 low * suffix1)
      (new r).suffix0 (new r).suffix1 = tabulated (follows r) [] (r.length / 2) low := by
  obtain ⟨-, first, -, second⟩ := EqPlusOnePrefixSuffix.lengths r
  rw [eq_listed first, eq_listed second, listed, listed, List.zipWith_map, List.zipWith_self, tabulated, listed]
  refine List.map_congr_left fun i member => ?_
  have below := List.mem_range.mp member
  rw [List.nil_append, (splits r).split _ _ (length_bitPoint _ _) bound, Fin.sum_univ_two]
  have entry (v : List Scalar) : extension (fun j => v.getD j 0) (bitPoint Scalar (r.length / 2) i) = v.getD i 0 :=
    extension_bitPoint _ below
  exact (congrArg₂ (fun x y => prefixPart r 0 low * x + prefixPart r 1 low * y) (entry _) (entry _)).symm

theorem transitionToDense_eq (all : rows.rows.length = 2 ^ r.length) {kernel : ShiftKernel} {low : List Scalar}
    (bound : low.length = r.length - r.length / 2) (outer : kernel.rOuter = r) (raw : kernel.rows = rows)
    (drawn : kernel.challenges = ⟨low.reverse, r.length⟩) :
    ∃ next, ShiftKernel.transitionToDense ark kernel = some next ∧ Good r rows next (r.length / 2) low := by
  have few := rows.few (le_refl 8) all
  obtain ⟨first, -, second, -⟩ := EqPlusOnePrefixSuffix.lengths r
  rw [← bound] at first second
  have whole : r.length / 2 + low.length = r.length := by omega
  refine ⟨{ kernel with
    rows := .new
    phase := .dense (tabulated (follows r) [] (r.length / 2) low) (tabulated (extension (pcAt rows.rows)) [] (r.length / 2) low) },
    ?_, whole, outer, drawn, .inr ⟨le_rfl, rfl⟩⟩
  rw [ShiftKernel.transitionToDense, drawn, outer, raw, List.reverse_reverse,
    foldChunk_eq ark (by rw [all, whole]) (by omega), DensePolynomial.evaluate_new first, DensePolynomial.evaluate_new second]
  simp only [Option.bind_eq_bind, Option.bind_some]
  rw [← eqPlusOneOuter_eq bound]
  rfl

theorem bind_eq (all : rows.rows.length = 2 ^ r.length) {kernel : ShiftKernel} {m : ℕ} {low : List Scalar}
    (good : Good r rows kernel (m + 1) low) (challenge : Scalar) :
    ∃ next, ShiftKernel.bind ark kernel challenge = .ok next ∧ Good r rows next m (challenge :: low) := by
  have free : m + (challenge :: low).length = r.length := by rw [List.length_cons, ← good.free]; omega
  have drawn : kernel.challenges.push challenge = ⟨(challenge :: low).reverse, r.length⟩ := by
    rw [good.challenges, RoundChallenges.push, List.reverse_cons]
  rcases good.phase with ⟨k, left, raw, phase⟩ | ⟨left, phase⟩
  · cases k with
    | zero =>
        -- the last prefix variable
        obtain rfl : m = r.length / 2 := by omega
        obtain ⟨next, moved, kept⟩ := @transitionToDense_eq ark _ _ all
          { kernel with challenges := kernel.challenges.push challenge } (challenge :: low) (by omega) good.rOuter raw drawn
        refine ⟨next, ?_, kept⟩
        rw [phase] at moved
        rw [ShiftKernel.bind]
        simp only [phase, length_tabulated]
        rw [if_pos (by decide), moved, KernelStop.orPanic_some]
    | succ k =>
        have some_ : 2 ^ (k + 1 + 1) ≠ 2 := by
          have := Nat.two_pow_pos k
          rw [pow_succ, pow_succ]
          omega
        refine ⟨{ kernel with
          challenges := kernel.challenges.push challenge
          phase := .prefixSuffix
            (tabulated (prefixPart r 0) [] (k + 1) (challenge :: low),
              tabulated (suffixSum (r.length / 2) (suffixPart r 0) (extension (pcAt rows.rows))) [] (k + 1) (challenge :: low))
            (tabulated (prefixPart r 1) [] (k + 1) (challenge :: low),
              tabulated (suffixSum (r.length / 2) (suffixPart r 1) (extension (pcAt rows.rows))) [] (k + 1) (challenge :: low)) },
          ?_, free, good.rOuter, drawn, .inl ⟨k, by omega, raw, rfl⟩⟩
        rw [ShiftKernel.bind]
        simp only [phase, length_tabulated, if_neg some_]
        rw [bindPairs_tabulated (multilinear_prefixPart r 0), bindPairs_tabulated (multilinear_prefixPart r 1),
          bindPairs_tabulated (multilinear_suffixSum _ _ (multilinear_extension _)),
          bindPairs_tabulated (multilinear_suffixSum _ _ (multilinear_extension _))]
  · refine ⟨{ kernel with
      challenges := kernel.challenges.push challenge
      phase := .dense (tabulated (follows r) [] m (challenge :: low))
        (tabulated (extension (pcAt rows.rows)) [] m (challenge :: low)) },
      ?_, free, good.rOuter, drawn, .inr ⟨by omega, rfl⟩⟩
    rw [ShiftKernel.bind]
    simp only [phase]
    rw [bindPairs_tabulated (multilinear_follows r), bindPairs_tabulated (multilinear_extension _)]

/-- The values at zero and two of a round. -/
theorem evals_eq (all : rows.rows.length = 2 ^ r.length) {kernel : ShiftKernel} {m : ℕ} {low : List Scalar}
    (good : Good r rows kernel (m + 1) low) : kernel.evals ark =
      some (restSum (summand r rows.rows) m (0 :: low), restSum (summand r rows.rows) m (2 :: low)) := by
  have few := rows.few (le_refl 8) all
  have free := good.free
  have small {n : ℕ} (below : n ≤ 60) : 2 ^ n ≤ 2 ^ 61 := Nat.pow_le_pow_right two_pos (below.trans (by decide))
  rcases good.phase with ⟨k, left, -, phase⟩ | ⟨-, phase⟩
  · obtain rfl : m = r.length / 2 + k := by omega
    have value (t : Scalar) : restSum (summand r rows.rows) (r.length / 2 + k) (t :: low) = restSum (fun x =>
        ∑ i, prefixPart r i x * suffixSum (r.length / 2) (suffixPart r i) (extension (pcAt rows.rows)) x) k (t :: low) :=
      (splits r).restSum_before _ (by rw [List.length_cons]; omega)
    have pairs := evalPairs_eq ark (m := k) (multilinear_prefixPart r)
      (fun i => multilinear_suffixSum (r.length / 2) (suffixPart r i) (multilinear_extension (pcAt rows.rows))) low
      (by rw [← Nat.pow_succ']; exact small (by omega))
    rw [ShiftKernel.evals, phase, value, value, ← pairs]
    rfl
  · have single := @evalPairs_eq ark 1 m _ _ (fun _ => multilinear_follows r)
      (fun _ => multilinear_extension (pcAt rows.rows)) low (by rw [Nat.one_mul]; exact small (by omega))
    simp only [Fin.sum_univ_one] at single
    rw [ShiftKernel.evals, phase]
    exact single

theorem message_eq (all : rows.rows.length = 2 ^ r.length) {kernel : ShiftKernel} {m : ℕ} {low : List Scalar}
    (good : Good r rows kernel (m + 1) low) (round : ℕ) (claim : Scalar) (message : UnivariatePoly Scalar)
    (found : UnivariatePoly.fromEvalsAndHint claim
      [restSum (summand r rows.rows) m (0 :: low), restSum (summand r rows.rows) m (2 :: low)] = some message) :
    ShiftKernel.message ark kernel round claim = .ok (message, kernel) := by
  rw [ShiftKernel.message, evals_eq ark all good]
  simp only [KernelStop.orPanic_some, KernelStop.ok_bind, found]
  rfl

theorem degreeIn_summand (r : List Scalar) (rows : List SpartanShiftRow) : DegreeIn 2 (summand r rows) :=
  (multilinear_follows r).degreeIn.mul (multilinear_extension (pcAt rows)).degreeIn

/-- The kernel serves the summand, from whatever claim. -/
theorem serves (all : rows.rows.length = 2 ^ r.length) (excess : Scalar) :
    (ShiftKernel.rounds ark).Serves 2 (drifted (summand r rows.rows) excess) (Good r rows) fun _ _ => True := by
  refine RoundKernel.Serves.ofHint (SpartanProduct.distinctNodes (by decide)) (degreeIn_summand r rows.rows) ?_ ?_ excess
  · intro state m low good challenge
    exact bind_eq ark all good challenge
  · intro state m low good _ round claim message found
    exact ⟨state, message_eq ark all good round claim message found, good⟩

theorem outputClaims_eq {kernel : ShiftKernel} {point : List Scalar} (good : Good r rows kernel 0 point) :
    kernel.outputClaims = .ok (extension (pcAt rows.rows) point) := by
  have complete : kernel.challenges.requireComplete = .ok () := by
    have count := good.free
    rw [Nat.zero_add] at count
    rw [good.challenges, RoundChallenges.requireComplete, if_pos (List.length_reverse.trans count)]
  rcases good.phase with ⟨k, left, -⟩ | ⟨-, phase⟩
  · omega
  · rw [ShiftKernel.outputClaims, complete, KernelStop.ok_bind, phase]
    rfl

/-! ## The sum over the next cycles -/

/-- The last cycle has no successor. -/
theorem sum_summand (r : List Scalar) (rows : List SpartanShiftRow) : restSum (summand r rows) r.length [] =
    ∑ k ∈ range (2 ^ r.length - 1), eqWeight r k * pcAt rows (k + 1) := by
  have entry : ∀ k ∈ range (2 ^ r.length), summand r rows (bitPoint Scalar r.length k ++ []) =
      (if k = 0 then 0 else eqWeight r (k - 1)) * pcAt rows k := fun k member => by
    have inside := mem_range.mp member
    rw [List.append_nil, summand, EqPlusOnePolynomial.follows_bitPoint r inside, extension_bitPoint _ inside]
  obtain ⟨last, size⟩ := Nat.exists_eq_succ_of_ne_zero (Nat.two_pow_pos r.length).ne'
  rw [restSum, cubeSum_eq_sum, sum_congr rfl entry, size, sum_range_succ', if_pos rfl, zero_mul, add_zero]
  refine sum_congr rfl fun k _ => ?_
  rw [if_neg k.succ_ne_zero, Nat.add_sub_cancel]

end

/-- From any claim the kernel runs through all rounds and returns the pc column at the bound point.  Its messages
are the polynomials of the rounds exactly when the claim is the sum of the pc over the next cycles; from
another claim the last value is off by a product over the challenges. -/
theorem spartanShift_rounds (ark : ArkFr) {r : List Scalar} (positive : 0 < r.length)
    {rows : RowVec 8 SpartanShiftRow} (all : rows.rows.length = 2 ^ r.length) {challenges : List Scalar}
    (count : challenges.length = r.length) (claim : Scalar) :
    ∃ kernel messages final, ShiftKernel.prepare ark r.length r rows = .ok kernel ∧
      (ShiftKernel.rounds ark).proveRounds kernel none 0 claim challenges = .ok (messages, final) ∧
      messages.length = r.length ∧
      ((∀ i message, messages[i]? = some message → IsRound 2 (summand r rows.rows) (r.length - 1 - i)
          (challenges.take i).reverse message.polynomial) ↔
        claim = ∑ k ∈ range (2 ^ r.length - 1), eqWeight r k * pcAt rows.rows (k + 1)) ∧
      (∀ message last, messages.getLast? = some message → challenges.getLast? = some last →
        message.evaluate last = summand r rows.rows challenges.reverse +
          (claim - ∑ k ∈ range (2 ^ r.length - 1), eqWeight r k * pcAt rows.rows (k + 1)) *
            (challenges.map fun t => t * (2 - t)).prod) ∧
      final.outputClaims = .ok (extension (pcAt rows.rows) challenges.reverse) := by
  obtain ⟨kernel, prepared, good⟩ := prepare_eq ark all positive
  obtain ⟨messages, final, ran, number, rounds, done⟩ := (serves ark all
    (claim - restSum (summand r rows.rows) r.length [])).run good count.le fun _ _ => trivial
  rw [restSum_drifted_nil] at ran
  rw [count, Nat.sub_self] at done
  rw [count] at number
  rw [← sum_summand]
  refine ⟨kernel, messages, final, prepared, ran, number,
    isRound_drifted_iff positive number rounds, ?_, outputClaims_eq done⟩
  intro message last there end_
  have product : drift challenges.reverse = (challenges.map fun t => t * (2 - t)).prod := by
    rw [drift, List.map_reverse, List.prod_reverse]
  rw [evaluate_last number count rounds there end_, drifted, product]

/-- Eight cycles, of which the last jumps back. -/
def eightCycles : RowVec 8 SpartanShiftRow :=
  ⟨[⟨4⟩, ⟨5⟩, ⟨6⟩, ⟨7⟩, ⟨8⟩, ⟨9⟩, ⟨2 ^ 64 - 1⟩, ⟨4⟩], by decide⟩

theorem spartanShift_rounds_eight : ∃ kernel messages final,
    ShiftKernel.prepare .reference 3 [2, 3, 5] eightCycles = .ok kernel ∧
      (ShiftKernel.rounds .reference).proveRounds kernel none 0 9 [7, 0, 2] = .ok (messages, final) ∧
      messages.length = 3 ∧ final.outputClaims = .ok (extension (pcAt eightCycles.rows) [2, 0, 7]) := by
  obtain ⟨kernel, messages, final, prepared, ran, number, -, -, claims⟩ :=
    @spartanShift_rounds .reference [2, 3, 5] (by decide) eightCycles rfl [7, 0, 2] rfl 9
  exact ⟨kernel, messages, final, prepared, ran, number, claims⟩

end SpartanShift

end JoltWasm
