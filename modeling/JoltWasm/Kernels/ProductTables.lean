import JoltWasm.Kernels.BoundTables
import JoltWasm.Kernels.ProductUniskip
import JoltWasm.Lib.Loops

/-!
# The tables of the product remainder

Each cell is folded in five limbs and reduced once.  The weights sum to one, so the raw sum of a cell stays
within what the Barrett step reads.  The tables are written chunk by chunk.
-/

namespace JoltWasm

open Lib Mont Finset

namespace SpartanProduct

/-! ## The weights -/

/-- The weight of a lane at the challenge of the first round. -/
noncomputable def weight (r : Scalar) (i : ℕ) : Scalar := lagrangeWeight domainStart domain r i

/-- The weights of the two lanes sum to one. -/
theorem weight_sum (r : Scalar) : weight r 0 + weight r 1 = 1 := by
  have sum := sum_lagrangeWeight domainStart (distinctNodes domain_le) (p := 1)
    (by rw [Polynomial.degree_one]; exact WithBot.coe_lt_coe.mpr (by decide)) r
  simpa [domain, sum_range_succ, weight] using sum

theorem eval_lanePolynomial (a b r : Scalar) : (lanePolynomial a b).eval r = weight r 0 * a + weight r 1 * b := by
  rw [lanePolynomial, Lagrange.interpolate_apply, Polynomial.eval_finsetSum]
  simp [domain, sum_range_succ, weight, lagrangeWeight, mul_comm]

/-! ## One cell -/

/-- Weights that sum to one have Montgomery forms whose sum is below `2^254`. -/
theorem montgomeryForm_add_lt {w v : Scalar} (unit : w + v = 1) : montgomeryForm w + montgomeryForm v < 2 ^ 254 := by
  have smallW := montgomeryForm_lt w
  have smallV := montgomeryForm_lt v
  have remainder : (montgomeryForm w + montgomeryForm v) % Mont.order = 2 ^ 256 % Mont.order := by
    rw [← ZMod.val_natCast Mont.order (2 ^ 256), montgomeryForm, montgomeryForm, ← ZMod.val_add, ← add_mul, unit, one_mul,
      Nat.cast_pow, Nat.cast_ofNat]
  generalize montgomeryForm w = x at *
  generalize montgomeryForm v = y at *
  simp only [Mont.order] at remainder smallW smallV
  omega

theorem raw_pair_lt {x y a b : ℕ} (weights : x + y < 2 ^ 254) (smallA : a ≤ 2 ^ 64) (smallB : b ≤ 2 ^ 64) :
    x * a + y * b < 2 ^ 254 * 2 ^ 64 :=
  calc x * a + y * b ≤ x * 2 ^ 64 + y * 2 ^ 64 :=
        Nat.add_le_add (Nat.mul_le_mul_left x smallA) (Nat.mul_le_mul_left y smallB)
    _ = (x + y) * 2 ^ 64 := (Nat.add_mul x y _).symm
    _ < 2 ^ 254 * 2 ^ 64 := Nat.mul_lt_mul_of_pos_right weights (by norm_num)

theorem rawSum_pair {w v : Scalar} (a b : Mont.U64) :
    rawSum [(w, a), (v, b)] = montgomeryForm w * a.val + montgomeryForm v * b.val := by
  rw [rawSum, List.map_cons, List.map_cons, List.map_nil, List.sum_cons, List.sum_cons, List.sum_nil, add_zero]

theorem rawSum_pair_lt {w v : Scalar} (unit : w + v = 1) (a b : Mont.U64) : rawSum [(w, a), (v, b)] < 2 ^ 318 := by
  rw [rawSum_pair]
  exact (raw_pair_lt (montgomeryForm_add_lt unit) a.isLt.le b.isLt.le).trans_eq (Nat.pow_add 2 254 64).symm

variable (ark : ArkFr) (rows : List SpartanProductRow)

/-- The two products of a side, folded and reduced. -/
theorem fmaddU64_pair {w v : Scalar} (unit : w + v = 1) (a b : Mont.U64) :
    (fmaddU64 ark (fmaddU64 ark (FrSmallScalarAccumulator.accumulator ark).default w a) v b).result ark =
      w * (a.val : Scalar) + v * (b.val : Scalar) := by
  have reduced := FrSmallScalarAccumulator.result_productCalls ark (rawSum_pair_lt unit a b)
  simp only [List.map_cons, List.map_nil, List.sum_cons, List.sum_nil, add_zero] at reduced
  exact reduced

/-- What the left table holds for a cycle. -/
noncomputable def leftCell (r : Scalar) (j : ℕ) : Scalar := weight r 0 * leftInput rows j + weight r 1 * lookup rows j

noncomputable def rightCell (r : Scalar) (j : ℕ) : Scalar := weight r 0 * rightInput rows j + weight r 1 * branch rows j

/-- The weights that the kernel holds. -/
noncomputable def weights (r : Scalar) : List Scalar := (List.range domain).map (weight r)

theorem val_flagU64 (flag : Bool) : (flagU64 flag).val = flag.toNat := by cases flag <;> rfl

theorem cell_eq (r : Scalar) (j : ℕ) : cell ark (weights r) (rowAt rows j) = (leftCell rows r j, rightCell rows r j) := by
  have entries : (weights r).getD 0 0 = weight r 0 ∧ (weights r).getD 1 0 = weight r 1 := ⟨rfl, rfl⟩
  simp only [cell, entries.1, entries.2, fmaddU64_pair ark (weight_sum r), val_flagU64]
  rfl

/-! ## The blocks -/

/-- What one pair of cycles adds to the endpoints. -/
noncomputable def pairProducts (r : Scalar) (j : ℕ) : Scalar × Scalar :=
  (leftCell rows r (2 * j) * rightCell rows r (2 * j),
    (leftCell rows r (2 * j + 1) - leftCell rows r (2 * j)) * (rightCell rows r (2 * j + 1) - rightCell rows r (2 * j)))

variable {rows}

theorem blockStep_eq (r : Scalar) {inLen chunkLen xOut xIn : ℕ} (inside : 2 * (xOut * inLen + xIn) + 1 < rows.length)
    (room : 2 * xIn + 1 < chunkLen) (state : BlockState) (e : Scalar) :
    blockStep ark (weights r) rows inLen chunkLen xOut state (e, xIn) = some {
      left := state.left ++ [leftCell rows r (2 * (xOut * inLen + xIn)), leftCell rows r (2 * (xOut * inLen + xIn) + 1)]
      right := state.right ++ [rightCell rows r (2 * (xOut * inLen + xIn)), rightCell rows r (2 * (xOut * inLen + xIn) + 1)]
      innerZero := state.innerZero + e * (pairProducts rows r (xOut * inLen + xIn)).1
      innerInfinity := state.innerInfinity + e * (pairProducts rows r (xOut * inLen + xIn)).2 } := by
  have low : 2 * (xOut * inLen + xIn) < rows.length := by omega
  simp only [blockStep, getElem?_rowAt low, getElem?_rowAt inside, Option.bind_eq_bind, Option.bind_some, cell_eq,
    if_pos room]
  rfl

/-- The entries of two cycles. -/
def bothEntries (f : ℕ → Scalar) (j : ℕ) : List Scalar := [f (2 * j), f (2 * j + 1)]

theorem foldlM_blockStep (r : Scalar) {inLen chunkLen xOut : ℕ} {entries : List (Scalar × ℕ)}
    (inside : ∀ entry ∈ entries, 2 * (xOut * inLen + entry.2) + 1 < rows.length)
    (room : ∀ entry ∈ entries, 2 * entry.2 + 1 < chunkLen) (state : BlockState) :
    entries.foldlM (blockStep ark (weights r) rows inLen chunkLen xOut) state = some {
      left := state.left ++ entries.flatMap fun entry => bothEntries (leftCell rows r) (xOut * inLen + entry.2)
      right := state.right ++ entries.flatMap fun entry => bothEntries (rightCell rows r) (xOut * inLen + entry.2)
      innerZero := state.innerZero + (entries.map fun entry => entry.1 * (pairProducts rows r (xOut * inLen + entry.2)).1).sum
      innerInfinity := state.innerInfinity +
        (entries.map fun entry => entry.1 * (pairProducts rows r (xOut * inLen + entry.2)).2).sum } := by
  induction entries generalizing state with
  | nil => simp
  | cons entry entries ih =>
      obtain ⟨e, xIn⟩ := entry
      rw [List.foldlM_cons, blockStep_eq ark r (inside _ List.mem_cons_self) (room _ List.mem_cons_self),
        Option.bind_eq_bind, Option.bind_some, ih (fun entry member => inside entry (List.mem_cons_of_mem _ member))
          fun entry member => room entry (List.mem_cons_of_mem _ member)]
      simp only [List.append_assoc, List.flatMap_cons, List.map_cons, List.sum_cons, add_assoc]
      rfl

/-- The blocks, one after the other. -/
theorem foldlM_blocks {block : ℕ → Option (List Scalar × List Scalar × Scalar × Scalar)} {count : ℕ}
    {left right : ℕ → List Scalar} {ends : ℕ → Scalar × Scalar}
    (each : ∀ xOut < count, block xOut = some (left xOut, right xOut, ends xOut)) :
    (List.range count).foldlM (fun (state : List Scalar × List Scalar × Scalar × Scalar) xOut => do
        let (leftChunk, rightChunk, blockZero, blockInfinity) ← block xOut
        return (state.1 ++ leftChunk, state.2.1 ++ rightChunk, state.2.2.1 + blockZero, state.2.2.2 + blockInfinity))
      ([], [], 0, 0) =
      some ((List.range count).flatMap left, (List.range count).flatMap right, ∑ xOut ∈ range count, ends xOut) := by
  induction count with
  | zero => rfl
  | succ count ih =>
      rw [List.range_succ, List.foldlM_append, ih fun xOut inside => each xOut (inside.trans (Nat.lt_succ_self _)),
        Option.bind_eq_bind, Option.bind_some, List.foldlM_cons, each count (Nat.lt_succ_self _)]
      simp only [Option.bind_eq_bind, Option.bind_some, Option.pure_def, List.foldlM_nil, List.flatMap_append,
        List.flatMap_singleton, sum_range_succ]
      rfl

/-! ## Both tables -/

theorem flatMap_bothEntries (f : ℕ → Scalar) (a b : ℕ) :
    ((List.range (2 ^ a)).flatMap fun xOut => (List.range (2 ^ b)).flatMap fun xIn => bothEntries f (xOut * 2 ^ b + xIn)) =
      listed (a + b + 1) f := by
  have count : 2 ^ (a + b + 1) = 2 * (2 ^ a * 2 ^ b) := by rw [pow_succ', pow_add]
  rw [listed, count, EqPolynomial.range_double, range_blocks, List.map_flatMap, List.flatMap_assoc]
  refine List.flatMap_congr fun xOut _ => ?_
  rw [List.flatMap_map]
  rfl

/-- The two tables hold the folded lanes, and the endpoints are weighted by the two tables of the point. -/
theorem materialize_eq (r : Scalar) {a b : ℕ} (all : rows.length = 2 ^ (a + b + 1)) {eOut eIn : List Scalar}
    (lengthOut : eOut.length = 2 ^ a) (lengthIn : eIn.length = 2 ^ b) :
    materialize ark (weights r) rows eOut eIn (2 ^ (a + b + 1)) =
      some (listed (a + b + 1) (leftCell rows r), listed (a + b + 1) (rightCell rows r),
        ∑ xOut ∈ range (2 ^ a), ∑ xIn ∈ range (2 ^ b),
          (eOut.getD xOut 0 * eIn.getD xIn 0) • pairProducts rows r (xOut * 2 ^ b + xIn)) := by
  have whole : 2 ^ (a + b + 1) = 2 ^ a * (2 * 2 ^ b) := by ring
  have count : (2 ^ (a + b + 1) + 2 * 2 ^ b - 1) / (2 * 2 ^ b) = 2 ^ a := by
    have positive := Nat.two_pow_pos b
    rw [whole, Nat.add_sub_assoc (by omega), Nat.mul_comm, Nat.mul_add_div (by omega), Nat.div_eq_of_lt (by omega), add_zero]
  rw [materialize, lengthIn, count]
  rw [@foldlM_blocks _ _
    (fun xOut => (List.range (2 ^ b)).flatMap fun xIn => bothEntries (leftCell rows r) (xOut * 2 ^ b + xIn))
    (fun xOut => (List.range (2 ^ b)).flatMap fun xIn => bothEntries (rightCell rows r) (xOut * 2 ^ b + xIn))
    (fun xOut => ∑ xIn ∈ range (2 ^ b), (eOut.getD xOut 0 * eIn.getD xIn 0) • pairProducts rows r (xOut * 2 ^ b + xIn))]
  · rw [flatMap_bothEntries, flatMap_bothEntries]
  · intro xOut below
    have chunk : min (2 * 2 ^ b) (2 ^ (a + b + 1) - xOut * (2 * 2 ^ b)) = 2 * 2 ^ b := by
      rw [whole, ← Nat.sub_mul]
      exact min_eq_left (Nat.le_mul_of_pos_left _ (by omega))
    have inside (entry : Scalar × ℕ) (member : entry ∈ eIn.zipIdx) : entry.2 < 2 ^ b := by
      obtain ⟨e, xIn⟩ := entry
      obtain ⟨-, small, -⟩ := List.mem_zipIdx member
      rwa [Nat.zero_add, lengthIn] at small
    have entries (f : ℕ → Scalar) : (eIn.zipIdx.flatMap fun entry => bothEntries f (xOut * 2 ^ b + entry.2)) =
        (List.range (2 ^ b)).flatMap fun xIn => bothEntries f (xOut * 2 ^ b + xIn) := by
      have positions : eIn.zipIdx.map Prod.snd = List.range (2 ^ b) := by
        rw [List.zipIdx_map_snd, lengthIn, List.range_eq_range']
      rw [← positions, List.flatMap_map]
    have sums (g : ℕ → Scalar) : (eIn.zipIdx.map fun entry => entry.1 * g (xOut * 2 ^ b + entry.2)).sum =
        ∑ xIn ∈ range (2 ^ b), eIn.getD xIn 0 * g (xOut * 2 ^ b + xIn) := by
      rw [← lengthIn]
      exact GruenSplitEqPolynomial.sum_zipIdx eIn fun e xIn => e * g (xOut * eIn.length + xIn)
    have here : eOut[xOut]? = some (eOut.getD xOut 0) := by
      rw [List.getElem?_eq_getElem (by omega), List.getD_eq_getElem _ _ (by omega)]
    simp only [chunk]
    rw [foldlM_blockStep ark r]
    · simp only [List.nil_append, zero_add, Option.bind_eq_bind, Option.bind_some, here, entries, Option.pure_def,
        sums fun j => (pairProducts rows r j).1, sums fun j => (pairProducts rows r j).2, mul_sum, ← mul_assoc]
      refine congrArg some (Prod.ext rfl (Prod.ext rfl (Prod.ext ?_ ?_)))
      · rw [Prod.fst_sum]
        rfl
      · rw [Prod.snd_sum]
        rfl
    · intro entry member
      have := GruenSplitEqPolynomial.index_lt below (inside entry member)
      rw [all, pow_succ]
      omega
    · intro entry member
      have := inside entry member
      omega

/-- The endpoints are those of the two tables. -/
theorem sum_pairProducts (r : Scalar) {a b : ℕ} {p : GruenSplitEqPolynomial Scalar}
    (lengthOut : p.eOutCurrent.length = 2 ^ a) (lengthIn : p.eInCurrent.length = 2 ^ b)
    (row : ∀ xOut xIn, xOut < 2 ^ a → xIn < 2 ^ b → p.groupIndex xOut xIn = xOut * 2 ^ b + xIn) :
    ∑ xOut ∈ range (2 ^ a), ∑ xIn ∈ range (2 ^ b),
        (p.eOutCurrent.getD xOut 0 * p.eInCurrent.getD xIn 0) • pairProducts rows r (xOut * 2 ^ b + xIn) =
      p.productEndpoints (tabulatedPolynomial (extension (leftCell rows r)) (a + b + 1) [])
        (tabulatedPolynomial (extension (rightCell rows r)) (a + b + 1) []) := by
  have nonempty : p.eOutCurrent ≠ [] := by
    rw [← List.length_pos_iff, lengthOut]
    exact Nat.two_pow_pos a
  rw [GruenSplitEqPolynomial.productEndpoints_sum nonempty, lengthOut, lengthIn]
  refine sum_congr rfl fun xOut member => sum_congr rfl fun xIn member' => ?_
  have below := GruenSplitEqPolynomial.index_lt (mem_range.mp member) (mem_range.mp member')
  have pair (f : ℕ → Scalar) : (tabulatedPolynomial (extension f) (a + b + 1) []).sumcheckEvalPair (xOut * 2 ^ b + xIn) .lowToHigh =
      (f (2 * (xOut * 2 ^ b + xIn)), f (2 * (xOut * 2 ^ b + xIn) + 1)) := by
    have even : 2 * (xOut * 2 ^ b + xIn) < 2 ^ (a + b + 1) := by rw [pow_succ]; omega
    have odd : 2 * (xOut * 2 ^ b + xIn) + 1 < 2 ^ (a + b + 1) := by rw [pow_succ]; omega
    simp only [DensePolynomial.sumcheckEvalPair, tabulatedPolynomial, getD_tabulated _ _ _ even, getD_tabulated _ _ _ odd,
      List.nil_append, List.append_nil, extension_bitPoint f even, extension_bitPoint f odd]
  rw [row xOut xIn (mem_range.mp member) (mem_range.mp member'), GruenSplitEqPolynomial.eval_zero_rows,
    GruenSplitEqPolynomial.coeff_two_rows, pair, pair]
  rfl

end SpartanProduct

end JoltWasm
