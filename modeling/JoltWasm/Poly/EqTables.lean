import Mathlib.NumberTheory.Padics.PadicVal.Basic
import JoltWasm.Poly.Mle

/-!
# Tables of the equality polynomial

All constructions of the table of weights, with scaling: serial, in parallel quarters, cached for every
prefix or every suffix, and for aligned blocks, from which the prover assembles any range.
-/

namespace JoltWasm

open Lib

section

variable {F : Type} [Field F]

/-! ## The constructions -/

namespace EqPolynomial

/-- `EqPolynomial::evaluations`. -/
def evaluations (point : List F) : List F :=
  point.foldl (fun table r => table.flatMap fun base => [base * (1 - r), base * r]) [1]

/-- One coordinate, split off at the low end. -/
def splitLow (evals : List F) (r : F) : List F := evals.flatMap fun scalar => [scalar - scalar * r, scalar * r]

/-- One coordinate, split off at the high end. -/
def splitHigh (evals : List F) (r : F) : List F := evals.map (fun x => x - x * r) ++ evals.map (· * r)

def evalsSerial (r : List F) (scalingFactor : Option F) : List F := r.foldl splitLow [scalingFactor.getD 1]

/-- Two coordinates at a time, from the last ones on. -/
def evalsParallelLoop : List F → List F → List F
  | rLo :: rHi :: rest, evals =>
      let q0 := evals.map fun x => (x - x * rLo) - (x - x * rLo) * rHi
      let q1 := evals.map fun x => x * rLo - x * rLo * rHi
      let q2 := evals.map fun x => (x - x * rLo) * rHi
      let q3 := evals.map fun x => x * rLo * rHi
      evalsParallelLoop rest (q0 ++ q1 ++ q2 ++ q3)
  | rest, evals => rest.foldl splitHigh evals

def evalsParallel (r : List F) (scalingFactor : Option F) : List F :=
  evalsParallelLoop r.reverse [scalingFactor.getD 1]

def evals (r : List F) (scalingFactor : Option F) : List F :=
  if r.length ≤ 16 then evalsSerial r scalingFactor else evalsParallel r scalingFactor

/-- The tables of the prefixes. -/
def evalsCached (r : List F) (scalingFactor : Option F) : List (List F) :=
  r.scanl splitLow [scalingFactor.getD 1]

/-- The tables of the suffixes. -/
def evalsCachedRev (r : List F) (scalingFactor : Option F) : List (List F) :=
  r.reverse.scanl splitHigh [scalingFactor.getD 1]

/-- The bits of a `usize`. -/
def booleanBitsMsb (numVars index : ℕ) : List Bool := (List.range numVars).map fun position =>
  let shift := numVars - 1 - position
  if shift < 64 then index.testBit shift else false

def isPowerOfTwo (n : ℕ) : Bool := n == 2 ^ Nat.log 2 n

def nextPowerOfTwo (n : ℕ) : ℕ := if isPowerOfTwo n then n else 2 ^ (Nat.log 2 n + 1)

/-- The weight of the block, and the table of the low coordinates scaled by it. -/
def evalsForAlignedBlock (r : List F) (startIndex blockSize : ℕ) : Option (List F) :=
  if ¬isPowerOfTwo blockSize then none
  else if startIndex % blockSize ≠ 0 then none
  else
    let blockVars := Nat.log 2 blockSize
    if r.length < blockVars then none
    else
      let prefixLen := r.length - blockVars
      let prefixValue := startIndex >>> blockVars
      let prefixScale := (List.zipWith (fun bit rI => if bit then rI else 1 - rI)
        (booleanBitsMsb prefixLen prefixValue) r).foldl (· * ·) 1
      some (evals (r.drop prefixLen) (some prefixScale))

def evalsForMaxAlignedBlock (r : List F) (startIndex remainingLen : ℕ) : Option (ℕ × List F) :=
  if remainingLen = 0 then none
  else do
    let maxLenPow := if isPowerOfTwo remainingLen then remainingLen else nextPowerOfTwo remainingLen >>> 1
    let alignPow := if startIndex = 0 then 1 <<< r.length else 1 <<< padicValNat 2 startIndex
    let blockSize := min maxLenPow alignPow
    let table ← evalsForAlignedBlock r startIndex blockSize
    return (blockSize, table)

/-- The blocks of `shifted_eq_slice`, one after the other; `fuel` bounds their number. -/
def shiftedEqLoop (rAddr : List F) : ℕ → ℕ → ℕ → List F → Option (List F)
  | _, _, 0, out => some out
  | 0, _, _ + 1, _ => none
  | fuel + 1, index, remaining@(_ + 1), out => do
      let ramDomain := 1 <<< rAddr.length
      let span := min remaining (ramDomain - index)
      let (blockSize, blockEvals) ← evalsForMaxAlignedBlock rAddr index span
      shiftedEqLoop rAddr fuel ((index + blockSize) &&& (ramDomain - 1)) (remaining - blockSize) (out ++ blockEvals)

def shiftedEqSlice (rAddr : List F) (startIndex len : ℕ) : Option (List F) :=
  shiftedEqLoop rAddr len (startIndex &&& (1 <<< rAddr.length - 1)) len []

/-! ## Weights -/

/-- The table of the weights of a point, scaled. -/
def table (scale : F) (point : List F) : List F := (List.range (2 ^ point.length)).map fun k => scale * eqWeight point k

@[simp] theorem length_table (scale : F) (point : List F) : (table scale point).length = 2 ^ point.length := by
  rw [table, List.length_map, List.length_range]

theorem getD_table (scale : F) (point : List F) {k : ℕ} (inside : k < 2 ^ point.length) :
    (table scale point).getD k 0 = scale * eqWeight point k := by
  rw [table, List.getD_eq_getElem _ _ (by simpa using inside), List.getElem_map, List.getElem_range]

theorem table_nil (scale : F) : table scale [] = [scale] := by simp [table, eqWeight]

theorem range_double (n : ℕ) : List.range (2 * n) = (List.range n).flatMap fun k => [2 * k, 2 * k + 1] := by
  induction n with
  | zero => rfl
  | succ n ih =>
      rw [List.range_succ, List.flatMap_append, ← ih, Nat.mul_succ, List.range_succ, List.range_succ]
      simp

theorem eqWeight_concat (point : List F) (r : F) (k : ℕ) :
    eqWeight (point ++ [r]) (2 * k) = eqWeight point k * (1 - r) ∧
      eqWeight (point ++ [r]) (2 * k + 1) = eqWeight point k * r := by
  have even : (2 * k) / 2 ^ [r].length = k := by simp
  have odd : (2 * k + 1) / 2 ^ [r].length = k := by
    rw [List.length_singleton, pow_one]
    omega
  rw [eqWeight_append, eqWeight_append, even, odd]
  simp [eqWeight]

theorem splitLow_table (scale : F) (point : List F) (r : F) :
    splitLow (table scale point) r = table scale (point ++ [r]) := by
  rw [splitLow, table, table, List.length_append, List.length_singleton, pow_succ', range_double, List.flatMap_map,
    List.map_flatMap]
  refine List.flatMap_congr fun k _ => ?_
  obtain ⟨even, odd⟩ := eqWeight_concat point r k
  rw [List.map_cons, List.map_cons, List.map_nil, even, odd, ← mul_assoc, ← mul_assoc, mul_one_sub]

theorem splitHigh_table (scale : F) (point : List F) (r : F) :
    splitHigh (table scale point) r = table scale (r :: point) := by
  rw [splitHigh, table, table, List.length_cons, pow_succ, mul_two, List.range_add, List.map_append, List.map_map,
    List.map_map, List.map_map]
  congr 1
  · refine List.map_congr_left fun k member => ?_
    rw [Function.comp_apply, eqWeight_cons_low r point (List.mem_range.mp member)]
    ring
  · refine List.map_congr_left fun k member => ?_
    rw [Function.comp_apply, Function.comp_apply, Nat.add_comm, eqWeight_cons_high r point (List.mem_range.mp member)]
    ring

theorem foldl_splitLow (scale : F) (point rest : List F) :
    rest.foldl splitLow (table scale point) = table scale (point ++ rest) := by
  induction rest generalizing point with
  | nil => rw [List.foldl_nil, List.append_nil]
  | cons r rest ih => rw [List.foldl_cons, splitLow_table, ih, List.append_assoc, List.singleton_append]

theorem foldl_splitHigh (scale : F) (point rest : List F) :
    rest.foldl splitHigh (table scale point) = table scale (rest.reverse ++ point) := by
  induction rest generalizing point with
  | nil => rfl
  | cons r rest ih =>
      rw [List.foldl_cons, splitHigh_table, ih, List.reverse_cons, List.append_assoc, List.singleton_append]

/-- The parts of an index have the weights of their coordinates. -/
theorem eqWeight_append_add (high low : List F) (a : ℕ) {b : ℕ} (inside : b < 2 ^ low.length) :
    eqWeight (high ++ low) (a * 2 ^ low.length + b) = eqWeight high a * eqWeight low b := by
  rw [eqWeight_append, ← eqWeight_mod low, Nat.mul_comm, Nat.mul_add_div (Nat.two_pow_pos _),
    Nat.div_eq_of_lt inside, Nat.mul_add_mod, Nat.mod_eq_of_lt inside, Nat.add_zero]

/-! ## Each construction gives the weights -/

theorem evaluations_eq (point : List F) : evaluations point = table 1 point := by
  have same : (fun (table : List F) r => table.flatMap fun base => [base * (1 - r), base * r]) = splitLow := by
    funext table r
    simp only [splitLow, mul_one_sub]
  rw [evaluations, same, ← table_nil, foldl_splitLow, List.nil_append]

theorem evalsSerial_eq (r : List F) (scalingFactor : Option F) :
    evalsSerial r scalingFactor = table (scalingFactor.getD 1) r := by
  rw [evalsSerial, ← table_nil, foldl_splitLow, List.nil_append]

/-- Four quarters are two coordinates. -/
theorem quarters (evals : List F) (rLo rHi : F) :
    (evals.map fun x => (x - x * rLo) - (x - x * rLo) * rHi) ++ (evals.map fun x => x * rLo - x * rLo * rHi) ++
        (evals.map fun x => (x - x * rLo) * rHi) ++ (evals.map fun x => x * rLo * rHi) =
      splitHigh (splitHigh evals rLo) rHi := by
  simp only [splitHigh, List.map_append, List.map_map, List.append_assoc]
  rfl

theorem evalsParallelLoop_eq (scale : F) (point rest : List F) :
    evalsParallelLoop rest (table scale point) = table scale (rest.reverse ++ point) := by
  induction rest using List.twoStepInduction generalizing point with
  | nil => rfl
  | singleton r => exact foldl_splitHigh scale point [r]
  | cons_cons rLo rHi rest ih _ =>
      rw [evalsParallelLoop, quarters, splitHigh_table, splitHigh_table, ih]
      simp

theorem evalsParallel_eq (r : List F) (scalingFactor : Option F) :
    evalsParallel r scalingFactor = table (scalingFactor.getD 1) r := by
  rw [evalsParallel, ← table_nil, evalsParallelLoop_eq, List.reverse_reverse, List.append_nil]

theorem evals_eq (r : List F) (scalingFactor : Option F) : evals r scalingFactor = table (scalingFactor.getD 1) r := by
  rw [evals, evalsSerial_eq, evalsParallel_eq, ite_self]

theorem evalsCached_eq (r : List F) (scalingFactor : Option F) {j : ℕ} (inside : j ≤ r.length) :
    (evalsCached r scalingFactor)[j]? = some (table (scalingFactor.getD 1) (r.take j)) := by
  rw [evalsCached, List.getElem?_scanl, if_pos (by omega), ← table_nil, foldl_splitLow, List.nil_append]

theorem evalsCachedRev_eq (r : List F) (scalingFactor : Option F) {j : ℕ} (inside : j ≤ r.length) :
    (evalsCachedRev r scalingFactor)[j]? = some (table (scalingFactor.getD 1) (r.drop (r.length - j))) := by
  rw [evalsCachedRev, List.getElem?_scanl, List.length_reverse, if_pos (by omega), ← table_nil, foldl_splitHigh,
    List.append_nil, List.take_reverse, List.reverse_reverse]

/-! ## Aligned blocks -/

theorem isPowerOfTwo_pow (v : ℕ) : isPowerOfTwo (2 ^ v) = true := by
  rw [isPowerOfTwo, Nat.log_pow one_lt_two, beq_self_eq_true]

/-- The largest power of two in a length. -/
theorem maxLenPow_eq (len : ℕ) :
    (if isPowerOfTwo len then len else nextPowerOfTwo len >>> 1) = 2 ^ Nat.log 2 len := by
  split_ifs with exact
  · exact beq_iff_eq.mp exact
  · rw [nextPowerOfTwo, if_neg exact, Nat.shiftRight_eq_div_pow, pow_one, pow_succ,
      Nat.mul_div_cancel _ two_pos]

theorem booleanBitsMsb_succ (n : ℕ) {index : ℕ} (small : index < 2 ^ 64) :
    booleanBitsMsb (n + 1) index = index.testBit n :: booleanBitsMsb n index := by
  rw [booleanBitsMsb, List.range_succ_eq_map, List.map_cons, List.map_map]
  congr 1
  · rw [Nat.sub_zero, Nat.add_sub_cancel]
    simp only
    split_ifs with inside
    · rfl
    · exact (Nat.testBit_lt_two_pow (small.trans_le (Nat.pow_le_pow_right two_pos (Nat.not_lt.mp inside)))).symm
  · refine List.map_congr_left fun position _ => ?_
    have shift : n + 1 - 1 - (position + 1) = n - 1 - position := by omega
    simp only [Function.comp_apply, Nat.succ_eq_add_one, shift]

/-- The scale of a block is the weight of its number. -/
theorem prefixScale_eq (high low : List F) {index : ℕ} (small : index < 2 ^ 64) (start : F) :
    (List.zipWith (fun bit rI => if bit then rI else 1 - rI) (booleanBitsMsb high.length index)
      (high ++ low)).foldl (· * ·) start = start * eqWeight high index := by
  induction high generalizing start with
  | nil => exact (mul_one start).symm
  | cons r high ih =>
      rw [List.length_cons, booleanBitsMsb_succ _ small, List.cons_append, List.zipWith_cons_cons,
        List.foldl_cons, ih, eqWeight, mul_assoc]

theorem evalsForAlignedBlock_eq {r : List F} {startIndex blockVars : ℕ} (fits : blockVars ≤ r.length)
    (aligned : 2 ^ blockVars ∣ startIndex) (small : startIndex < 2 ^ 64) :
    evalsForAlignedBlock r startIndex (2 ^ blockVars) =
      some ((List.range (2 ^ blockVars)).map fun offset => eqWeight r (startIndex + offset)) := by
  obtain ⟨index, rfl⟩ := aligned
  have positive := Nat.two_pow_pos blockVars
  have below : index < 2 ^ 64 := (Nat.le_mul_of_pos_left index positive).trans_lt small
  obtain ⟨high, low, rfl, rfl⟩ : ∃ high low, r = high ++ low ∧ low.length = blockVars :=
    ⟨_, _, (List.take_append_drop (r.length - blockVars) r).symm, by
      rw [List.length_drop, Nat.sub_sub_self fits]⟩
  rw [evalsForAlignedBlock, if_neg (not_not_intro (isPowerOfTwo_pow _)),
    if_neg (not_not_intro (Nat.mul_mod_right _ _))]
  simp only [Nat.log_pow one_lt_two, Nat.shiftRight_eq_div_pow, Nat.mul_div_cancel_left _ positive]
  rw [if_neg (Nat.not_lt.mpr fits), List.length_append, Nat.add_sub_cancel, prefixScale_eq high low below,
    one_mul, List.drop_left, evals_eq, Option.getD_some, table]
  refine congrArg some (List.map_congr_left fun offset member => ?_)
  rw [Nat.mul_comm (2 ^ low.length), eqWeight_append_add high low index (List.mem_range.mp member)]

/-- The block is inside the range, and starts at a multiple of its size. -/
theorem evalsForMaxAlignedBlock_eq {r : List F} (narrow : r.length < 64) {startIndex remainingLen : ℕ}
    (nonempty : remainingLen ≠ 0) (inside : startIndex + remainingLen ≤ 2 ^ r.length) :
    ∃ blockSize, 0 < blockSize ∧ blockSize ≤ remainingLen ∧ evalsForMaxAlignedBlock r startIndex remainingLen =
      some (blockSize, (List.range blockSize).map fun offset => eqWeight r (startIndex + offset)) := by
  obtain ⟨align, alignPow, divides⟩ : ∃ align,
      (if startIndex = 0 then 1 <<< r.length else 1 <<< padicValNat 2 startIndex) = 2 ^ align ∧
        2 ^ align ∣ startIndex := by
    split_ifs with zero
    · exact ⟨r.length, Nat.one_shiftLeft _, zero ▸ Nat.dvd_zero _⟩
    · exact ⟨padicValNat 2 startIndex, Nat.one_shiftLeft _, pow_padicValNat_dvd⟩
  have size : min (2 ^ Nat.log 2 remainingLen) (2 ^ align) = 2 ^ min (Nat.log 2 remainingLen) align :=
    ((pow_right_mono₀ one_le_two).map_min).symm
  have short : 2 ^ min (Nat.log 2 remainingLen) align ≤ remainingLen :=
    (Nat.pow_le_pow_right two_pos (min_le_left _ _)).trans (Nat.pow_log_le_self 2 nonempty)
  have fits : min (Nat.log 2 remainingLen) align ≤ r.length :=
    (Nat.pow_le_pow_iff_right one_lt_two).mp (by omega)
  have small : startIndex < 2 ^ 64 := by
    have := Nat.pow_lt_pow_right one_lt_two narrow
    omega
  refine ⟨2 ^ min (Nat.log 2 remainingLen) align, Nat.two_pow_pos _, short, ?_⟩
  rw [evalsForMaxAlignedBlock, if_neg nonempty]
  simp only [maxLenPow_eq, alignPow, size]
  rw [evalsForAlignedBlock_eq fits ((pow_dvd_pow 2 (min_le_right _ _)).trans divides) small]
  rfl

/-- The blocks cover the range once, in order. -/
theorem shiftedEqLoop_eq {rAddr : List F} (narrow : rAddr.length < 64) {fuel index remaining : ℕ}
    (enough : remaining ≤ fuel) (inside : index < 2 ^ rAddr.length) (out : List F) :
    shiftedEqLoop rAddr fuel index remaining out =
      some (out ++ (List.range remaining).map fun offset => eqWeight rAddr (index + offset)) := by
  induction fuel generalizing index remaining out with
  | zero =>
      obtain rfl := Nat.le_zero.mp enough
      simp [shiftedEqLoop]
  | succ fuel ih =>
      cases remaining with
      | zero => simp [shiftedEqLoop]
      | succ rest =>
          have some_ : min (rest + 1) (2 ^ rAddr.length - index) ≠ 0 := by omega
          have inside : index + min (rest + 1) (2 ^ rAddr.length - index) ≤ 2 ^ rAddr.length := by omega
          obtain ⟨blockSize, positive, short, block⟩ := evalsForMaxAlignedBlock_eq narrow some_ inside
          have length : blockSize + (rest + 1 - blockSize) = rest + 1 := by omega
          rw [shiftedEqLoop, Nat.one_shiftLeft, block]
          simp only [Option.bind_eq_bind, Option.bind_some]
          rw [Nat.and_two_pow_sub_one_eq_mod, ih (by omega) (Nat.mod_lt _ (Nat.two_pow_pos _)), List.append_assoc,
            ← length, List.range_add, List.map_append, List.map_map]
          refine congrArg some (congrArg (out ++ ·) (congrArg (_ ++ ·) ?_))
          refine List.map_congr_left fun offset _ => ?_
          -- The index wraps at the end of the domain, and so do the weights.
          rw [Function.comp_apply, ← eqWeight_mod, Nat.mod_add_mod, eqWeight_mod, Nat.add_assoc]

theorem shiftedEqSlice_eq {rAddr : List F} (narrow : rAddr.length < 64) (startIndex len : ℕ) :
    shiftedEqSlice rAddr startIndex len =
      some ((List.range len).map fun offset => eqWeight rAddr (startIndex + offset)) := by
  rw [shiftedEqSlice, Nat.one_shiftLeft, Nat.and_two_pow_sub_one_eq_mod,
    shiftedEqLoop_eq narrow le_rfl (Nat.mod_lt _ (Nat.two_pow_pos _)), List.nil_append]
  refine congrArg some (List.map_congr_left fun offset _ => ?_)
  rw [← eqWeight_mod, Nat.mod_add_mod, eqWeight_mod]

/-! ## The tables agree -/

/-- The product formula, at the bits of the index. -/
theorem eqWeight_eq_eqMle (r : List F) {i : ℕ} (inside : i < 2 ^ r.length) :
    eqWeight r i = eqMle r (bitPoint F r.length i) := by
  rw [eqMle_eq (length_bitPoint _ _).symm, extension_bitPoint _ inside]

/-- What the constructions return for a point and a scaling. -/
structure TablesAgree (r : List F) (scalingFactor : Option F) : Prop where
  serial : evalsSerial r scalingFactor = evals r scalingFactor
  parallel : evalsParallel r scalingFactor = evals r scalingFactor
  unscaled : evaluations r = evals r none
  length : (evals r scalingFactor).length = 2 ^ r.length
  entry : ∀ i < 2 ^ r.length,
    (evals r scalingFactor)[i]? = some (scalingFactor.getD 1 * eqMle r (bitPoint F r.length i))
  cached : (evalsCached r scalingFactor).length = r.length + 1 ∧
    ∀ j ≤ r.length, (evalsCached r scalingFactor)[j]? = some (evals (r.take j) scalingFactor)
  cachedRev : (evalsCachedRev r scalingFactor).length = r.length + 1 ∧
    ∀ j ≤ r.length, (evalsCachedRev r scalingFactor)[j]? = some (evals (r.drop (r.length - j)) scalingFactor)
  block : ∀ {startIndex blockSize : ℕ}, r.length < 64 → isPowerOfTwo blockSize = true → blockSize ∣ startIndex →
    startIndex + blockSize ≤ 2 ^ r.length →
      evalsForAlignedBlock r startIndex blockSize = some (((evals r none).drop startIndex).take blockSize)
  range : ∀ {start end_ : ℕ}, r.length < 64 → start ≤ end_ → end_ ≤ 2 ^ r.length →
    shiftedEqSlice r start (end_ - start) = some (((evals r none).drop start).take (end_ - start))

/-- A part of the table. -/
theorem take_drop_evals (r : List F) {start len : ℕ} (inside : start + len ≤ 2 ^ r.length) :
    ((evals r none).drop start).take len = (List.range len).map fun offset => eqWeight r (start + offset) := by
  obtain ⟨rest, whole⟩ := Nat.exists_eq_add_of_le inside
  rw [evals_eq, Option.getD_none, table, whole, Nat.add_assoc, List.range_add, List.map_append, List.drop_left'
    (by simp), List.range_add, List.map_append, List.map_append, List.take_left' (by simp), List.map_map]
  simp

theorem tablesAgree (r : List F) (scalingFactor : Option F) : TablesAgree r scalingFactor where
  serial := by rw [evalsSerial_eq, evals_eq]
  parallel := by rw [evalsParallel_eq, evals_eq]
  unscaled := by rw [evaluations_eq, evals_eq, Option.getD_none]
  length := by rw [evals_eq, length_table]
  entry i inside := by
    rw [evals_eq, table, List.getElem?_map, List.getElem?_range inside, Option.map_some, eqWeight_eq_eqMle r inside]
  cached := ⟨by rw [evalsCached, List.length_scanl], fun j inside => by rw [evalsCached_eq r _ inside, evals_eq]⟩
  cachedRev := ⟨by rw [evalsCachedRev, List.length_scanl, List.length_reverse], fun j inside => by
    rw [evalsCachedRev_eq r _ inside, evals_eq]⟩
  block narrow power divides inside := by
    obtain ⟨blockVars, rfl⟩ : ∃ v, _ = 2 ^ v := ⟨_, beq_iff_eq.mp power⟩
    have positive := Nat.two_pow_pos blockVars
    have domain := Nat.pow_lt_pow_right one_lt_two narrow
    rw [evalsForAlignedBlock_eq ((Nat.pow_le_pow_iff_right one_lt_two).mp (by omega)) divides (by omega),
      take_drop_evals r inside]
  range narrow ordered inside := by rw [shiftedEqSlice_eq narrow, take_drop_evals r (by omega)]

end EqPolynomial

end

end JoltWasm
